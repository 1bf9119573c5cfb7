import LinkKeeper.Number.Binary64
import LinkKeeper.Text.Hex

/-!
# Reading decimals

A decimal is digits with a point among them or on either side, and an exponent perhaps.
It is read as the nearest binary64 number.
-/

namespace LinkKeeper.Number

open Text

/-- The digits at the front of a text, and what follows. -/
def leadingDigits (cs : List Char) : List Char × List Char :=
  (cs.takeWhile Char.isDigit, cs.dropWhile Char.isDigit)

/-- What a sign at the front says, and what follows it. -/
def leadingSign (cs : List Char) : Bool × List Char :=
  match cs with
  | '+' :: rest => (false, rest)
  | '-' :: rest => (true, rest)
  | _ => (false, cs)

/-- An exponent, which is all that may follow the digits; without one it is zero. -/
def exponent? (cs : List Char) : Option Int :=
  match cs with
  | [] => some 0
  | e :: rest =>
      if e = 'e' ∨ e = 'E' then
        let (negative, digits) := leadingSign rest
        if digits.isEmpty || !digits.all Char.isDigit then none
        else some (if negative then -(decimal digits : Int) else decimal digits)
      else none

/-- The number nearest to a decimal, with or without a sign. -/
def Binary64.ofText? (cs : List Char) : Option Binary64 := do
  let (negative, cs) := leadingSign cs
  let (whole, rest) := leadingDigits cs
  let (part, rest) := match rest with
    | '.' :: behind => leadingDigits behind
    | _ => ([], rest)
  if whole.isEmpty && part.isEmpty then none
  else
    let power ← exponent? rest
    return ofDecimal negative (decimal (whole ++ part)) (power - part.length)

end LinkKeeper.Number
