import LinkKeeper.Number.Binary64
import LinkKeeper.Text.Hex

/-!
# Strings and numbers of JSON

A string literal is kept in both forms: as it is written and as it reads. Escapes are
read strictly: a control character, an unknown escape, or half of a surrogate pair is
no part of a string.

A number is only checked. It must have the shape the format lays down, and the product
of its leading digits and its power of ten must stay finite.
-/

namespace LinkKeeper.Json

open Number Text

/-- A string literal and the byte where its content starts. -/
structure Literal where
  start : Nat
  /-- What stands between the quotes. -/
  raw : List Char
  /-- The text it means. -/
  decoded : List Char
  deriving DecidableEq, Repr

/-- Whether a code unit is the first half of a pair. -/
def isHighHalf (n : Nat) : Bool := 0xD800 ≤ n && n < 0xDC00

/-- Whether a code unit is the second half of a pair. -/
def isLowHalf (n : Nat) : Bool := 0xDC00 ≤ n && n < 0xE000

/-- The character an escape means, and its length without the backslash. -/
def escape? : List Char → Option (Char × Nat)
  | '"' :: _ => some ('"', 1)
  | '\\' :: _ => some ('\\', 1)
  | '/' :: _ => some ('/', 1)
  | 'b' :: _ => some ('\x08', 1)
  | 'f' :: _ => some ('\x0c', 1)
  | 'n' :: _ => some ('\n', 1)
  | 'r' :: _ => some ('\r', 1)
  | 't' :: _ => some ('\t', 1)
  | 'u' :: a :: b :: c :: d :: rest => do
      let n ← hexNumber? 4 [a, b, c, d]
      if isLowHalf n then none
      else if isHighHalf n then
        match rest with
        | '\\' :: 'u' :: e :: f :: g :: h :: _ => do
            let m ← hexNumber? 4 [e, f, g, h]
            if isLowHalf m then
              some (Char.ofNat (0x10000 + (n - 0xD800) * 0x400 + (m - 0xDC00)), 11)
            else none
        | _ => none
      else some (Char.ofNat n, 5)
  | _ => none

/--
Reads on behind an opening quote: how many characters of an escape are still to be
passed over, and both forms of the string so far, last character first. Answers both
forms and what follows the closing quote.
-/
def readString : Nat → List Char → List Char → List Char →
    Option (List Char × List Char × List Char)
  | _, _, _, [] => none
  | skip + 1, raw, decoded, c :: cs => readString skip (c :: raw) decoded cs
  | 0, raw, decoded, c :: cs =>
      if c = '"' then some (raw.reverse, decoded.reverse, cs)
      else if c = '\\' then
        match escape? cs with
        | some (d, length) => readString length (c :: raw) (d :: decoded) cs
        | none => none
      else if c.toNat < 0x20 then none
      else readString 0 (c :: raw) (c :: decoded) cs

/-- The largest number of 64 bits. -/
def largestWord : Nat := 0xffffffffffffffff

/--
The leading digits of a number and the power of ten that scales them. Digits are taken
up as long as the number they form fits 64 bits; of the rest only the count matters.
-/
structure Magnitude where
  digits : Nat
  power : Int
  full : Bool

namespace Magnitude

/-- One more digit of the whole part. -/
def whole (m : Magnitude) (c : Char) : Magnitude :=
  let next := m.digits * 10 + (c.toNat - '0'.toNat)
  if m.full || largestWord < next then { m with power := m.power + 1, full := true }
  else { m with digits := next }

/-- One more digit behind the point. -/
def part (m : Magnitude) (c : Char) : Magnitude :=
  let next := m.digits * 10 + (c.toNat - '0'.toNat)
  if m.full || largestWord < next then { m with full := true }
  else { m with digits := next, power := m.power - 1 }

/-- Whether the number stays finite. -/
def inRange (m : Magnitude) : Bool :=
  m.digits = 0 || m.power < 0 ||
    (m.power ≤ 308 &&
      match Binary64.ofDecimal false m.digits 0, Binary64.ofDecimal false 1 m.power with
      | .finite _ a e, .finite _ b f =>
          let (num, den) := Binary64.scale (a * b) 1 (e + f)
          Binary64.ofFraction false num den != .infinite false
      | _, _ => false)

end Magnitude

/-- The digits of an exponent behind its letter, as a power of ten, and what follows. -/
def exponent? (cs : List Char) : Option (Int × List Char) :=
  let (negative, digits) :=
    match cs with
    | '+' :: rest => (false, rest)
    | '-' :: rest => (true, rest)
    | _ => (false, cs)
  match digits.takeWhile Char.isDigit with
  | [] => none
  | run =>
      let n : Int := decimal run
      some (if negative then -n else n, digits.dropWhile Char.isDigit)

/-- The whole part of a number: a zero alone, or digits that begin with another one. -/
def wholePart? (cs : List Char) : Option (List Char × List Char) :=
  match cs with
  | '0' :: rest => if rest.head?.any Char.isDigit then none else some (['0'], rest)
  | _ =>
      match cs.takeWhile Char.isDigit with
      | [] => none
      | run => some (run, cs.dropWhile Char.isDigit)

/-- The digits behind a point, if there is one. -/
def fraction? (cs : List Char) : Option (List Char × List Char) :=
  match cs with
  | '.' :: rest =>
      match rest.takeWhile Char.isDigit with
      | [] => none
      | run => some (run, rest.dropWhile Char.isDigit)
  | _ => some ([], cs)

/-- What follows a number at the front of the text. -/
def number? (cs : List Char) : Option (List Char) := do
  let unsigned := match cs with
    | '-' :: rest => rest
    | _ => cs
  let (whole, rest) ← wholePart? unsigned
  let (part, rest) ← fraction? rest
  let m := part.foldl Magnitude.part (whole.foldl Magnitude.whole ⟨0, 0, false⟩)
  match rest with
  | e :: tail =>
      if e = 'e' ∨ e = 'E' then do
        let (power, rest) ← exponent? tail
        if { m with power := m.power + power }.inRange then some rest else none
      else if m.inRange then some rest else none
  | [] => if m.inRange then some rest else none

end LinkKeeper.Json
