/-!
# Binary floating point, exactly

Durations are written as decimals and kept as the nearest binary64 number, the one
most programs would read. A finite number is held as `± mantissa · 2 ^ exponent`, so
that every question about it is a question about natural numbers: which of two
neighbours is nearer, which decimals read back as this number, how many nanoseconds
these seconds are.

The text of a number has the fewest digits that still read back as it, the nearest of
those, and no exponent.
-/

namespace LinkKeeper.Number

/-- The quotient rounded to the nearest integer, a half to the even one. -/
def roundDiv (num den : Nat) : Nat :=
  let q := num / den
  let twice := 2 * (num % den)
  if twice > den ∨ (twice = den ∧ q % 2 = 1) then q + 1 else q

/-- The rounded quotient is off by half a unit at most. -/
theorem roundDiv_near (num den : Nat) (h : 0 < den) :
    2 * num ≤ 2 * den * roundDiv num den + den ∧ 2 * den * roundDiv num den ≤ 2 * num + den := by
  have hdiv : den * (num / den) + num % den = num := Nat.div_add_mod num den
  have hlt : num % den < den := Nat.mod_lt num h
  have hmul : 2 * den * (num / den) = 2 * (den * (num / den)) := Nat.mul_assoc 2 den _
  unfold roundDiv
  simp only
  split
  · rw [Nat.mul_add, hmul, Nat.mul_one]
    omega
  · rw [hmul]
    omega

/-- A binary64 number. -/
inductive Binary64 where
  /-- `± mantissa · 2 ^ exponent`, with a mantissa below `2 ^ 53` that is as large as can be. -/
  | finite (negative : Bool) (mantissa : Nat) (exponent : Int)
  | infinite (negative : Bool)
  | notANumber
  deriving DecidableEq, Repr

namespace Binary64

/-- The least mantissa that is as large as can be, which is `2 ^ 52`; twice as much is too large. -/
def leastFull : Nat := 0x10000000000000

/-- The exponent of the smallest numbers. -/
def leastExponent : Int := -1074

/-- The exponent of the largest numbers. -/
def greatestExponent : Int := 971

/-- A fraction times a power of two, as numerator and denominator. -/
def scale (num den : Nat) (power : Int) : Nat × Nat :=
  (num * Nat.pow 2 power.toNat, den * Nat.pow 2 (-power).toNat)

/-- The nearest number to a fraction. -/
def ofFraction (negative : Bool) (num den : Nat) : Binary64 :=
  let guess : Int := max leastExponent ((num.log2 : Int) - den.log2 - 53)
  let fits (e : Int) : Bool := let (n, d) := scale num den (-e); n < 2 * leastFull * d
  let exponent := if fits guess then guess else if fits (guess + 1) then guess + 1 else guess + 2
  let (n, d) := scale num den (-exponent)
  let mantissa := roundDiv n d
  let (mantissa, exponent) :=
    if mantissa = 2 * leastFull then (leastFull, exponent + 1) else (mantissa, exponent)
  if exponent > greatestExponent then infinite negative else finite negative mantissa exponent

/-- The number of decimal digits. -/
def digitCount (n : Nat) : Nat := (Nat.toDigits 10 n).length

/-- Beyond this power of ten every decimal is infinite, or zero on the other side. -/
def decimalReach : Int := 400

/-- The nearest number to `± digits · 10 ^ power`. -/
def ofDecimal (negative : Bool) (digits : Nat) (power : Int) : Binary64 :=
  let magnitude := power + digitCount digits
  if digits = 0 ∨ magnitude < -decimalReach then finite negative 0 leastExponent
  else if magnitude > decimalReach then infinite negative
  else ofFraction negative (digits * Nat.pow 10 power.toNat)
    (Nat.pow 10 (-power).toNat)

/-- Whether a number stands for zero. -/
def isZero : Binary64 → Bool
  | finite _ 0 _ => true
  | _ => false

/-- Equality of values: the two zeros are one, and so are all that are no number. -/
def sameValue (a b : Binary64) : Bool := (a.isZero && b.isZero) || a == b

/-! ## The shortest text -/

/--
The decimals that read back as `mantissa · 2 ^ exponent` lie between two fractions over
one denominator; the ends belong to it when the mantissa is even. Answers lower end,
value, upper end and the denominator.
-/
def readBack (mantissa : Nat) (exponent : Int) : Nat × Nat × Nat × Nat :=
  let (unit, den) := scale 1 4 exponent
  let below := if mantissa = leastFull ∧ exponent > leastExponent then 1 else 2
  (unit * (4 * mantissa - below), unit * (4 * mantissa), unit * (4 * mantissa + 2), den)

/--
The point of the grid of step `10 ^ power` that is nearest to the value, if one of its two
neighbours on the grid reads back.
-/
def onGrid? (mantissa : Nat) (exponent power : Int) : Option Nat :=
  let (low, value, high, den) := readBack mantissa exponent
  let step := den * Nat.pow 10 power.toNat
  let fine := Nat.pow 10 (-power).toNat
  let inside (k : Nat) : Bool :=
    if mantissa % 2 = 0 then low * fine ≤ k * step ∧ k * step ≤ high * fine
    else low * fine < k * step ∧ k * step < high * fine
  let down := value * fine / step
  let nearest := roundDiv (value * fine) step
  let other := if nearest = down then down + 1 else down
  if inside nearest then some nearest else if inside other then some other else none

/-- The fewest digits that read back as the number, and the power of ten that scales them. -/
def shortest (mantissa : Nat) (exponent : Int) : Nat × Int :=
  let (_, value, _, den) := readBack mantissa exponent
  let top : Int := (digitCount (value / den) : Int) - (digitCount (den / value) : Int)
  let powers := (List.range 20).map fun (i : Nat) => top + 1 - (i : Int)
  let hit := powers.findSome? fun power =>
    (onGrid? mantissa exponent power).bind fun k => if k = 0 then none else some (k, power)
  hit.getD (value / den, 0)

/-- Digits scaled by a power of ten, written without an exponent. -/
def positional (digits : Nat) (power : Int) : String :=
  let text := Nat.toDigits 10 digits
  if 0 ≤ power then String.ofList (text ++ List.replicate power.toNat '0')
  else
    let places := (-power).toNat
    let padded := List.replicate (places + 1 - text.length) '0' ++ text
    let whole := padded.take (padded.length - places)
    let part := (padded.drop (padded.length - places)).reverse.dropWhile (· == '0')
    if part.isEmpty then String.ofList whole else String.ofList (whole ++ '.' :: part.reverse)

/-- The text of a number. -/
def toText : Binary64 → String
  | finite negative mantissa exponent =>
      let text :=
        if mantissa = 0 then "0"
        else let (digits, power) := shortest mantissa exponent; positional digits power
      if negative then "-" ++ text else text
  | infinite negative => if negative then "-inf" else "inf"
  | notANumber => "NaN"

end Binary64

end LinkKeeper.Number
