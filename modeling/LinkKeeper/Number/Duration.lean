import LinkKeeper.Number.Binary64

/-!
# Durations

A duration is a number of nanoseconds. Seconds become nanoseconds by rounding to the
nearest, a half to the even one; seconds beyond 64 bits have no duration.
-/

namespace LinkKeeper.Number

/-- Nanoseconds in a second. -/
def nanosPerSecond : Nat := 1000000000

/-- Nanoseconds in a millisecond, the unit of the clock. -/
def nanosPerMilli : Nat := 1000000

namespace Binary64

/-- A finite number above zero. -/
def isPositive : Binary64 → Bool
  | finite false mantissa _ => mantissa != 0
  | _ => false

/-- The duration of a number of seconds. -/
def toNanos? : Binary64 → Option Nat
  | finite false mantissa exponent =>
      let (num, den) := scale mantissa 1 exponent
      if num < 0x10000000000000000 * den then some (roundDiv (num * nanosPerSecond) den) else none
  | _ => none

end Binary64

end LinkKeeper.Number
