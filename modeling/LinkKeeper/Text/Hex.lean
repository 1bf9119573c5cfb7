/-!
# Digits

The values of decimal and hexadecimal digits, one at a time and in rows.
-/

namespace LinkKeeper.Text

/-- The value of a hexadecimal digit. -/
def hexDigit? (c : Char) : Option Nat :=
  if '0' ≤ c ∧ c ≤ '9' then some (c.toNat - '0'.toNat)
  else if 'a' ≤ c ∧ c ≤ 'f' then some (c.toNat - 'a'.toNat + 10)
  else if 'A' ≤ c ∧ c ≤ 'F' then some (c.toNat - 'A'.toNat + 10)
  else none

/-- The number that the first `length` characters spell in hexadecimal. -/
def hexNumber? (length : Nat) (cs : List Char) : Option Nat :=
  if cs.length < length then none
  else (cs.take length).foldlM (fun n c => (hexDigit? c).map (16 * n + ·)) 0

/-- The number that a row of digits of a base spells; a row has at least one digit. -/
def number? (base : Nat) (cs : List Char) : Option Nat :=
  if cs.isEmpty then none
  else cs.foldlM (fun n c => (hexDigit? c).bind fun d => if d < base then some (base * n + d) else none) 0

/-- The value of a row of decimal digits. -/
def decimal (digits : List Char) : Nat :=
  digits.foldl (fun n c => n * 10 + (c.toNat - '0'.toNat)) 0

/-- The character of a code point that is one. -/
def scalar? (n : Nat) : Option Char :=
  if (0xD800 ≤ n ∧ n ≤ 0xDFFF) ∨ 0x10FFFF < n then none else some (Char.ofNat n)

end LinkKeeper.Text
