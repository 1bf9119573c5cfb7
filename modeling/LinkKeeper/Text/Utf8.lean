/-!
# Reading bytes as text

A file is text when its bytes are UTF-8. A lenient reading puts the replacement
character in place of what is not: one for each longest beginning of a character that
is broken off, and one for each byte that can begin none.
-/

namespace LinkKeeper.Text

/-- The bytes as text, when they are UTF-8. -/
def decode? (bytes : ByteArray) : Option String := String.fromUTF8? bytes

/-- What stands for bytes that are no character. -/
def replacement : Char := '\uFFFD'

/-- The six low bits of a byte that continues a character, if it lies between the bounds. -/
def continuation? (low high : Nat) : Option UInt8 → Option Nat
  | some b => if low ≤ b.toNat ∧ b.toNat ≤ high then some (b.toNat - 0x80) else none
  | none => none

/-- Further bytes of a character, all of them plain continuations. Answers the code point or how far it got. -/
def continueWith : Nat → Nat → Nat → List UInt8 → Char × Nat
  | 0, code, taken, _ => (Char.ofNat code, taken)
  | more + 1, code, taken, bytes =>
      match continuation? 0x80 0xBF bytes.head? with
      | some bits => continueWith more (code * 64 + bits) (taken + 1) bytes.tail
      | none => (replacement, taken)

/-- A character of several bytes: the bounds of the second one depend on the first. -/
def severalBytes (high more : Nat) (low up : Nat) (bytes : List UInt8) : Char × Nat :=
  match continuation? low up bytes.head? with
  | some bits => continueWith (more - 1) (high * 64 + bits) 2 bytes.tail
  | none => (replacement, 1)

/-- The character at the front, and the number of bytes it stands for. -/
def firstChar (b : UInt8) (bytes : List UInt8) : Char × Nat :=
  let n := b.toNat
  if n < 0x80 then (Char.ofNat n, 1)
  else if n < 0xC2 then (replacement, 1)
  else if n < 0xE0 then severalBytes (n - 0xC0) 1 0x80 0xBF bytes
  else if n = 0xE0 then severalBytes 0 2 0xA0 0xBF bytes
  else if n = 0xED then severalBytes 0xD 2 0x80 0x9F bytes
  else if n < 0xF0 then severalBytes (n - 0xE0) 2 0x80 0xBF bytes
  else if n = 0xF0 then severalBytes 0 3 0x90 0xBF bytes
  else if n < 0xF4 then severalBytes (n - 0xF0) 3 0x80 0xBF bytes
  else if n = 0xF4 then severalBytes 4 3 0x80 0x8F bytes
  else (replacement, 1)

/-- The lenient reading, with the bytes still to be passed over and the characters read, last first. -/
def lenientFrom : Nat → List Char → List UInt8 → List Char
  | _, done, [] => done.reverse
  | skip + 1, done, _ :: bytes => lenientFrom skip done bytes
  | 0, done, b :: bytes =>
      let (c, taken) := firstChar b bytes
      lenientFrom (taken - 1) (c :: done) bytes

/-- The lenient reading. -/
def decodeLenient (bytes : ByteArray) : String := String.ofList (lenientFrom 0 [] bytes.toList)

end LinkKeeper.Text
