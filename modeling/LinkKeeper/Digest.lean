/-!
# Content digests

Two files with the same SHA-256 digest are taken to have the same content. The message
is padded to blocks of 64 bytes; each block is stretched to 64 words, and the words are
mixed one by one into eight words of state.
-/

namespace LinkKeeper.Digest

/-- The words mixed in with each round: the first bits of the cube roots of the first 64 primes. -/
def roundWords : List UInt32 := [
  0x428a2f98, 0x71374491, 0xb5c0fbcf, 0xe9b5dba5, 0x3956c25b, 0x59f111f1, 0x923f82a4, 0xab1c5ed5,
  0xd807aa98, 0x12835b01, 0x243185be, 0x550c7dc3, 0x72be5d74, 0x80deb1fe, 0x9bdc06a7, 0xc19bf174,
  0xe49b69c1, 0xefbe4786, 0x0fc19dc6, 0x240ca1cc, 0x2de92c6f, 0x4a7484aa, 0x5cb0a9dc, 0x76f988da,
  0x983e5152, 0xa831c66d, 0xb00327c8, 0xbf597fc7, 0xc6e00bf3, 0xd5a79147, 0x06ca6351, 0x14292967,
  0x27b70a85, 0x2e1b2138, 0x4d2c6dfc, 0x53380d13, 0x650a7354, 0x766a0abb, 0x81c2c92e, 0x92722c85,
  0xa2bfe8a1, 0xa81a664b, 0xc24b8b70, 0xc76c51a3, 0xd192e819, 0xd6990624, 0xf40e3585, 0x106aa070,
  0x19a4c116, 0x1e376c08, 0x2748774c, 0x34b0bcb5, 0x391c0cb3, 0x4ed8aa4a, 0x5b9cca4f, 0x682e6ff3,
  0x748f82ee, 0x78a5636f, 0x84c87814, 0x8cc70208, 0x90befffa, 0xa4506ceb, 0xbef9a3f7, 0xc67178f2]

/-- Eight words of state. -/
structure State where
  a : UInt32
  b : UInt32
  c : UInt32
  d : UInt32
  e : UInt32
  f : UInt32
  g : UInt32
  h : UInt32

namespace State

/-- The state before the first block: the first bits of the square roots of the first 8 primes. -/
def initial : State :=
  ⟨0x6a09e667, 0xbb67ae85, 0x3c6ef372, 0xa54ff53a, 0x510e527f, 0x9b05688c, 0x1f83d9ab, 0x5be0cd19⟩

/-- Word by word. -/
def add (s t : State) : State :=
  ⟨s.a + t.a, s.b + t.b, s.c + t.c, s.d + t.d, s.e + t.e, s.f + t.f, s.g + t.g, s.h + t.h⟩

/-- The words in order. -/
def toList (s : State) : List UInt32 := [s.a, s.b, s.c, s.d, s.e, s.f, s.g, s.h]

end State

/-- Turns the bits of a word to the right. -/
def rotate (x : UInt32) (n : UInt32) : UInt32 := (x >>> n) ||| (x <<< (32 - n))

/-- One round, with a word of the message and the word of the round. -/
def round (s : State) (words : UInt32 × UInt32) : State :=
  let sum := rotate s.e 6 ^^^ rotate s.e 11 ^^^ rotate s.e 25
  let choice := (s.e &&& s.f) ^^^ (~~~s.e &&& s.g)
  let first := s.h + sum + choice + words.1 + words.2
  let turn := rotate s.a 2 ^^^ rotate s.a 13 ^^^ rotate s.a 22
  let majority := (s.a &&& s.b) ^^^ (s.a &&& s.c) ^^^ (s.b &&& s.c)
  ⟨first + (turn + majority), s.a, s.b, s.c, s.d + first, s.e, s.f, s.g⟩

/-- The byte at a place; beyond the end it is zero. -/
def byteAt (bytes : ByteArray) (i : Nat) : UInt32 := if h : i < bytes.size then bytes[i].toUInt32 else 0

/-- The four bytes at a place, most significant first. -/
def wordAt (bytes : ByteArray) (i : Nat) : UInt32 :=
  (byteAt bytes i <<< 24) ||| (byteAt bytes (i + 1) <<< 16)
    ||| (byteAt bytes (i + 2) <<< 8) ||| byteAt bytes (i + 3)

/-- One more word of the stretched block. -/
def stretch (words : Array UInt32) : Array UInt32 :=
  let back (n : Nat) : UInt32 := words.getD (words.size - n) 0
  let near := back 15
  let far := back 2
  words.push (back 16 + (rotate near 7 ^^^ rotate near 18 ^^^ (near >>> 3)) + back 7
    + (rotate far 17 ^^^ rotate far 19 ^^^ (far >>> 10)))

/-- The 64 words of the block that begins at a place. -/
def schedule (bytes : ByteArray) (start : Nat) : Array UInt32 :=
  let block := (Array.range 16).map fun i => wordAt bytes (start + 4 * i)
  Nat.repeat stretch 48 block

/-- Mixes the block that begins at a place into the state. -/
def mix (bytes : ByteArray) (s : State) (start : Nat) : State :=
  s.add (((schedule bytes start).toList.zip roundWords).foldl round s)

/-- The message, a one bit, zeros up to the last eight bytes of a block, and the length in bits. -/
def pad (bytes : ByteArray) : ByteArray :=
  let zeros := (119 - bytes.size % 64) % 64
  let length := (List.range 8).map fun i => UInt8.ofNat (bytes.size * 8 / Nat.pow 256 (7 - i))
  bytes ++ ⟨((0x80 :: List.replicate zeros 0) ++ length).toArray⟩

/-- The eight hexadecimal digits of a word. -/
def hexWord (x : UInt32) : List Char :=
  (List.range 8).map fun i => Nat.digitChar (x.toNat / Nat.pow 16 (7 - i) % 16)

/-- The SHA-256 digest of a content, as 64 hexadecimal digits. -/
def sha256 (bytes : ByteArray) : String :=
  let message := pad bytes
  let final := (List.range (message.size / 64)).foldl (fun s i => mix message s (64 * i)) .initial
  String.ofList (final.toList.flatMap hexWord)

end LinkKeeper.Digest
