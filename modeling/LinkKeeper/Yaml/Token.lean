/-!
# Tokens of YAML

A YAML stream is cut into tokens before its structure is read. Indentation does not
reach the structure as white space: the cutter turns it into tokens that open and close
block collections.

A `Place` is where the cutter stands. Rules about indentation look at its column, rules
about keys at its line and at how many characters have gone by.
-/

namespace LinkKeeper.Yaml

/-- A tag as its bytes, since an escape in it may spell any byte. -/
abbrev Tag := List UInt8

/-- The bytes of ASCII text. -/
def asciiBytes (cs : List Char) : Tag := cs.map fun c => UInt8.ofNat c.toNat

/-- A token of the stream; its end is the end of the list. -/
inductive Token where
  | versionDirective (major minor : Nat)
  | tagDirective (handle : List Char) (expansion : Tag)
  | documentStart
  | documentEnd
  | blockSequenceStart
  | blockMappingStart
  | blockEnd
  | flowSequenceStart
  | flowSequenceEnd
  | flowMappingStart
  | flowMappingEnd
  | blockEntry
  | flowEntry
  | key
  | value
  | alias (name : List Char)
  | anchor (name : List Char)
  | tag (handle : List Char) (suffix : Tag)
  | scalar (text : List Char) (plain : Bool)
  deriving DecidableEq, Repr

/-! ## Classes of characters -/

/-- A space or a tab. -/
def isBlank (c : Char) : Bool := c == ' ' || c == '\t'

/-- A line break. -/
def isBreak (c : Char) : Bool :=
  c == '\n' || c == '\r' || c == '\u0085' || c == '\u2028' || c == '\u2029'

/-- A blank, a break, or the end of the stream. -/
def endsWord : Option Char → Bool
  | some c => isBlank c || isBreak c
  | none => true

/-- A break or the end of the stream. -/
def endsLine : Option Char → Bool
  | some c => isBreak c
  | none => true

/-- A character of a handle, an anchor or a directive name. -/
def isNameChar (c : Char) : Bool := c.isAlphanum || c == '_' || c == '-'

/-- An indicator that parts the entries of a flow collection. -/
def isFlowIndicator (c : Char) : Bool := [',', '[', ']', '\x7b', '\x7d'].contains c

/-- A character that a stream may hold. -/
def isAllowed (c : Char) : Bool :=
  let n := c.toNat
  n == 9 || n == 10 || n == 13 || (0x20 ≤ n && n ≤ 0x7E) || n == 0x85
    || (0xA0 ≤ n && n ≤ 0xD7FF) || (0xE000 ≤ n && n ≤ 0xFFFD) || 0x10000 ≤ n

/-! ## Places -/

/-- Where the cutter stands. -/
structure Place where
  /-- Characters gone by. -/
  index : Nat
  line : Nat
  column : Nat
  rest : List Char

namespace Place

/-- The front of a stream. -/
def start (cs : List Char) : Place := ⟨0, 0, 0, cs⟩

/-- The character `n` places on. -/
def peek (at_ : Place) (n : Nat) : Option Char := at_.rest[n]?

/-- Passes over characters of the line. -/
def skip (at_ : Place) (n : Nat) : Place :=
  ⟨at_.index + n, at_.line, at_.column + n, at_.rest.drop n⟩

/-- Passes over a line break, if one is here. A carriage return and a line feed are one break. -/
def skipBreak (at_ : Place) : Place :=
  match at_.rest with
  | '\r' :: '\n' :: rest => ⟨at_.index + 2, at_.line + 1, 0, rest⟩
  | c :: rest => if isBreak c then ⟨at_.index + 1, at_.line + 1, 0, rest⟩ else at_
  | [] => at_

/-- The break that is here as it stands in a scalar: a line feed, unless it is a separator character. -/
def breakText (at_ : Place) : List Char :=
  match at_.rest with
  | c :: _ =>
      if c = '\u2028' ∨ c = '\u2029' then [c]
      else if isBreak c then ['\n'] else []
  | [] => []

/-- The characters of a class that stand here, and the place behind them. -/
def take (at_ : Place) (p : Char → Bool) : List Char × Place :=
  let run := at_.rest.takeWhile p
  (run, at_.skip run.length)

/-- Passes over characters of a class. -/
def skipAll (at_ : Place) (p : Char → Bool) : Place := (at_.take p).2

/-- Whether a break or the end of the stream is here. -/
def atLineEnd (at_ : Place) : Bool := endsLine (at_.peek 0)

/-- Passes over a comment, if one is here. -/
def skipComment (at_ : Place) : Place :=
  if at_.peek 0 = some '#' then at_.skipAll fun c => !isBreak c else at_

/-- Whether a line that begins or ends a document is here. -/
def atDocumentSign (at_ : Place) : Bool :=
  at_.column == 0 && (["---".toList, "...".toList].contains (at_.rest.take 3))
    && endsWord (at_.peek 3)

end Place

end LinkKeeper.Yaml
