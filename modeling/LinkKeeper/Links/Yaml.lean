import LinkKeeper.Links.Quoted
import LinkKeeper.Text.Lines
import LinkKeeper.Yaml.Value

/-!
# Links in YAML

A string that is a path is a link, wherever it stands among the values. The values no
longer know where in the text they came from, so each link is looked up there again: the
first place behind the links of the same text before it where it does not belong to a
longer word. A string that is written in some other way than it reads is not found, and
then it cannot be revised either.
-/

namespace LinkKeeper.Links.Yaml

open Text

/-- A place in a text: its byte offset, the character before it, and what follows. -/
structure Spot where
  offset : Nat
  before : Option Char
  rest : List Char

/-- Passes over some characters. -/
def Spot.skip (s : Spot) : Nat → Spot
  | 0 => s
  | n + 1 =>
      match s.rest with
      | c :: rest => Spot.skip ⟨s.offset + c.utf8Size, some c, rest⟩ n
      | [] => s

/-- Whether a word in front of a text is no part of a longer one, given the character before it. -/
def standsAlone (word : List Char) (before : Option Char) (text : List Char) : Bool :=
  !before.any isPathChar && !((text.drop word.length).head?).any isPathChar

/-- The first place where a word stands that is no part of a longer one. -/
def findWord (word : List Char) (offset : Nat) (before : Option Char) : List Char → Option Spot
  | [] => none
  | c :: cs =>
      if word.isPrefixOf (c :: cs) && standsAlone word before (c :: cs) then
        some ⟨offset, before, c :: cs⟩
      else findWord word (offset + c.utf8Size) (some c) cs

/-- Places a word in the text, given where each of the words before it was left behind. -/
def locate (content : List Char) (left : List (List Char × Spot)) (word : List Char) :
    Option (Nat × List (List Char × Spot)) :=
  let start := (left.lookup word).getD ⟨0, none, content⟩
  (findWord word start.offset start.before start.rest).map fun spot =>
    (spot.offset, (word, spot.skip word.length) :: left.filter (·.1 != word))

/-- Places words one after the other; those that are nowhere are left out. -/
def locateAll (content : List Char) : List (List Char × Spot) → List (List Char) → List Piece
  | _, [] => []
  | left, word :: words =>
      match locate content left word with
      | some (offset, left) => ⟨offset, word⟩ :: locateAll content left words
      | none => locateAll content left words

/-- The references of the documents, or nothing when the text is not well-formed. -/
def references? (rule : CandidateRule) (source : String) (content : List Char) :
    Option (List Reference) :=
  (Yaml.values? content).map fun values =>
    let starts := lineStarts content
    let candidates := (values.flatMap Yaml.Value.strings).filter rule.accepts
    (locateAll content [] candidates).map fun p =>
      let (line, column) := place starts p.start
      referTo source line .yamlScalar ⟨column, p.text⟩

end LinkKeeper.Links.Yaml
