import LinkKeeper.Json.Document
import LinkKeeper.Links.Quoted
import LinkKeeper.Text.Lines

/-!
# Links in JSON

A string is a link when its key says that it names a file: `template`, `outputFile`,
`configPaths`. Keys themselves are never links, and neither are strings that stand
under no key.

Only strings that can be written back are reported: those without escapes, and those
whose only escapes are doubled backslashes.

The text is checked to be JSON first, and then walked from the front. The walk knows
nothing of the grammar: it looks for quotes, brackets, colons and commas, and keeps for
each bracket that is open the key that its strings stand under.
-/

namespace LinkKeeper.Links.Json

open Text LinkKeeper.Json

/-- Keys that name a file. -/
def fileKeys : List String := [
  "configfile", "datafile", "defaulttemplate", "destination", "file", "filename", "import",
  "include", "outputfile", "path", "script", "source", "src", "target", "template",
  "templatepath"]

/-- Words that make every key around them name a file. -/
def fileWords : List String := ["config", "file", "output", "path", "script", "template"]

/-- Whether a key names a file; case does not matter. -/
def isFileKey (key : List Char) : Bool :=
  let small := lower (String.ofList key)
  fileKeys.contains small || fileWords.any fun word => Text.contains word.toList small.toList

/-- Whether a string can be written back as it stands, or with its backslashes doubled. -/
def isWritable (l : Literal) : Bool :=
  l.raw == l.decoded || l.raw == replaceChar '\\' ['\\', '\\'] l.decoded

/-- Whether a string under a key is a link. -/
def isLink (rule : CandidateRule) : Value.Governed → Bool
  | (some key, l) => isFileKey key && rule.accepts l.decoded && isWritable l
  | (none, _) => false

/-- A bracket that is open. -/
inductive Frame where
  /-- A list, with the key that it stands under. -/
  | list (key : Option (List Char))
  /-- An object, with the key that was read last, and whether the next string is one. -/
  | object (expectsKey : Bool) (key : Option (List Char))
  deriving DecidableEq, Repr

/-- The key that a string inside a bracket stands under. -/
def Frame.key : Frame → Option (List Char)
  | list key => key
  | object _ key => key

/-- How far a walk has come, and what it has found. -/
structure Walk where
  offset : Nat
  line : Nat
  /-- The byte where the line begins. -/
  lineStart : Nat
  /-- The innermost bracket comes first. -/
  frames : List Frame
  /-- Last one first. -/
  found : List Reference

namespace Walk

/-- The front of a text. -/
def start : Walk := ⟨0, 1, 0, [], []⟩

/-- The key that a string stands under here. -/
def key (w : Walk) : Option (List Char) := w.frames.head?.bind Frame.key

/-- Says of the innermost bracket whether the next string is a key. A list has none. -/
def expectKey (w : Walk) (expects : Bool) : Walk :=
  match w.frames with
  | .object _ key :: frames => { w with frames := .object expects key :: frames }
  | _ => w

/-- Goes on past a character. -/
def pass (w : Walk) (c : Char) : Walk := { w with offset := w.offset + c.utf8Size }

/-- Takes note of a character outside of strings, and goes on past it. -/
def step (w : Walk) (c : Char) : Walk :=
  if c = '[' then { w with frames := .list w.key :: w.frames }.pass c
  else if c = '\x7b' then { w with frames := .object true none :: w.frames }.pass c
  else if c = ']' ∨ c = '\x7d' then { w with frames := w.frames.tail }.pass c
  else if c = ',' then (w.expectKey true).pass c
  else if c = ':' then (w.expectKey false).pass c
  else if c = '\n' then { w.pass c with line := w.line + 1, lineStart := w.offset + 1 }
  else w.pass c

/-- Takes note of a string: it is a key, a link, or neither. -/
def note (rule : CandidateRule) (source : String) (w : Walk) (l : Literal) : Walk :=
  match w.frames with
  | .object true _ :: frames => { w with frames := .object true (some l.decoded) :: frames }
  | _ =>
      if isLink rule (w.key, l) then
        let r := referTo source w.line .jsonValue ⟨l.start - w.lineStart, l.raw⟩
        { w with found := r :: w.found }
      else w

end Walk

/-- What stands before the closing quote. A character behind a backslash is passed over. -/
def untilQuote? : List Char → Option (List Char)
  | [] => none
  | '"' :: _ => some []
  | '\\' :: [] => none
  | '\\' :: c :: cs => (untilQuote? cs).map fun raw => '\\' :: c :: raw
  | c :: cs => (untilQuote? cs).map fun raw => c :: raw

/-- The string behind an opening quote. -/
def readLiteral? (offset : Nat) (cs : List Char) : Option Literal := do
  let raw ← untilQuote? cs
  match readString 0 [] [] (raw ++ ['"']) with
  | some (_, decoded, []) => some ⟨offset, raw, decoded⟩
  | _ => none

/--
Walks on, past so many characters first. A string is read as a whole, and then passed over.
-/
def walk (rule : CandidateRule) (source : String) : Nat → Walk → List Char → Option Walk
  | _, w, [] => some w
  | skip + 1, w, c :: cs => walk rule source skip (w.pass c) cs
  | 0, w, c :: cs =>
      if c = '"' then
        match readLiteral? (w.offset + 1) cs with
        | none => none
        | some l => walk rule source (l.raw.length + 1) ((w.note rule source l).pass c) cs
      else walk rule source 0 (w.step c) cs

/-- The references of a document, or nothing when the text is no JSON. -/
def references? (rule : CandidateRule) (source : String) (content : List Char) :
    Option (List Reference) := do
  let _ ← parse? content
  let w ← walk rule source 0 .start content
  return w.found.reverse

end LinkKeeper.Links.Json
