import LinkKeeper.Links.Json
import LinkKeeper.Links.Markdown
import LinkKeeper.Links.Plain
import LinkKeeper.Links.Yaml

/-!
# The links of a file

The extension of a file says how its links are read. A structured file that is broken is
read as plain text, and the answer says so.

The references of a file come in the order of their places, and no two of them start at
one place.
-/

namespace LinkKeeper.Links

open Text

/-- The ways to read a file. -/
inductive Format where
  | json
  | markdown
  | plain
  | yaml
  deriving DecidableEq, Repr

/-- The format of a file; the case of its extension does not matter. -/
def Format.ofPath (path : String) : Format :=
  match splitLast? '.' (Path.baseName path).toList with
  | none => plain
  | some (_, extension) =>
      match lower (String.ofList extension) with
      | "json" => json
      | "markdown" | "md" => markdown
      | "yaml" | "yml" => yaml
      | _ => plain

/-- The references of each line. -/
def perLine (find : Nat → List Char → List Reference) (content : List Char) : List Reference :=
  (numbered content).flatMap fun (number, line) => find number line

/-- The references of a file in a format, or nothing when it is not in that format. -/
def Format.references? (format : Format) (rule : CandidateRule) (source : String)
    (content : List Char) : Option (List Reference) :=
  match format with
  | json => Json.references? rule source content
  | markdown => some (perLine (Markdown.lineReferences rule source) content)
  | plain => some (perLine (Plain.lineReferences rule source) content)
  | yaml => Yaml.references? rule source content

/-- Whether one reference starts at or before another of the same file. -/
def startsBefore (a b : Reference) : Bool :=
  a.line < b.line || (a.line == b.line && a.columnStart ≤ b.columnStart)

/-- Whether two references of a file start at one place. -/
def startsAt (a b : Reference) : Bool := a.line == b.line && a.columnStart == b.columnStart

/-- Of neighbours that start at one place, keeps the first. -/
def distinct : List Reference → List Reference
  | [] => []
  | r :: rest =>
      match distinct rest with
      | s :: others => if startsAt r s then r :: others else r :: s :: others
      | [] => [r]

/-- What was found in a file. -/
structure Found where
  references : List Reference
  /-- Whether the file is broken and was read as plain text. -/
  fallback : Bool
  deriving DecidableEq, Repr

/-- The references of a file. -/
def find (rule : CandidateRule) (source content : String) : Found :=
  let cs := content.toList
  let tidy (references : List Reference) := distinct (references.mergeSort startsBefore)
  match (Format.ofPath source).references? rule source cs with
  | some references => ⟨tidy references, false⟩
  | none => ⟨tidy (perLine (Plain.lineReferences rule source) cs), true⟩

end LinkKeeper.Links
