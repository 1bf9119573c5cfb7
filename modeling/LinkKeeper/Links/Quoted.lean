import LinkKeeper.Candidate
import LinkKeeper.Reference
import LinkKeeper.Text.Span

/-!
# Paths in quotes

Prose and programs put paths between single or double quotes. A quote right after a
letter or digit is an apostrophe and opens nothing. A pair of quotes whose inside is
no path is no pair: its closing quote may still open the next one, so that a stray
quote never hides a later path.
-/

namespace LinkKeeper.Links

open Text

/-- The two quote characters. -/
def isQuote (c : Char) : Bool := c == '"' || c == '\''

/-- Recognises an opening quote, a path, and the next quote of the same kind. -/
def quotedPath (rule : CandidateRule) : Recogniser (List Char) := fun before cs =>
  match cs with
  | [] => none
  | quote :: rest =>
      if isQuote quote && !before.any Char.isAlphanum then
        match splitFirst? quote rest with
        | some (inside, _) => if rule.accepts inside then some (inside, inside.length + 2) else none
        | none => none
      else none

/-- The quoted paths of a line, without their quotes. -/
def quotedPaths (rule : CandidateRule) (line : List Char) : List Piece :=
  (matchesOf (quotedPath rule) line).map fun (column, inside) => ⟨column + 1, inside⟩

/-- Punctuation that may stand before a path in prose. -/
def isLeading (c : Char) : Bool := "([<*_\x60\"'".toList.contains c

/-- Punctuation that may stand behind a path in prose. -/
def isTrailing (c : Char) : Bool := ")]>,.;:!?*_\x60\"'".toList.contains c

/-- The words of a line that are paths once the punctuation around them is off. -/
def barePaths (rule : CandidateRule) (line : List Char) : List Piece :=
  ((words line).map (Piece.strip isLeading isTrailing)).filter fun p => rule.accepts p.text

/-- The reference for a piece of a line. -/
def referTo (source : String) (line : Nat) (kind : ReferenceKind) (p : Piece) : Reference :=
  { anchorText := none, columnEnd := p.stop, columnStart := p.start, kind, line, source,
    target := String.ofList p.text }

end LinkKeeper.Links
