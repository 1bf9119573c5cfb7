import LinkKeeper.Links.Quoted
import LinkKeeper.Text.Word

/-!
# Links in any other text

Where no format is known, four ways of writing a path are tried on each line, the most
telling first: behind an import keyword, in quotes, in a comment, and as a bare run of
path characters with a separator in it. What one of them has claimed the later ones
leave alone.

Bare runs are mostly noise on a line that calls a method, so such lines have none.
-/

namespace LinkKeeper.Links.Plain

open Text

/-- Keywords that name a file. -/
def importWords : List String := ["import", "require", "include", "from"]

/-- Recognises a keyword, blanks and parentheses, and a text in quotes. -/
def importPath : Recogniser Piece := fun before cs =>
  if before.any isWord then none
  else do
    let word ← importWords.find? fun word => word.toList.isPrefixOf cs
    let after := cs.drop word.length
    if after.head?.any isWord then none
    else
      let isGap := fun c => isBlank c || c == '('
      let gap := after.takeWhile isGap
      match after.dropWhile isGap with
      | quote :: rest =>
          let inside := rest.takeWhile fun c => !isQuote c
          if isQuote quote && !inside.isEmpty && inside.length < rest.length then
            some (⟨width word.toList + width gap + 1, inside⟩,
              word.length + gap.length + inside.length + 2)
          else none
      | [] => none

/-- The characters of a comment sign at the front of the text. -/
def commentSign? (cs : List Char) : Option Nat :=
  match cs with
  | '#' :: rest => some (1 + (rest.takeWhile (· == '#')).length)
  | '/' :: '/' :: rest => some (2 + (rest.takeWhile (· == '/')).length)
  | '-' :: '-' :: _ => some 2
  | ';' :: rest => some (1 + (rest.takeWhile (· == ';')).length)
  | '/' :: '*' :: rest => some (2 + (rest.takeWhile (· == '*')).length)
  | '<' :: '!' :: '-' :: '-' :: _ => some 4
  | r :: e :: m :: rest =>
      if [r, e, m].map Char.toLower == ['r', 'e', 'm'] && !rest.head?.any isWord then some 3
      else none
  | _ => none

/-- Recognises a comment sign at the front of a line or behind a blank. -/
def commentStart : Recogniser Unit := fun before cs =>
  let behindBlank :=
    match cs with
    | c :: rest => if isBlank c then (commentSign? rest).map (· + 1) else none
    | [] => none
  let length? := if before.isNone then (commentSign? cs).orElse fun _ => behindBlank else behindBlank
  length?.map fun length => ((), length)

/-- What follows the first comment sign of a line. -/
def comment? (line : List Char) : Option Piece :=
  let rec go (column : Nat) (before : Option Char) : List Char → Option Piece
    | [] => none
    | c :: cs =>
        match commentStart before (c :: cs) with
        | some (_, length) =>
            some ⟨column + width ((c :: cs).take length), (c :: cs).drop length⟩
        | none => go (column + c.utf8Size) (some c) cs
  go 0 none line

/-- The first character of a name. -/
def startsName (c : Char) : Bool := c.isAlpha || c == '_'

/-- A further character of a name. -/
def continuesName (c : Char) : Bool := c.isAlphanum || c == '_'

/-- Whether the text begins with a name, a dot, a name, and an opening parenthesis. -/
def beginsCall (cs : List Char) : Bool :=
  cs.head?.any startsName &&
    match cs.dropWhile continuesName with
    | '.' :: rest =>
        rest.head?.any startsName && (rest.dropWhile continuesName).head? == some '('
    | _ => false

/-- Whether a line calls a method. -/
def callsMethod : List Char → Bool
  | [] => false
  | c :: cs => beginsCall (c :: cs) || callsMethod cs

/-- The runs of path characters that are paths and hold a separator; dots at their ends do not count. -/
def pathRuns (rule : CandidateRule) (line : List Char) : List Piece :=
  ((runs isPathChar line).map (Piece.strip (fun _ => false) (· == '.'))).filter fun p =>
    p.text.any Path.isSeparator && rule.accepts p.text

/-- The references of one line. -/
def lineReferences (rule : CandidateRule) (source : String) (number : Nat) (line : List Char) :
    List Reference :=
  let imported := ((matchesOf importPath line).map fun (column, p) => p.shift column).filter
    fun p => rule.accepts p.text
  let claimed := imported.map Piece.span
  let quoted := unclaimed claimed (quotedPaths rule line)
  let claimed := claimed ++ quoted.map Piece.span
  let commented :=
    match comment? line with
    | none => []
    | some body => unclaimed claimed ((barePaths rule body.text).map (Piece.shift body.start))
  let claimed := claimed ++ commented.map Piece.span
  let bare :=
    if callsMethod line then [] else unclaimed claimed (pathRuns rule line)
  imported.map (referTo source number .genericImport)
    ++ quoted.map (referTo source number .genericQuoted)
    ++ commented.map (referTo source number .genericComment)
    ++ bare.map (referTo source number .genericUnquoted)

end LinkKeeper.Links.Plain
