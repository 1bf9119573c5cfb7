import LinkKeeper.Reference
import LinkKeeper.Text.Lines

/-!
# Edits

An edit puts a new link in place of an old one. What the new link is, is decided from
the reference, the file that holds it now, and what has moved; nothing is read from a
file for this. The new link keeps the look of the old one: its fragment, its separators,
whether it begins at the root, and a leading `./`.

Applying edits works on the lines of a text from the last edit to the first, so that an
edit never shifts the place of one that is still to come. Where the text has changed
since, an edit goes to the nearest occurrence of the old link on its line, or nowhere.
-/

namespace LinkKeeper

open Text

/-- A link to be replaced. -/
structure Edit where
  columnEnd : Nat
  columnStart : Nat
  /-- Line number, from one. -/
  line : Nat
  /-- The link that should stand there. -/
  expected : String
  replacement : String
  deriving DecidableEq, Repr

/-- What has moved, and from which file the link is read. -/
structure Move where
  /-- The file that holds the link now. -/
  host : String
  source : String
  target : String
  deriving DecidableEq, Repr

namespace Edit

/-! ## Planning -/

/-- Whether a link is a name without a separator. -/
def isBare (path : String) : Bool := !path.toList.any Path.isSeparator

/--
Whether a reference means a path: read from the root, as a name in the directory of its
file, or read from that directory.
-/
def means (r : Reference) (path : String) : Bool :=
  r.rooted == path
    || (isBare r.targetPath && r.targetPath == Path.baseName path
      && Path.parent path == Path.parent r.source)
    || r.resolved == path

/-- Whether a link begins at the directory of its file in so many words. -/
def beginsHere (path : String) : Bool :=
  "./".toList.isPrefixOf (replaceChar '\\' ['/'] path.toList)

/-- Puts the sign for the directory of the file in front, if the old link had it and the new one goes down. -/
def keepHere (written path : String) : String :=
  if beginsHere written && !path.startsWith "../" then "./" ++ path else path

/-- The new link from the directory of its file, before its looks are restored. -/
def retarget (written hostDir : String) (m : Move) : String :=
  if Path.isRootAbsolute written then "/" ++ m.target
  else if isBare written && Path.parent m.target == hostDir then Path.baseName m.target
  else if Path.normalize written = m.source then m.target
  else keepHere written (Path.relative hostDir m.target)

/-- Whether a text holds a backslash that is written twice. -/
def hasDoubled (path : String) : Bool := Text.contains ['\\', '\\'] path.toList

/-- Writes a link with the separators of another. Strings of JSON double their backslashes. -/
def withSeparators (written : String) (kind : ReferenceKind) (path : String) : String :=
  let separator :=
    if kind = .jsonValue ∧ hasDoubled written then ['\\', '\\']
    else if written.toList.contains '\\' then ['\\']
    else ['/']
  String.ofList (replaceChar '/' separator path.toList)

/-- The edit that puts a path in place of that of a reference, unless nothing changes. -/
def replacing? (r : Reference) (path : String) : Option Edit :=
  let replacement :=
    match (Path.splitFragment r.target).2 with
    | some fragment => path ++ "#" ++ fragment
    | none => path
  if replacement = r.target then none
  else some ⟨r.columnEnd, r.columnStart, r.line, r.target, replacement⟩

/-- The edit of a reference to something that has moved. -/
def inbound? (r : Reference) (m : Move) : Option Edit :=
  if means r m.source then
    let path := retarget r.targetPath (Path.parent m.host) m
    replacing? r (withSeparators r.targetPath r.kind path)
  else none

/--
The edit of a relative link in a file that has moved itself. Only links to what `isThere`
are kept up; those to the file itself follow as links to something that has moved.
-/
def outbound? (isThere : String → Bool) (r : Reference) (source target : String) : Option Edit :=
  let path := r.targetPath
  let resolved := Path.resolve (Path.parent source) path
  if path.isEmpty || Path.isRootAbsolute path || Path.parent source == Path.parent target
      || Path.escapes resolved || resolved == source || !isThere resolved then none
  else
    let way := keepHere path (Path.relative (Path.parent target) resolved)
    replacing? r (withSeparators path r.kind way)

/-! ## Applying -/

/-- Whether one edit comes before another when the last place comes first. -/
def laterFirst (a b : Edit) : Bool :=
  b.line < a.line || (b.line == a.line && b.columnStart ≤ a.columnStart)

/-- Whether two edits have one place. -/
def startsAt (a b : Edit) : Bool := a.line == b.line && a.columnStart == b.columnStart

/-- Of neighbours that have one place, keeps the first. -/
def distinct : List Edit → List Edit
  | [] => []
  | e :: rest =>
      match distinct rest with
      | f :: others => if startsAt e f then e :: others else e :: f :: others
      | [] => [e]

/-- Edits in the order in which they are applied, one for each place. -/
def ordered (edits : List Edit) : List Edit := distinct (edits.mergeSort laterFirst)

/-- The columns where a text occurs on a line, never overlapping; the characters to be passed over come first. -/
def occurrences (part : List Char) : Nat → Nat → List Char → List Nat
  | 0, column, [] => if part.isEmpty then [column] else []
  | _ + 1, _, [] => []
  | skip + 1, column, c :: cs => occurrences part skip (column + c.utf8Size) cs
  | 0, column, c :: cs =>
      if part.isPrefixOf (c :: cs) then
        column :: occurrences part (part.length - 1) (column + c.utf8Size) cs
      else occurrences part 0 (column + c.utf8Size) cs

/-- How far two columns are apart. -/
def distance (a b : Nat) : Nat := (a - b) + (b - a)

/-- The column nearest to another; of two, the one further left. -/
def nearest? (column : Nat) : List Nat → Option Nat
  | [] => none
  | c :: cs =>
      match nearest? column cs with
      | some d => if distance d column < distance c column then some d else some c
      | none => some c

/-- The column on a line where an edit goes. -/
def column? (e : Edit) (body : List Char) : Option Nat :=
  if slice? body e.columnStart e.columnEnd = some e.expected.toList then some e.columnStart
  else nearest? e.columnStart (occurrences e.expected.toList 0 0 body)

/-- Applies an edit to the part of a line before its ending. -/
def applyTo? (e : Edit) (body : List Char) : Option (List Char) := do
  let column ← e.column? body
  let (front, rest) ← cut? body column
  let (_, back) ← cut? rest e.expected.utf8ByteSize
  return front ++ e.replacement.toList ++ back

/-- Applies an edit to a line with its ending. -/
def applyToLine? (e : Edit) (line : List Char) : Option (List Char) :=
  let (body, ending) := splitEnding line
  (e.applyTo? body).map (· ++ ending)

/-- What became of the edits of a text. -/
structure Splice where
  lines : List (List Char)
  applied : Nat
  /-- Edits whose link is no longer on its line, last one first. -/
  stale : List Edit

/-- Applies one edit; one for a line that is not there counts for nothing. -/
def Splice.step (s : Splice) (e : Edit) : Splice :=
  match e.line with
  | 0 => s
  | index + 1 =>
      match s.lines[index]? with
      | none => s
      | some line =>
          match e.applyToLine? line with
          | some changed => { s with lines := s.lines.set index changed, applied := s.applied + 1 }
          | none => { s with stale := e :: s.stale }

/-- Applies edits to a text. -/
def splice (content : String) (edits : List Edit) : Splice :=
  (ordered edits).foldl Splice.step ⟨keepEnds content.toList, 0, []⟩

/-- The text after some edits. -/
def Splice.text (s : Splice) : String := String.ofList s.lines.flatten

end Edit

end LinkKeeper
