import LinkKeeper.Text.Basic

/-!
# Paths inside a project

A path names a place below the project root and is written with forward slashes,
without a leading slash, and with `.` and `..` resolved as far as they can be. The
root itself is the empty path. Links are written more freely: with backslashes, with
steps up and down, or with a leading slash that means the root.

`normalize` brings every spelling into the one form. It reads the segments from the
left and keeps a stack: a name is pushed, `..` takes a name off, and a `..` that finds
no name to take off stays, so that a path which climbs out of the root can be told
apart from one that does not.
-/

namespace LinkKeeper.Path

open Text

/-- The two characters that part the segments of a link. -/
def isSeparator (c : Char) : Bool := c == '/' || c == '\\'

/-- The segment for the directory itself. -/
def here : List Char := ['.']

/-- The segment for the directory above. -/
def above : List Char := ['.', '.']

/-- One segment onto the stack, whose top is the segment read last. -/
def push (stack : List (List Char)) (segment : List Char) : List (List Char) :=
  if segment = [] ∨ segment = here then stack
  else if segment = above then
    match stack with
    | top :: rest => if top = above then above :: stack else rest
    | [] => [above]
  else segment :: stack

/-- The segments with `.` dropped and `..` taken back where possible. -/
def collapse (segments : List (List Char)) : List (List Char) :=
  (segments.foldl push []).reverse

/-- The collapsed segments of a spelling. -/
def segments (path : String) : List (List Char) :=
  collapse (splitWhere isSeparator path.toList)

/-- Segments written with forward slashes between them. -/
def join (segments : List (List Char)) : String :=
  String.ofList (['/'].intercalate segments)

/-- The one form of a path. -/
def normalize (path : String) : String := join (segments path)

/-- The last segment. -/
def baseName (path : String) : String :=
  match splitLast? '/' path.toList with
  | some (_, name) => String.ofList name
  | none => path

/-- All but the last segment; empty at the root. -/
def parent (path : String) : String :=
  match splitLast? '/' path.toList with
  | some (dir, _) => String.ofList dir
  | none => ""

/-- What follows `dir/` in the path. -/
def below? (dir path : String) : Option String :=
  match dir.toList.isPrefixOf? path.toList with
  | some ('/' :: rest) => some (String.ofList rest)
  | _ => none

/-- Whether the path is the directory or lies below it; everything lies below the root. -/
def isUnder (dir path : String) : Bool :=
  dir.isEmpty || path == dir || (below? dir path).isSome

/-- Whether a link is written from the root. -/
def isRootAbsolute (raw : String) : Bool :=
  match raw.toList with
  | c :: _ => isSeparator c
  | [] => false

/-- The length of the common beginning of two lists of segments. -/
def commonLength : List (List Char) → List (List Char) → Nat
  | a :: as, b :: bs => if a = b then commonLength as bs + 1 else 0
  | _, _ => 0

/--
The shortest way from the directory `dir` to `target`: up to the deepest directory
that holds both, then down. From a place to itself it is `.`.
-/
def relative (dir target : String) : String :=
  let start := segments dir
  let goal := segments target
  let common := commonLength start goal
  match List.replicate (start.length - common) above ++ goal.drop common with
  | [] => "."
  | way => join way

/-- Where a link written in a file of the directory `dir` leads. -/
def resolve (dir raw : String) : String :=
  if isRootAbsolute raw || dir.isEmpty then normalize raw
  else normalize (dir ++ "/" ++ raw)

/-- Whether a path in normal form climbs out of the root. -/
def escapes (path : String) : Bool :=
  path == ".." || "../".toList.isPrefixOf path.toList

/-- The path part of a link, and the fragment after the first `#`. -/
def splitFragment (raw : String) : String × Option String :=
  match splitFirst? '#' raw.toList with
  | some (path, fragment) => (String.ofList path, some (String.ofList fragment))
  | none => (raw, none)

/-- The same place after `source` has become `target`: `path` moves along if it is `source` or below it. -/
def rebase? (path source target : String) : Option String :=
  if path == source then some target
  else (below? source path).map fun rest => if target.isEmpty then rest else target ++ "/" ++ rest

/-! ## Absolute locations -/

/--
The components of a location: a leading slash is one, a `.` counts only in front, and
empty ones do not count.
-/
def components (location : String) : List (List Char) :=
  match splitWhere (· == '/') location.toList with
  | [] => []
  | first :: rest =>
      let named := rest.filter fun s => s ≠ [] ∧ s ≠ here
      if first = [] then (if location.isEmpty then named else ['/'] :: named)
      else first :: named

/-- The path of an absolute location below `root`, unless it lies elsewhere or climbs out. -/
def fromRoot? (root location : String) : Option String := do
  let rest ← (components root).isPrefixOf? (components location)
  let path := normalize (join rest)
  if escapes path then none else some path

/-- Whether a location is written from the top of the file system. -/
def isAbsolute (location : String) : Bool := "/".toList.isPrefixOf location.toList

/-- The location of `path` seen from `root`; an absolute one stands for itself. -/
def locate (root path : String) : String :=
  if isAbsolute path || root.isEmpty then path
  else if root.toList.getLast? == some '/' then root ++ path
  else root ++ "/" ++ path

end LinkKeeper.Path
