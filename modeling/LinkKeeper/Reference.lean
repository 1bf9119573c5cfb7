import LinkKeeper.Path

/-!
# References and operations

A reference is one occurrence of a link in a file: what is written, and the bytes of
the line it takes. An operation is a change of the tree as the library understands it,
after moves have been told apart from deletions and creations.
-/

namespace LinkKeeper

/-- The way a link is written. -/
inductive ReferenceKind where
  | genericComment
  | genericImport
  | genericQuoted
  | genericUnquoted
  | jsonValue
  | markdownInline
  | markdownQuoted
  | markdownStandalone
  | yamlScalar
  deriving DecidableEq, Repr

namespace ReferenceKind

/-- The name a listing shows. -/
def label : ReferenceKind → String
  | genericComment => "generic-comment"
  | genericImport => "generic-import"
  | genericQuoted => "generic-quoted"
  | genericUnquoted => "generic-unquoted"
  | jsonValue => "json-value"
  | markdownInline => "markdown-inline"
  | markdownQuoted => "markdown-quoted"
  | markdownStandalone => "markdown-standalone"
  | yamlScalar => "yaml-scalar"

/-- Every kind. -/
def all : List ReferenceKind :=
  [genericComment, genericImport, genericQuoted, genericUnquoted, jsonValue, markdownInline,
    markdownQuoted, markdownStandalone, yamlScalar]

/-- The kind a label names. -/
def ofLabel? (label : String) : Option ReferenceKind := all.find? (·.label == label)

/-- Labels tell the kinds apart. -/
theorem ofLabel?_label (kind : ReferenceKind) : ofLabel? kind.label = some kind := by
  cases kind <;> decide

end ReferenceKind

/-- One occurrence of a link. -/
structure Reference where
  /-- The visible text of a link that has one. -/
  anchorText : Option String
  /-- The column after the last byte of the target. -/
  columnEnd : Nat
  /-- The column of the first byte of the target. -/
  columnStart : Nat
  kind : ReferenceKind
  /-- Line number, from one. -/
  line : Nat
  /-- The file that holds the link. -/
  source : String
  /-- The link as it is written, fragment included. -/
  target : String
  deriving DecidableEq, Repr

namespace Reference

/-- The link without its fragment. -/
def targetPath (r : Reference) : String := (Path.splitFragment r.target).1

/-- Where the link leads when it is read from the directory of its file. -/
def resolved (r : Reference) : String := Path.resolve (Path.parent r.source) r.targetPath

/-- Where the link leads when it is read from the root. -/
def rooted (r : Reference) : String := Path.normalize r.targetPath

/-- The place a reference takes: no two references of a tree share it. -/
def place (r : Reference) : String × Nat × Nat := (r.source, r.line, r.columnStart)

/-- Order of places: file, line, column. -/
def precedes (a b : Reference) : Bool :=
  if a.source = b.source then
    if a.line = b.line then a.columnStart ≤ b.columnStart else a.line < b.line
  else a.source < b.source

end Reference

/-- A change of the tree. -/
inductive Operation where
  | created (path : String)
  | deleted (path : String)
  | directoryMoved (source target : String)
  | modified (path : String)
  | moved (source target : String)
  deriving DecidableEq, Repr

namespace Operation

/-- The word for the kind of change. -/
def kind : Operation → String
  | created _ => "created"
  | deleted _ => "deleted"
  | directoryMoved _ _ => "directory_moved"
  | modified _ => "modified"
  | moved _ _ => "moved"

/-- The path that the change is about; of a move, where it went. -/
def path : Operation → String
  | created path | deleted path | modified path => path
  | directoryMoved _ target | moved _ target => target

/-- One line that says what changed. -/
def describe (op : Operation) : String :=
  match op with
  | created path | deleted path | modified path => op.kind ++ " " ++ path
  | directoryMoved source target | moved source target =>
      op.kind ++ " " ++ source ++ " -> " ++ target

end Operation

end LinkKeeper
