import LinkKeeper.Detector
import LinkKeeper.FileTree

/-!
# Notifications

What the system reports about files becomes events on paths of the tree. Reports about
what is ignored or lies elsewhere are dropped; a rename with one end there is a removal
or a creation.

The library replaces a file by renaming a temporary file onto it. The halves of such a
rename come one by one and share a cookie, so the cookie of a temporary file is
remembered: whatever arrives under it has merely been changed.
-/

namespace LinkKeeper

/-- Which ends of a rename a notification is about. -/
inductive RenameEnds where
  | any
  | both
  | source
  | other
  | target
  deriving DecidableEq, Repr

/-- What a notification reports. -/
inductive Change where
  | content
  | created (isFolder : Bool)
  | metadata
  | removed (isFolder : Bool)
  | renamed (ends : RenameEnds)
  /-- Nothing that matters here. -/
  | irrelevant
  deriving DecidableEq, Repr

/-- A notification, with the locations that it is about. -/
structure Notification where
  change : Change
  locations : List String
  cookie : Option Nat
  deriving DecidableEq, Repr

/-- The cookies of renames whose first half was a temporary file. -/
abbrev Suppressed := List Nat

/-- The place where notifications come in. -/
structure Ingress where
  project : Project
  /-- What is there now. -/
  tree : FileTree
  suppressed : Suppressed

namespace Ingress

/-- How many cookies are remembered. -/
def mostSuppressed : Nat := 1024

/-- The path of a location, unless it is the root, lies elsewhere, or is ignored. -/
def accept (g : Ingress) (location : String) : Option String :=
  (g.project.relative? location).filter fun path => !path.isEmpty && !g.project.ignores path

/-- Whether a location is that of a temporary file of the library. -/
def isTemporary (location : String) : Bool :=
  match (Path.components location).getLast? with
  | some name =>
      let name := String.ofList name
      name.startsWith Settings.temporaryStart && name.endsWith Settings.temporaryEnding
  | none => false

/-- Remembers a cookie. When there are too many, all others are forgotten. -/
def suppress (s : Suppressed) (cookie : Nat) : Suppressed :=
  let s := if mostSuppressed ≤ s.length then [] else s
  if s.contains cookie then s else cookie :: s

/-- Whether the cookie of a notification is remembered. -/
def isSuppressed (g : Ingress) (cookie : Option Nat) : Bool := cookie.any g.suppressed.contains

/-- What comes in from an ignored place is new, unless it is a temporary file that replaces another. -/
def arrival (g : Ingress) (source target path : String) : RawEvent :=
  if isTemporary source then .modified path else .created (g.tree.isDirectory target) path

/-- A rename with both ends. -/
def renamedBoth (g : Ingress) (source target : String) (cookie : Option Nat) : List RawEvent :=
  match g.accept source, g.accept target with
  | some path, some place => [.renamed path (g.tree.isDirectory target) place cookie]
  | some path, none => [.removed (g.tree.isDirectory target) path]
  | none, some place => [g.arrival source target place]
  | none, none => []

/-- The second half of a rename. -/
def renamedTo (g : Ingress) (location path : String) (cookie : Option Nat) : RawEvent :=
  .renamedTo (g.tree.isDirectory location) path cookie

/-- The events of a rename, and the cookies remembered then. -/
def rename (g : Ingress) (ends : RenameEnds) (locations : List String) (cookie : Option Nat) :
    List RawEvent × Suppressed :=
  match locations with
  | [] => ([], g.suppressed)
  | first :: rest =>
      match ends, rest, g.accept first with
      | .both, second :: _, _ =>
          if g.isSuppressed cookie then ([], g.suppressed.filter fun c => cookie != some c)
          else (g.renamedBoth first second cookie, g.suppressed)
      | .both, [], _ => ([], g.suppressed)
      | .source, _, some path => ([.renamedFrom path cookie], g.suppressed)
      | .source, _, none =>
          match cookie with
          | some c => ([], if isTemporary first then suppress g.suppressed c else g.suppressed)
          | none => ([], g.suppressed)
      | .target, _, some path =>
          if g.isSuppressed cookie then ([.modified path], g.suppressed)
          else ([g.renamedTo first path cookie], g.suppressed)
      | .any, _, some path | .other, _, some path =>
          if g.tree.isThere first then ([g.renamedTo first path cookie], g.suppressed)
          else ([.renamedFrom path cookie], g.suppressed)
      | _, _, none => ([], g.suppressed)

/-- The events of a notification, and the cookies remembered then. -/
def receive (g : Ingress) (n : Notification) : List RawEvent × Suppressed :=
  let accepted (make : String → String → RawEvent) (locations : List String) : List RawEvent :=
    locations.filterMap fun location => (g.accept location).map (make location)
  match n.change with
  | .created isFolder =>
      (accepted (fun location path => .created (isFolder || g.tree.isDirectory location) path)
        n.locations, g.suppressed)
  | .content =>
      (accepted (fun _ path => .modified path)
        (n.locations.filter fun location => !g.tree.isDirectory location), g.suppressed)
  | .removed isFolder => (accepted (fun _ path => .removed isFolder path) n.locations, g.suppressed)
  | .renamed ends => g.rename ends n.locations n.cookie
  | .metadata | .irrelevant => ([], g.suppressed)

end Ingress

end LinkKeeper
