import LinkKeeper.Session

/-!
# The difference between two trees

When a tree of files has become another, the way from one to the other is a list of
steps. What is gone and is found again at a new place has moved: a directory with all
that was in it, a file with the same content or the same name, a link to the same target.
The steps serve in both directions: they change a disk as a tree has changed, and they
tell a session how a disk has changed.
-/

namespace LinkKeeper

/-- A step from one tree to another. -/
inductive Step where
  | makeDirectory (place : Spine)
  | move (source target : Spine)
  | remove (place : Spine) (isDir : Bool)
  | write (place : Spine) (content : ByteArray) (isNew : Bool)

namespace FileTree

/-- The places of one tree where the other has nothing, or something of another kind. -/
def without (t other : FileTree) : List (Spine × Entry) :=
  t.entries.toList.filter fun (place, entry) =>
    match entry, other.entries[place]? with
    | .directory, some .directory => false
    | .file _ _, some (.file _ _) => false
    | .link a, some (.link b) => a != b
    | _, _ => true

/-- The first of some places and those that lie in none of them, in order. -/
def topmost : List (Spine × Entry) → List (Spine × Entry)
  | [] => []
  | (place, entry) :: rest =>
      (place, entry) :: (topmost rest).filter fun (other, _) => !place.isPrefixOf other

/-- Whether an entry that is gone may be the same as one that is new. -/
def isSame (old new : FileTree) (a b : Spine × Entry) : Bool :=
  let sameName := a.1.getLast? == b.1.getLast?
  match a.2, b.2 with
  | .directory, .directory =>
      let inside := (old.below a.1).map (·.1)
      (sameName || !inside.isEmpty) && inside.all fun rest => new.entries.contains (b.1 ++ rest)
  | .file content _, .file other _ => sameName || content == other
  | .link target, .link other => target == other
  | _, _ => false

/-- The directories above a place that are not there, the highest first. -/
def missingAbove (t : FileTree) (place : Spine) : List Spine :=
  ((List.range (place.length - 1)).map fun n => place.take (n + 1)).filter
    fun dir => !t.entries.contains dir

/-- Follows one entry that is gone to where it is now, if it is anywhere. -/
def follow (new : FileTree) (state : FileTree × List Step) (gone : Spine × Entry) :
    FileTree × List Step :=
  let (old, steps) := state
  match (new.without old).find? (isSame old new gone) with
  | some (place, _) =>
      let above := old.missingAbove place
      let ready := above.foldl (fun t dir => t.put dir .directory) old
      (ready.graft gone.1 place, steps ++ above.map .makeDirectory ++ [.move gone.1 place])
  | none => (old.prune gone.1, steps ++ [.remove gone.1 gone.2.isDirectory])

/-- The step that brings one entry about, when everything that is gone has been followed. -/
def bring? (old : FileTree) (wanted : Spine × Entry) : Option Step :=
  match wanted.2, old.entries[wanted.1]? with
  | .directory, none => some (.makeDirectory wanted.1)
  | .file content _, some (.file other _) =>
      if content == other then none else some (.write wanted.1 content false)
  | .file content _, none => some (.write wanted.1 content true)
  | _, _ => none

/-- The steps from one tree to another. -/
def steps (old new : FileTree) : List Step :=
  let (old, moves) := (topmost (old.without new)).foldl (follow new) (old, [])
  moves ++ new.entries.toList.filterMap old.bring?

end FileTree

/-- The notifications that a system sends about a step. -/
def Notification.ofStep : Step → List Notification
  | .makeDirectory place => [⟨.created true, [FileTree.location place], none⟩]
  | .move source target =>
      [⟨.renamed .both, [FileTree.location source, FileTree.location target], none⟩]
  | .remove place isDir => [⟨.removed isDir, [FileTree.location place], none⟩]
  | .write place _ isNew =>
      let changed : Notification := ⟨.content, [FileTree.location place], none⟩
      if isNew then [⟨.created false, [FileTree.location place], none⟩, changed] else [changed]

/-- Answers all that has happened to a tree since the session last saw it, and the deletions that are due. -/
def Session.catchUp (s : Session) (tree : FileTree) (now : Nat) : Session :=
  let reports := (s.keeper.tree.steps tree).flatMap Notification.ofStep
  (reports.foldl (fun s n => (s.notify n now).1) (s.withTree tree)).settle now

end LinkKeeper
