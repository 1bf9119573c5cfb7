import LinkKeeper.Keeper

/-!
# Keeping links valid

What a keeper does when the tree has changed. A move is answered by edits: to the links
that lead to what has moved, and to the relative links in what has moved. They are planned
from the index alone, and only then written. Whatever the writing did, the index is
brought back into step by reading the files anew whose records were touched.

A deletion edits nothing; it reports the references that now lead nowhere.
-/

namespace LinkKeeper

/-- What an operation did. -/
structure OperationReport where
  /-- References to something that is gone. -/
  broken : List Reference
  revision : RevisionReport
  deriving DecidableEq, Repr

/-- The report of an operation that had nothing to report. -/
def OperationReport.empty : OperationReport := ⟨[], .empty⟩

/-- Of references that start at one place, the first. -/
def firstAtPlaces : List Reference → List Reference
  | [] => []
  | r :: rest => r :: (firstAtPlaces rest).filter fun s => s.place != r.place

namespace Keeper

/-! ## Plans -/

/-- The paths under which references to a file may be filed: its own, without the first directory, and its name. -/
def spellings (path : String) : List String :=
  let stripped := match Text.splitFirst? '/' path.toList with
    | some (_, rest) => [String.ofList rest]
    | none => []
  path :: stripped ++ [Path.baseName path]

/-- Every reference that may mean a file, in the order of places. -/
def candidates (k : Keeper) (path : String) : List Reference :=
  firstAtPlaces (((spellings path).flatMap k.index.lookup).mergeSort Reference.precedes)

/-- Adds the edit of a reference to something that has moved. -/
def planInbound (m : String → Move) (plan : EditPlan) (r : Reference) : EditPlan :=
  let move := m r.source
  plan.add move.host (Edit.inbound? r move)

/-- Adds the edit of a relative link in a file that has moved. -/
def planOutbound (k : Keeper) (source target : String) (plan : EditPlan) (r : Reference) : EditPlan :=
  plan.add target (Edit.outbound? (fun path => k.tree.isThere (k.locate path)) r source target)

/-- The edits for a file that has moved. -/
def planFileMove (k : Keeper) (source target : String) : EditPlan :=
  let move (holder : String) : Move := ⟨if holder = source then target else holder, source, target⟩
  let plan := (k.candidates source).foldl (planInbound move) ∅
  if k.project.monitors target && k.project.settings.updatesMovedFiles then
    (k.index.recordsFrom source).foldl (k.planOutbound source target) plan
  else plan

/-- The edits for the references to one path in a directory that has moved. -/
def planMovedTarget (k : Keeper) (source target : String) (plan : EditPlan) (old : String) : EditPlan :=
  match Path.rebase? old source target with
  | none => plan
  | some new =>
      let move (holder : String) : Move :=
        ⟨(Path.rebase? holder source target).getD holder, old, new⟩
      (k.index.lookup old).foldl (planInbound move) plan

/-- The edits for the links that lead out of a directory that has moved, in one file of it. -/
def planMovedSource (k : Keeper) (source target : String) (plan : EditPlan) (file : String) : EditPlan :=
  match Path.rebase? file source target with
  | none => plan
  | some new =>
      ((k.index.recordsFrom file).filter fun r => !Path.isUnder source r.resolved).foldl
        (k.planOutbound file new) plan

/-- The edits for a directory that has moved. Files in it are named by where they are now. -/
def planDirectoryMove (k : Keeper) (source target : String) : EditPlan :=
  let plan := (k.index.targetsUnder source).foldl (k.planMovedTarget source target) ∅
  if k.project.settings.updatesMovedFiles then
    (k.index.sourcesUnder source).foldl (k.planMovedSource source target) plan
  else plan

/-- The edits that an operation would make. Only moves make any. -/
def preview (k : Keeper) : Operation → EditPlan
  | .moved source target => k.planFileMove source target
  | .directoryMoved source target => k.planDirectoryMove source target
  | .created _ | .deleted _ | .modified _ => ∅

/-! ## Steps -/

/-- Carries out a plan. -/
def revise (k : Keeper) (plan : EditPlan) : Keeper × RevisionReport :=
  let b := reviseAll k.project.root k.project.settings.writing k.tree plan
  ({ k with tree := b.tree, log := k.log ++ b.log }, b.report)

/-- Reads a file anew, if it is one that is read. One that cannot be read has no records. -/
def reread (k : Keeper) (path : String) : Keeper :=
  if !k.project.monitors path then k
  else
    match k.indexFile path with
    | (k, .ok _) => k
    | (k, .error fault) =>
        (k.warn "could not re-parse file"
          [("file", .shown path), ("error", .shown fault.message)]).forget path

/-- Files the records of one key under another, and adds the files they stand in to those gathered so far. -/
def refile (state : Keeper × List String) (move : String × String) : Keeper × List String :=
  let (k, files) := state
  let (index, sources) := k.index.rekey move.1 move.2
  ({ k with index }, files ++ sources)

/-! ## Operations -/

/-- A file that is new is read; a directory that is new is scanned. -/
def onCreated (k : Keeper) (path : String) : Keeper :=
  let event : List (String × FieldValue) := [("event", .text "file_created"), ("path", .text path)]
  if k.tree.isDirectory (k.locate path) then
    let (k, stats) := k.scanUnder path
    k.note (.make .info "directory created"
      (event ++ [("is_dir", .flag true), ("references", .number stats.references)]))
  else if !k.project.monitors path then k
  else
    match k.indexFile path with
    | (k, .ok filed) => k.note (.make .info "file created" (event ++ [("references", .number filed)]))
    | (k, .error fault) =>
        k.warn "could not parse new file" (event ++ [("error", .shown fault.message)])

/-- A file that has changed is read anew. -/
def onModified (k : Keeper) (path : String) : Keeper :=
  let event : List (String × FieldValue) := [("event", .text "file_modified"), ("path", .text path)]
  if !k.project.monitors path || !k.tree.isFile (k.locate path) then k
  else
    match k.indexFile path with
    | (k, .ok filed) =>
        k.note (.make .debug "file re-parsed" (event ++ [("references", .number filed)]))
    | (k, .error fault) =>
        (k.forget path).warn "could not re-parse file" (event ++ [("error", .shown fault.message)])

/-- The references to what has been deleted. -/
def dangling (k : Keeper) (path : String) : List Reference :=
  firstAtPlaces ((path :: k.index.targetsUnder path).flatMap k.index.lookup)

/-- How the log shows a reference. -/
def listing (r : Reference) : String := r.source ++ ":" ++ toString r.line ++ " -> " ++ r.target

/-- What was in the deleted place is forgotten, and what leads there is reported. -/
def onDeleted (k : Keeper) (path : String) : Keeper × OperationReport :=
  let gone := path :: (k.index.removeSource path).sourcesUnder path
  let removed := (gone.map k.index.countFrom).foldr (· + ·) 0
  let k := gone.foldl forget k
  let broken := k.dangling path
  let k :=
    if broken.isEmpty then k
    else k.warn "references point at a deleted path"
      [("event", .text "broken_references_found"), ("path", .text path),
        ("count", .number broken.length),
        ("references", .shown (Text.quoteList (broken.map listing)))]
  (k.note (.make .info "path deleted"
    [("event", .text "file_deleted"), ("path", .text path), ("records_removed", .number removed)]),
    ⟨broken, .empty⟩)

/-- What the log says about a move. -/
def moveEntry (event message source target : String) (counts : List (String × FieldValue)) :
    LogEntry :=
  .make .info message
    ([("event", .text event), ("from", .shown source), ("to", .shown target)] ++ counts)

/-- Follows a directory to where it has moved. -/
def onDirectoryMoved (k : Keeper) (source target : String) : Keeper × OperationReport :=
  let movedFiles := k.index.sourcesUnder source
  let (k, revision) := k.revise (k.planDirectoryMove source target)
  let moves := (k.index.keysUnder source).filterMap fun key =>
    (Path.rebase? key source target).map fun new => (key, new)
  let (k, stale) := moves.foldl refile (k, revision.files.map (·.1))
  let k := movedFiles.foldl forget k
  let (k, stats) := k.scanUnder target
  let elsewhere := (nameSet stale).filter fun file =>
    !Path.isUnder source file && !Path.isUnder target file
  let k := elsewhere.foldl reread k
  (k.note (moveEntry "directory_moved" "directory moved" source target
    [("links_updated", .number revision.total), ("files_rescanned", .number stats.filesParsed)]),
    ⟨[], revision⟩)

/-- Follows a file to where it has moved. What turns out to be a directory moves as one. -/
def onMoved (k : Keeper) (source target : String) : Keeper × OperationReport :=
  if k.tree.isDirectory (k.locate target) then k.onDirectoryMoved source target
  else
    let (k, revision) := k.revise (k.planFileMove source target)
    let (k, stale) := refile (k, revision.files.map (·.1)) (source, target)
    let k := (k.forget source).reread target
    let elsewhere := (nameSet stale).filter fun file => file != source && file != target
    let k := elsewhere.foldl reread k
    (k.note (moveEntry "file_moved" "file moved" source target
      [("links_updated", .number revision.total)]), ⟨[], revision⟩)

/-- Answers an operation. -/
def answer (k : Keeper) : Operation → Keeper × OperationReport
  | .created path => (k.onCreated path, .empty)
  | .deleted path => k.onDeleted path
  | .directoryMoved source target => k.onDirectoryMoved source target
  | .modified path => (k.onModified path, .empty)
  | .moved source target => k.onMoved source target

/-- Answers an operation, and says in each entry of the log which one it was. -/
def apply (k : Keeper) (op : Operation) : Keeper × OperationReport :=
  let (done, report) := ({ k with log := [] } : Keeper).answer op
  let done := done.note (.make .debug "operation completed"
    [("event", .text "operation_completed"), ("links_updated", .number report.revision.total),
      ("files_failed", .number report.revision.failures.length),
      ("broken", .number report.broken.length)])
  ({ done with log := k.log ++ done.log.map (.within op.kind op.path) }, report)

end Keeper

end LinkKeeper
