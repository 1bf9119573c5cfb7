import LinkKeeper.Session

/-!
# Watching without a watcher

A rehearsal plays what happens in a watched tree: it changes the tree, reports the change
in the notifications that a system would send, and lets the session answer. The files
that the session revises are reported in turn, as renames of temporary files.

Time is made up. Every notification takes a millisecond; waiting for something that has
not happened yet takes as long as a removal waits.
-/

namespace LinkKeeper

/-- Something that happens in a watched tree. -/
inductive Disturbance where
  | remove (path : String)
  | rename (source target : String)
  | write (path : String)
  deriving DecidableEq, Repr

/-- A session, the time, and the next unused cookie. -/
structure Rehearsal where
  session : Session
  now : Nat
  cookie : Nat

namespace Rehearsal

/-- A notification about one location. -/
def about (change : Change) (location : String) : Notification := ⟨change, [location], none⟩

/-- The directories above a location that are not there yet, the highest first. -/
def missingAbove (t : FileTree) (location : String) : List String :=
  let names := (Path.components location).map String.ofList |>.drop 1
  ((List.range (names.length - 1)).map fun n => FileTree.location (names.take (n + 1))).filter
    fun dir => !t.isThere dir

/-- A rename in its three reports: the halves, and then both ends. -/
def renameReports (source target : String) (cookie : Nat) : List Notification := [
  ⟨.renamed .source, [source], some cookie⟩,
  ⟨.renamed .target, [target], some cookie⟩,
  ⟨.renamed .both, [source, target], some cookie⟩]

/-- What a system says about a removal: what lies below goes first. -/
def removeReports (t : FileTree) (location : String) : List Notification :=
  match t.entry false location with
  | .ok (spine, .directory) =>
      let inside := (t.below spine).reverse.map fun (rest, entry) =>
        about (.removed entry.isDirectory) (FileTree.location (spine ++ rest))
      inside ++ [about (.removed true) location]
  | .ok _ => [about (.removed false) location]
  | .error _ => []

/-- What a system says about something that happens; the tree is the one before it. -/
def reports (k : Keeper) (cookie : Nat) : Disturbance → List Notification
  | .remove path => removeReports k.tree (k.locate path)
  | .rename source target =>
      (missingAbove k.tree (k.locate target)).map (about (.created true))
        ++ renameReports (k.locate source) (k.locate target) cookie
  | .write path =>
      let location := k.locate path
      (missingAbove k.tree location).map (about (.created true))
        ++ (if k.tree.isThere location then [] else [about (.created false) location])
        ++ [about .content location]

/-- A temporary file beside a file. -/
def temporaryBeside (location : String) : String :=
  Path.parent location ++ "/" ++ Settings.temporaryStart ++ Settings.temporaryEnding

/-- What a system says about a file that the session has revised. -/
def revisionReports (location : String) (cookie : Nat) : List Notification :=
  renameReports (temporaryBeside location) location cookie

/-- Lets the session answer a notification. Answers the files it has revised. -/
def feed (r : Rehearsal) (n : Notification) : Rehearsal × List String :=
  let (session, response) := r.session.notify n r.now
  let files := response.reports.flatMap fun report => report.revision.files.map (·.1)
  ({ r with session, now := r.now + Number.nanosPerMilli }, files)

/-- Reports a file that the session has revised. -/
def feedRevision (r : Rehearsal) (file : String) : Rehearsal :=
  let location := r.session.keeper.locate file
  (revisionReports location r.cookie).foldl (fun r n => (r.feed n).1) { r with cookie := r.cookie + 1 }

/-- Lets the session answer a notification, and then what its own answer leads to. -/
def feedAll (r : Rehearsal) (n : Notification) : Rehearsal :=
  let (r, files) := r.feed n
  if r.session.keeper.project.settings.dryRun then r else files.foldl feedRevision r

/-- Whether an entry of the log says something. -/
def tells (text : String) (e : LogEntry) : Bool :=
  Text.contains text.toList (e.message ++ " " ++ e.line).toList

/-- Waits until the log, from some entry on, says something. -/
def await (r : Rehearsal) (since : Nat) (text : Option String) : Rehearsal :=
  match text with
  | none => r
  | some text =>
      if (r.session.keeper.log.drop since).any (tells text) then r
      else
        let now := r.now + r.session.detector.window + Number.nanosPerMilli
        { r with session := r.session.settle now, now }

/-- Plays something that happens: the tree afterwards is given, and what to wait for. -/
def play (r : Rehearsal) (d : Disturbance) (tree : FileTree) (text : Option String) : Rehearsal :=
  let said := reports r.session.keeper r.cookie d
  let since := r.session.keeper.log.length
  let r := { r with session := r.session.withTree tree, cookie := r.cookie + 1 }
  (said.foldl feedAll r).await since text

/-- The events that a watcher reports to whoever is interested. -/
def reported : List String :=
  ["broken_references_found", "directory_moved", "file_deleted", "file_moved"]

/-- The reported events of a log, one line for each. -/
def events (log : List LogEntry) : List String :=
  (log.filter fun e => e.event?.any reported.contains).map LogEntry.line

end Rehearsal

end LinkKeeper
