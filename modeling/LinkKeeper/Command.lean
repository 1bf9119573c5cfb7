import LinkKeeper.Json.Printer
import LinkKeeper.Lock
import LinkKeeper.Session
import LinkKeeper.Upkeep

/-!
# Commands

What a user asks for at a prompt: list the references of a tree, check them, move
something, or watch. A command is a function on a tree of files. It answers the tree
afterwards, the log, what it says on the two output streams, and the exit status: zero,
one when it failed, two when a check found broken references.
-/

namespace LinkKeeper

/-- What a command line says apart from the command. -/
structure Invocation where
  /-- A settings file to be used instead of the one at the root. -/
  settingsFile : Option String
  overrides : Overrides
  root : String
  deriving DecidableEq, Repr

/-- A command. -/
inductive Command where
  | check
  | move (source target : String)
  | scan (json : Bool)
  | watch
  deriving DecidableEq, Repr

/-- Where a command runs. -/
structure Surroundings where
  tree : FileTree
  /-- The absolute location of the working directory. -/
  workingDirectory : String
  processes : Processes

/-- What came of a command. -/
structure Outcome where
  tree : FileTree
  log : List LogEntry
  /-- Exit status, or what went wrong. -/
  status : Except Fault Nat
  output : List String
  errors : List String

namespace Command

/-- The text of a settings file. -/
def readSettings (t : FileTree) (location : String) : Except Fault (Option String) :=
  match t.read location with
  | .error .noEntry => .ok none
  | .error e => .error (.ofSystem e)
  | .ok bytes =>
      match Text.decode? bytes with
      | some text => .ok (some text)
      | none => .error (.system "stream did not contain valid UTF-8")

/-- The settings of a tree: from the file that was asked for, or from the one at the root if there is one. -/
def loadSettings (e : Surroundings) (i : Invocation) (root : String) : Except Fault Settings := do
  match i.settingsFile with
  | some file =>
      match ← readSettings e.tree (Path.locate e.workingDirectory file) with
      | some text => Settings.ofText text
      | none => throw (.settingsMissing file)
  | none =>
      match ← readSettings e.tree (Path.locate root settingsFileName) with
      | some text => Settings.ofText text
      | none => return .defaults

/-- The real location of the root. -/
def findRoot (e : Surroundings) (i : Invocation) : Except Fault String :=
  match e.tree.realLocation (Path.locate e.workingDirectory i.root) with
  | .ok root => .ok root
  | .error .noEntry => .error (.fileMissing i.root)
  | .error error => .error (.ofSystem error)

/-- Opens the file for the log, if there is one. -/
def openLog (t : FileTree) (root : String) (s : Settings) : Except Fault FileTree :=
  match s.logFile with
  | none => .ok t
  | some file => (t.openEnd (Path.locate root file)).mapError .ofSystem

/-- Finds the root, reads and checks the settings, and opens the log. -/
def prepare (e : Surroundings) (i : Invocation) : Except Fault Keeper := do
  let root ← findRoot e i
  let settings ← loadSettings e i root
  let settings ← (settings.override i.overrides).check
  let tree ← openLog e.tree root settings
  return .make (.make root settings) tree

/-- The outcome of a keeper that has finished. -/
def finish (k : Keeper) (status : Nat) (output : List String) : Outcome :=
  ⟨k.tree, k.log, .ok status, output, []⟩

/-- The outcome of a keeper that could not go on. -/
def fail (k : Keeper) (fault : Fault) : Outcome := ⟨k.tree, k.log, .error fault, [], []⟩

/-! ## Listing and checking -/

/-- One line for a reference; columns are shown from one. -/
def referenceLine (r : Reference) : String :=
  r.source ++ ":" ++ toString r.line ++ ":" ++ toString (r.columnStart + 1) ++ "  "
    ++ r.kind.label ++ "  " ++ r.target

/-- Lists every reference. -/
def runScan (k : Keeper) (json : Bool) : Outcome :=
  let (k, stats) := k.scan
  let references := k.index.all
  if json then finish k 0 [Json.printReferences references]
  else
    let size := k.index.size
    finish k 0 (references.map referenceLine ++ ["",
      toString size.records ++ " references to " ++ toString size.targets ++ " targets from "
        ++ toString size.sources ++ " of " ++ toString stats.filesParsed ++ " files ("
        ++ toString stats.filesSkipped ++ " skipped)"])

/-- Whether a reference leads to something, read from its directory or from the root. -/
def isResolved (k : Keeper) (r : Reference) : Bool :=
  k.tree.isThere (k.locate r.resolved) || k.tree.isThere (k.locate r.rooted)

/-- Lists the references that lead nowhere. -/
def runCheck (k : Keeper) : Outcome :=
  let (k, _) := k.scan
  let references := k.index.all
  match references.filter fun r => !isResolved k r with
  | [] => finish k 0 ["All " ++ toString references.length ++ " references resolve"]
  | broken =>
      let line (r : Reference) :=
        "BROKEN  " ++ r.source ++ ":" ++ toString r.line ++ "  " ++ r.target
      finish k 2 (broken.map line ++ ["",
        toString broken.length ++ " broken of " ++ toString references.length ++ " references"])

/-! ## Moving -/

/-- The location with its directory made real, as far as that is there. -/
def settle (t : FileTree) (location : String) : String :=
  let names := (Path.components location).map String.ofList
  match names.getLast? with
  | some name =>
      if name = ".." ∨ name = "/" then location
      else
        let parent := "/" ++ String.intercalate "/" (names.dropLast.drop 1)
        match t.realLocation parent with
        | .ok parent => Path.locate parent name
        | .error _ => location
  | none => location

/-- The path that a user means. -/
def projectPath (k : Keeper) (raw : String) : Except Fault String :=
  match k.project.relative? (settle k.tree (k.locate raw)) with
  | some path => if path.isEmpty then .error (.outsideRoot raw) else .ok path
  | none => .error (.outsideRoot raw)

/-- The two paths of a move. What is moved onto a directory goes into it. -/
def movePaths (k : Keeper) (source target : String) : Except Fault (String × String) := do
  let src ← projectPath k source
  let dst ← projectPath k target
  if !(k.tree.entry false (k.locate src)).isOk then throw (.fileMissing source)
  let dst := if k.tree.isDirectory (k.locate dst) then dst ++ "/" ++ Path.baseName src else dst
  if k.tree.isThere (k.locate dst) then
    throw (.system ("destination `" ++ dst ++ "` already exists"))
  if Path.isUnder src dst then throw (.system ("cannot move `" ++ src ++ "` into itself"))
  return (src, dst)

/-- One line for a planned edit. -/
def editLine (file : String) (e : Edit) : String :=
  file ++ ":" ++ toString e.line ++ "  " ++ e.expected ++ " -> " ++ e.replacement

/-- Says what a move would do. -/
def foretell (k : Keeper) (src dst : String) (op : Operation) : Outcome :=
  let (k, _) := k.scan
  let plan := k.preview op
  let lines := plan.toList.flatMap fun (file, edits) => edits.map (editLine file)
  finish k 0 (lines ++ ["Would move " ++ src ++ " -> " ++ dst ++ " and update "
    ++ toString plan.total ++ " links in " ++ toString plan.size ++ " files"])

/-- Moves something to a path, behind directories that are made for it. -/
def relocate (t : FileTree) (root src dst : String) : FileTree × Option SystemError :=
  match t.makeWay (Path.locate root (Path.parent dst)) with
  | (t, some e) => (t, some e)
  | (t, none) =>
      match t.rename (Path.locate root src) (Path.locate root dst) with
      | .error e => (t, some e)
      | .ok t => (t, none)

/-- Gives the lock back. -/
def unlock (k : Keeper) (p : Processes) : Keeper :=
  let (tree, log) := Lock.release k.tree k.project.root p
  { k with tree, log := k.log ++ log }

/-- Moves something, and answers the move. The lock is held all the while. -/
def moveLocked (k : Keeper) (p : Processes) (src dst : String) (op : Operation) : Outcome :=
  let (k, _) := k.scan
  match relocate k.tree k.project.root src dst with
  | (tree, some e) => fail (unlock { k with tree } p) (.ofSystem e)
  | (tree, none) =>
      let (k, report) := ({ k with tree } : Keeper).apply op
      let k := unlock k p
      let failed := report.revision.failures.map fun (file, reason) =>
        "FAILED  " ++ file ++ ": " ++ reason
      let said := "Moved " ++ src ++ " -> " ++ dst ++ "; updated "
        ++ toString report.revision.total ++ " links in "
        ++ toString report.revision.files.length ++ " files"
      ⟨k.tree, k.log, .ok (if failed.isEmpty then 0 else 1), [said], failed⟩

/-- Moves something and keeps the links to it valid, or says what that would do. -/
def runMove (k : Keeper) (p : Processes) (source target : String) : Outcome :=
  match movePaths k source target with
  | .error fault => fail k fault
  | .ok (src, dst) =>
      let op : Operation :=
        if k.tree.isDirectory (k.locate src) then .directoryMoved src dst else .moved src dst
      if k.project.settings.dryRun then foretell k src dst op
      else
        let attempt := Lock.acquire k.tree k.project.root p
        let k := { k with tree := attempt.tree, log := k.log ++ attempt.log }
        match attempt.fault with
        | some fault => fail k fault
        | none => moveLocked k p src dst op

/-! ## Watching -/

/-- Takes the lock, reads the tree if that is wanted, and is ready to watch. -/
def beginWatch (k : Keeper) (p : Processes) : Except Outcome Session :=
  let root := k.project.root
  let attempt := Lock.acquire k.tree root p
  let k := { k with tree := attempt.tree, log := k.log ++ attempt.log }
  match attempt.fault with
  | some fault => .error (fail k fault)
  | none =>
      let k := if k.project.settings.initialScan then k.scan.1 else k
      .ok (.make (k.note (.make .info "watching for changes; press Ctrl+C twice to stop"
        [("root", .shown root), ("lock", .shown (Lock.location root))])))

/-- Answers what is still open, and gives the lock back. -/
def endWatch (s : Session) (p : Processes) : Outcome := finish (unlock s.close.keeper p) 0 []

/-! ## All commands -/

/-- Runs a command. A watch that nothing happens in ends at once. -/
def run (c : Command) (e : Surroundings) (i : Invocation) : Outcome :=
  match Command.prepare e i with
  | .error fault => ⟨e.tree, [], .error fault, [], []⟩
  | .ok k =>
      match c with
      | check => runCheck k
      | move source target => runMove k e.processes source target
      | scan json => runScan k json
      | watch =>
          match beginWatch k e.processes with
          | .error outcome => outcome
          | .ok s => endWatch s e.processes

end Command

namespace Outcome

/-- How a heading is set off on a terminal. -/
def bold (line : String) : String := "\x1b[1m" ++ line ++ "\x1b[0m"

/-- The lines of a report, with its headings set off. -/
def reportLines (f : Fault) : List String :=
  (Text.bodies f.report.toList).map fun line =>
    let line := String.ofList line
    if line.startsWith "#" then bold line else line

/-- The exit status. -/
def code (o : Outcome) : Nat :=
  match o.status with
  | .ok n => n
  | .error _ => 1

/-- All that goes to the stream for errors, the log apart. -/
def errorLines (o : Outcome) : List String :=
  match o.status with
  | .ok _ => o.errors
  | .error fault => o.errors ++ reportLines fault

end Outcome

end LinkKeeper
