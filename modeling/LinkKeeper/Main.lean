import LinkKeeper.Arguments
import LinkKeeper.Difference

/-!
# The program

The outer layer. It reads the files of a disk into a tree, lets a command work on the
tree, and does to the disk what has been done to the tree. A watcher does so again and
again, until its input ends.

A link is read as one to where it really leads, for that is all that can be seen of it
here. One that leads nowhere is read as one to a name that no file can have.
-/

namespace LinkKeeper.Disk

open IO.FS

/-- The contents of files that have been read, each with the time and the size it had then. -/
abbrev Known := IO.Ref (Std.TreeMap Spine (SystemTime × UInt64 × ByteArray))

/-- A place on the disk. -/
def entryAt (place : Spine) : DirEntry := ⟨"/", String.intercalate "/" place⟩

/-- What the disk says about a place, links not followed. -/
def metadata? (place : Spine) : IO (Option Metadata) := do
  match ← (entryAt place).path.symlinkMetadata.toBaseIO with
  | .ok m => return some m
  | .error _ => return none

/-- Where a location really is. -/
def realPlace? (location : String) : IO (Option Spine) := do
  match ← (realPath location).toBaseIO with
  | .ok path => return some ((FileTree.segments path.toString).filter (· != ""))
  | .error _ => return none

/-- The content of a file, from memory if it has not changed. -/
def content (known : Known) (place : Spine) (m : Metadata) : IO ByteArray := do
  match (← known.get)[place]? with
  | some (time, size, bytes) =>
      if time == m.modified && size == m.byteSize then return bytes
  | none => pure ()
  let bytes ← readBinFile (FileTree.location place)
  known.modify (·.insert place (m.modified, m.byteSize, bytes))
  return bytes

/-- Puts the directories above a place into a tree. -/
def withAbove (t : FileTree) (place : Spine) : FileTree :=
  (t.missingAbove place).foldl (fun t dir => t.put dir .directory) t

mutual

/-- Reads what is at a place, and all below it if that is wanted. -/
partial def load (known : Known) (deep : Bool) (t : FileTree) (place : Spine) : IO FileTree := do
  let some m ← metadata? place | return t
  match m.type with
  | .dir =>
      let t := t.put place .directory
      if deep then loadBelow known t place else return t
  | .file =>
      match ← (content known place m).toBaseIO with
      | .ok bytes => return t.put place (.file bytes FileTree.newMode)
      | .error _ => return t
  | .symlink => loadLink known t place
  | .other => return t

/-- Reads all below a directory. -/
partial def loadBelow (known : Known) (t : FileTree) (dir : Spine) : IO FileTree := do
  match ← (entryAt dir).path.readDir.toBaseIO with
  | .ok entries => entries.foldlM (fun t e => load known true t (dir ++ [e.fileName])) t
  | .error _ => return t

/-- Reads a link, and where it leads unless that has been read or lies above it. -/
partial def loadLink (known : Known) (t : FileTree) (place : Spine) : IO FileTree := do
  match ← realPlace? (FileTree.location place) with
  | some target =>
      let t := t.put place (.link (FileTree.location target))
      if t.entries.contains target || target.isPrefixOf place then return t
      else load known true (withAbove t target) target
  | none => return t.put place (.link (FileTree.location place ++ "\x00"))

end

/-- Reads what really is at a location. -/
def loadReal (known : Known) (deep : Bool) (t : FileTree) (location : String) : IO FileTree := do
  match ← realPlace? location with
  | some place => load known deep (withAbove t place) place
  | none => return t

/-- Does to the disk what one step does to a tree. -/
def perform : Step → IO Unit
  | .makeDirectory place => createDir (FileTree.location place)
  | .move source target => rename (FileTree.location source) (FileTree.location target)
  | .remove place isDir =>
      if isDir then removeDirAll (FileTree.location place)
      else removeFile (FileTree.location place)
  | .write place bytes _ => writeBinFile (FileTree.location place) bytes

/-- Does to the disk what has been done to a tree. -/
def update (old new : FileTree) : IO Unit := (old.steps new).forM perform

/-- The processes that there are. -/
def processes : IO Processes := do
  let own ← (readFile "/proc/self/stat").toBaseIO
  let number := match own with
    | .ok line => (String.ofList (line.toList.takeWhile Char.isDigit)).toNat?.getD 0
    | .error _ => 0
  let alive := match ← (entryAt ["proc"]).path.readDir.toBaseIO with
    | .ok entries => entries.toList.filterMap fun (e : DirEntry) => e.fileName.toNat?
    | .error _ => []
  return ⟨number, alive.contains⟩

end LinkKeeper.Disk

namespace LinkKeeper.Program

open Disk

/-- The invocation with the real locations of the root and the settings file, as far as they are there. -/
def settle (i : Invocation) : IO Invocation := do
  let root ← realPlace? i.root
  let file ← match i.settingsFile with
    | some file => realPlace? file
    | none => pure none
  return { i with
    root := (root.map FileTree.location).getD i.root
    settingsFile := (file.map FileTree.location).or i.settingsFile }

/-- Reads the part of the disk that a command works on: the tree, the settings, and where the log goes. -/
def readDisk (known : Known) (here : String) (p : Processes) (i : Invocation) : IO Surroundings := do
  let t ← loadReal known true .empty i.root
  let t ← match i.settingsFile with
    | some file => loadReal known false t file
    | none => pure t
  let e : Surroundings := ⟨t, here, p⟩
  match (Command.loadSettings e i i.root).toOption.bind (·.logFile) with
  | some file =>
      let location := Path.locate i.root file
      let t ← loadReal known false t (Path.parent location)
      return { e with tree := ← loadReal known false t location }
  | none => return e

/-- Writes entries to the log, as far as its level lets them through. -/
def tell (s : Settings) (root : String) (entries : List LogEntry) : IO Unit := do
  let level := (s.level.toOption.getD .info).rank
  let lines := (entries.filter fun e => e.level.rank ≤ level).map LogEntry.shown
  match s.logFile with
  | some file =>
      let log ← IO.FS.Handle.mk (Path.locate root file) .append
      lines.forM log.putStrLn
  | none => lines.forM fun line => IO.eprintln line

/-- Shows what came of a command. -/
def present (o : Outcome) : IO UInt32 := do
  o.output.forM fun line => IO.println line
  o.errorLines.forM fun line => IO.eprintln line
  return UInt32.ofNat o.code

/-- Ends a command: the disk is brought up to date, and its log and its answer are shown. -/
def conclude (old : FileTree) (k : Keeper) (told : Nat) (o : Outcome) : IO UInt32 := do
  update old o.tree
  tell k.project.settings k.project.root (o.log.drop told)
  present o

/-- How long a watcher waits before it looks again, in milliseconds. -/
def pause : UInt32 := 500

/-- Looks at the disk again and again, until the input has ended. -/
partial def watchOn (known : Known) (input : Task (Except IO.Error String)) (i : Invocation)
    (e : Surroundings) (s : Session) (told : Nat) : IO (Session × Nat) := do
  tell s.keeper.project.settings i.root (s.keeper.log.drop told)
  let told := s.keeper.log.length
  if ← IO.hasFinished input then return (s, told)
  IO.sleep pause
  let seen ← readDisk known e.workingDirectory e.processes i
  let s := s.catchUp seen.tree (← IO.monoNanosNow)
  update seen.tree s.keeper.tree
  watchOn known input i seen s told

/-- Watches a tree. -/
def watch (known : Known) (e : Surroundings) (i : Invocation) (k : Keeper) : IO UInt32 := do
  match Command.beginWatch k e.processes with
  | .error o => conclude e.tree k 0 o
  | .ok s =>
      update e.tree s.keeper.tree
      let input ← IO.asTask do (← IO.getStdin).readToEnd
      let (s, told) ← watchOn known input i e s 0
      conclude s.keeper.tree k told (Command.endWatch s e.processes)

/-- Runs a command. -/
def run (c : Command) (i : Invocation) : IO UInt32 := do
  let known : Known ← IO.mkRef ∅
  let here ← IO.currentDir
  let real ← settle i
  let e ← readDisk known here.toString (← processes) real
  match Command.prepare e real with
  | .error _ => present (Command.run c e real)
  | .ok k =>
      match c with
      | .watch => watch known e real k
      | c => conclude e.tree k 0 (Command.run c e real)

end LinkKeeper.Program

/-- Reads the command line, and runs the command. -/
def main (words : List String) : IO UInt32 := do
  match LinkKeeper.Arguments.read? words with
  | some (command, invocation) => LinkKeeper.Program.run command invocation
  | none =>
      LinkKeeper.Arguments.usage.forM fun line => IO.eprintln line
      return 2
