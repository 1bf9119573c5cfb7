import LinkKeeper.Index
import LinkKeeper.Links.Format
import LinkKeeper.Revision

/-!
# The keeper of a tree

A keeper has a project, the tree of files, the index of its references, and a log. It
reads files into the index: one at a time, or all below a directory.

A scan goes down the tree in the order of names. What the project ignores is passed over
together with all below it, and links are not followed, except at the directory where
the scan begins. A file that cannot be read is skipped, and the log says so.
-/

namespace LinkKeeper

/-- A keeper at work. -/
structure Keeper where
  project : Project
  tree : FileTree
  index : Index
  /-- Oldest first. -/
  log : List LogEntry

/-- What a scan did. -/
structure ScanStats where
  filesParsed : Nat
  filesSkipped : Nat
  references : Nat
  deriving DecidableEq, Repr

namespace Keeper

/-- A keeper that has read nothing yet. -/
def make (project : Project) (tree : FileTree) : Keeper := ⟨project, tree, .empty, []⟩

/-- The location of a path. -/
def locate (k : Keeper) (path : String) : String := k.project.locate path

/-- Writes to the log. -/
def note (k : Keeper) (e : LogEntry) : Keeper := { k with log := k.log ++ [e] }

/-- Writes a warning to the log. -/
def warn (k : Keeper) (message : String) (fields : List (String × FieldValue)) : Keeper :=
  k.note (.make .warn message fields)

/-- Changes the index. -/
def mapIndex (k : Keeper) (f : Index → Index) : Keeper := { k with index := f k.index }

/-- Drops the records of a file. -/
def forget (k : Keeper) (path : String) : Keeper := k.mapIndex (·.removeSource path)

/-- What the log says about a file that is broken and was read as plain text. -/
def fallbackEntry (path : String) : LogEntry :=
  .make .debug "structured parse failed, using generic strategy"
    [("event", .text "parse_fallback"), ("source", .text path)]

/-- The references that are filed for a text. -/
def filed (references : List Reference) : List Reference := references.filter (·.isInside)

/-- Reads a file into the index. Answers how many references were filed. -/
def indexFile (k : Keeper) (path : String) : Keeper × Except Fault Nat :=
  match k.tree.readText (k.locate path) k.project.settings.lenientText with
  | .error fault => (k, .error fault)
  | .ok content =>
      let found := Links.find k.project.rule path content
      let k := if found.fallback then k.note (fallbackEntry path) else k
      (k.mapIndex (·.replaceSource path found.references), .ok (filed found.references).length)

/-! ## Scans -/

/-- What a scan begins with. -/
inductive ScanStart where
  | directory (spine : Spine)
  | file
  /-- Something that is neither. -/
  | nothing
  | refused (error : SystemError)

/-- What stands where a scan begins. A link to a directory is followed, a link to a file is not. -/
def scanStart (t : FileTree) (location : String) : ScanStart :=
  match t.entry false location with
  | .error e => .refused e
  | .ok (spine, .directory) => .directory spine
  | .ok (_, .file _ _) => .file
  | .ok (_, .link _) =>
      match t.entry true location with
      | .error e => .refused e
      | .ok (spine, .directory) => .directory spine
      | .ok _ => .nothing

/-- The location of something below where a scan begins. -/
def under (start : String) (rest : Spine) : String :=
  Path.locate start (String.intercalate "/" rest)

/-- Whether a location is passed over by its own path. -/
def isPassed (k : Keeper) (location : String) : Bool :=
  (k.project.relative? location).any k.project.ignores

/-- Whether a scan gets to something below where it begins: neither it nor what it lies in is passed over. -/
def isReached (k : Keeper) (start : String) (rest : Spine) : Bool :=
  (List.range rest.length).all fun n => !k.isPassed (under start (rest.take (n + 1)))

/-- The locations of the files that a scan gets to, in order. -/
def reachedFiles (k : Keeper) (start : String) (spine : Spine) : List String :=
  (k.tree.below spine).filterMap fun (rest, entry) =>
    match entry with
    | .file _ _ => if k.isReached start rest then some (under start rest) else none
    | _ => none

/-- Reads one file of a scan, if it is one that is read. -/
def scanFile (state : Keeper × ScanStats) (location : String) : Keeper × ScanStats :=
  let (k, stats) := state
  match k.project.relative? location with
  | none => state
  | some path =>
      if !k.project.monitors path then state
      else
        match k.indexFile path with
        | (k, .ok filed) =>
            (k, { stats with filesParsed := stats.filesParsed + 1,
                             references := stats.references + filed })
        | (k, .error fault) =>
            (k.warn "skipping file" [("file", .shown path), ("error", .shown fault.message)],
              { stats with filesSkipped := stats.filesSkipped + 1 })

/-- Reads all that lies below a directory into the index; the root is the empty path. -/
def scanUnder (k : Keeper) (dir : String) : Keeper × ScanStats :=
  let start := k.locate dir
  match scanStart k.tree start with
  | .refused e =>
      let reason := "IO error for operation on " ++ start ++ ": " ++ e.message
      (k.warn "skipping unreadable entry" [("error", .shown reason)], ⟨0, 1, 0⟩)
  | .nothing => (k, ⟨0, 0, 0⟩)
  | .file => scanFile (k, ⟨0, 0, 0⟩) start
  | .directory spine => (k.reachedFiles start spine).foldl scanFile (k, ⟨0, 0, 0⟩)

/-- Reads the whole tree into the index. -/
def scan (k : Keeper) : Keeper × ScanStats :=
  let (k, stats) := k.scanUnder ""
  (k.note (.make .info "initial scan completed"
    [("event", .text "scan_completed"), ("files", .number stats.filesParsed),
      ("skipped", .number stats.filesSkipped), ("references", .number stats.references)]), stats)

end Keeper

end LinkKeeper
