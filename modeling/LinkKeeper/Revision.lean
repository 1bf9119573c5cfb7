import LinkKeeper.Edit
import LinkKeeper.FileTree
import LinkKeeper.Settings
import LinkKeeper.Text.Utf8

/-!
# Revising files

A plan holds edits for some files. Each file is revised by itself: read, spliced, and
replaced as a whole by a file with the same permissions. A file that cannot be revised
is reported and stays as it is, and the others are not affected; a file in which no edit
applies is not written at all.
-/

namespace LinkKeeper

/-- Edits by the file that they are for, in the order in which they were found. -/
abbrev EditPlan := Std.TreeMap String (List Edit)

namespace EditPlan

/-- Adds an edit, if there is one. -/
def add (plan : EditPlan) (file : String) (edit : Option Edit) : EditPlan :=
  match edit with
  | some e => plan.alter file fun old => some (old.getD [] ++ [e])
  | none => plan

/-- The number of edits. -/
def total (plan : EditPlan) : Nat := (plan.values.map List.length).foldr (· + ·) 0

end EditPlan

/-- How files are written. -/
structure WriteOptions where
  /-- Copy each file to a backup first. -/
  backups : Bool
  /-- Count edits, and write nothing. -/
  dryRun : Bool
  /-- Read a file that is not UTF-8 leniently. -/
  lenient : Bool
  deriving DecidableEq, Repr

/-- What settings say about writing. -/
def Settings.writing (s : Settings) : WriteOptions := ⟨s.backups, s.dryRun, s.lenientText⟩

/-- The cause behind a refusal. -/
def Fault.ofSystem (e : SystemError) : Fault := .system e.message

/-- The text of a file. -/
def FileTree.readText (t : FileTree) (location : String) (lenient : Bool) : Except Fault String :=
  match t.read location with
  | .error .noEntry => .error (.fileMissing location)
  | .error e => .error (.ofSystem e)
  | .ok bytes =>
      match Text.decode? bytes with
      | some text => .ok text
      | none => if lenient then .ok (Text.decodeLenient bytes) else .error (.notText location)

/-- What came of revising a file. -/
structure FileRevision where
  tree : FileTree
  log : List LogEntry
  /-- How many edits applied, or what went wrong. -/
  result : Except Fault Nat

/-- What the log says about an edit whose link is no longer there. -/
def staleEntry (file : String) (e : Edit) : LogEntry :=
  .make .debug "stale edit skipped"
    [("file", .text file), ("line", .number e.line), ("original", .shown e.expected)]

/-- Puts a text in the place of a file, behind a backup if there is to be one. -/
def FileTree.replaceText (t : FileTree) (options : WriteOptions) (location text : String) :
    FileTree × Option SystemError :=
  match if options.backups then t.copy location (location ++ Settings.backupEnding) else .ok t with
  | .error e => (t, some e)
  | .ok t =>
      match t.replace location text.toUTF8 with
      | .error e => (t, some e)
      | .ok t => (t, none)

/-- Revises a file below a root. -/
def reviseFile (root : String) (options : WriteOptions) (t : FileTree) (file : String)
    (edits : List Edit) : FileRevision :=
  let location := Path.locate root file
  match t.readText location options.lenient with
  | .error fault => ⟨t, [], .error fault⟩
  | .ok content =>
      let s := Edit.splice content edits
      let log := s.stale.reverse.map (staleEntry file)
      if s.applied = 0 ∨ options.dryRun = true then ⟨t, log, .ok s.applied⟩
      else
        match t.replaceText options location s.text with
        | (t, some e) => ⟨t, log, .error (.ofSystem e)⟩
        | (t, none) => ⟨t, log, .ok s.applied⟩

/-- What came of a plan. -/
structure RevisionReport where
  /-- Files that could not be revised, and why. -/
  failures : List (String × String)
  /-- How many edits applied in each of the other files, unless none did. -/
  files : List (String × Nat)
  deriving DecidableEq, Repr

namespace RevisionReport

/-- Nothing was done. -/
def empty : RevisionReport := ⟨[], []⟩

/-- How many edits applied. -/
def total (r : RevisionReport) : Nat := (r.files.map (·.2)).foldr (· + ·) 0

end RevisionReport

/-- A plan on its way: the tree, the log, and the report so far. -/
structure Batch where
  tree : FileTree
  log : List LogEntry
  report : RevisionReport

/-- Revises one more file. -/
def Batch.step (root : String) (options : WriteOptions) (b : Batch) (entry : String × List Edit) :
    Batch :=
  let (file, edits) := entry
  let r := reviseFile root options b.tree file edits
  let log := b.log ++ r.log
  match r.result with
  | .error fault =>
      let note : LogEntry := .make .warn "could not rewrite file"
        [("event", .text "rewrite_failed"), ("file", .shown file), ("error", .shown fault.message)]
      ⟨r.tree, log ++ [note],
        { b.report with failures := b.report.failures ++ [(file, fault.message)] }⟩
  | .ok 0 => ⟨r.tree, log, b.report⟩
  | .ok count =>
      let note : LogEntry := .make .info "links updated"
        [("event", .text "links_updated"), ("file", .shown file), ("count", .number count),
          ("dry_run", .flag options.dryRun)]
      ⟨r.tree, log ++ [note], { b.report with files := b.report.files ++ [(file, count)] }⟩

/-- Carries out a plan, file by file in order. -/
def reviseAll (root : String) (options : WriteOptions) (t : FileTree) (plan : EditPlan) : Batch :=
  plan.toList.foldl (Batch.step root options) ⟨t, [], .empty⟩

end LinkKeeper
