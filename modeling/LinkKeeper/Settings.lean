import LinkKeeper.Candidate
import LinkKeeper.Fault
import LinkKeeper.Log
import LinkKeeper.Number.Duration
import LinkKeeper.Settings.Toml

/-!
# Settings

Every setting has a default, a name in the settings file, and a rule that its value must
keep. `Settings.ofText` reads the file, `Settings.override` applies the options of a
command, and `Settings.check` says which setting, if any, has a value it may not have.

Sets of names are kept as sorted lists without repetition.
-/

namespace LinkKeeper

open Number

/-- The settings of a tree. -/
structure Settings where
  /-- Copy each revised file to a backup first. -/
  backups : Bool
  /-- Say what would be done, and do not do it. -/
  dryRun : Bool
  /-- How long the digest of a file is remembered, in nanoseconds. -/
  digestLifetime : Nat
  /-- Files of this size or larger have no digest. -/
  digestLimit : Nat
  /-- Names of directories that are passed over. -/
  ignoredDirectories : List String
  /-- Whether a watcher reads the whole tree before it begins. -/
  initialScan : Bool
  /-- Whether a file that is not UTF-8 is read leniently. -/
  lenientText : Bool
  /-- Where the log goes. -/
  logFile : Option String
  /-- The least severe level that is logged, as it was written. -/
  logLevel : String
  /-- Extensions of the files that are read, each with its dot. -/
  monitoredExtensions : List String
  /-- How long a deletion waits for the creation that would make it a move, in nanoseconds. -/
  moveWindow : Nat
  /-- Extensions that make a word without a separator a path, without dots. -/
  pathExtensions : List String
  /-- Whether the links in a moved file are revised so that they still lead where they led. -/
  updatesMovedFiles : Bool
  deriving DecidableEq, Repr

/-- What the options of a command say about the settings. -/
structure Overrides where
  backups : Bool
  dryRun : Bool
  logLevel : Option String
  skipsScan : Bool
  deriving DecidableEq, Repr

/-- No options. -/
def Overrides.none : Overrides := ⟨false, false, Option.none, false⟩

/-- A set as a sorted list without repetition. -/
def nameSet (names : List String) : List String :=
  (names.mergeSort (fun a b => decide (a ≤ b))).eraseDups

namespace Settings

/-- What follows the name of a file in the name of its backup. -/
def backupEnding : String := ".linkbak"

/-- How the name of a temporary file begins. -/
def temporaryStart : String := ".linkmend-"

/-- How the name of a temporary file ends. -/
def temporaryEnding : String := ".tmp"

/-- The files that are read by default. -/
def defaultMonitored : List String := [
  ".bat", ".css", ".htm", ".html", ".js", ".json", ".jsx", ".markdown", ".md", ".ps1", ".py",
  ".rst", ".sh", ".toml", ".ts", ".tsx", ".txt", ".xml", ".yaml", ".yml"]

/-- The directories that are passed over by default. -/
def defaultIgnored : List String := [
  ".git", ".hg", ".idea", ".mypy_cache", ".pytest_cache", ".svn", ".tox", ".venv", ".vscode",
  "__pycache__", "build", "dist", "node_modules", "target", "venv"]

/-- The extensions of a path by default: documents, data, code, images, archives and media. -/
def defaultPathExtensions : List String := nameSet [
  "adoc", "csv", "doc", "docx", "htm", "html", "log", "markdown", "md", "odt", "pdf", "ppt",
  "pptx", "rst", "rtf", "tex", "tsv", "txt", "xls", "xlsx",
  "cfg", "conf", "env", "ini", "json", "lock", "toml", "xml", "yaml", "yml",
  "bat", "c", "cc", "cjs", "cpp", "cs", "css", "go", "h", "hpp", "java", "js", "jsx", "kt",
  "lua", "mjs", "php", "pl", "ps1", "py", "r", "rb", "rs", "sass", "scss", "sh", "sql",
  "swift", "ts", "tsx", "vue",
  "bmp", "gif", "ico", "jpeg", "jpg", "png", "svg", "tif", "tiff", "webp",
  "7z", "bz2", "gz", "rar", "tar", "tgz", "xz", "zip",
  "avi", "flac", "m4a", "mkv", "mov", "mp3", "mp4", "ogg", "wav", "webm"]

/-- The settings of a tree without a settings file. -/
def defaults : Settings where
  backups := false
  dryRun := false
  digestLifetime := 30 * nanosPerSecond
  digestLimit := 1024 * 1024
  ignoredDirectories := defaultIgnored
  initialScan := true
  lenientText := false
  logFile := none
  logLevel := "info"
  monitoredExtensions := defaultMonitored
  moveWindow := 5 * nanosPerSecond
  pathExtensions := defaultPathExtensions
  updatesMovedFiles := true

/-! ## Rules -/

/-- The level of the log. -/
def level (s : Settings) : Except Fault Level :=
  match Level.ofText? s.logLevel with
  | some level => .ok level
  | none => .error (.settingInvalid "log_level"
      ("unknown level `" ++ s.logLevel ++ "` (expected error|warn|info|debug|trace)"))

/-- Whether an extension begins with a dot and goes on. -/
def isDotted (extension : String) : Bool :=
  extension.toList.head? == some '.' && 2 ≤ extension.utf8ByteSize

/-- Says which setting has a value that it may not have. -/
def check (s : Settings) : Except Fault Settings :=
  let positive := "must be greater than zero"
  match s.monitoredExtensions.find? fun e => !isDotted e with
  | some bad => .error (.settingInvalid "monitored_extensions"
      ("`" ++ bad ++ "` must start with a dot, like `.md`"))
  | none =>
      if s.digestLimit = 0 then .error (.settingInvalid "max_hash_file_bytes" positive)
      else if s.moveWindow = 0 then
        .error (.settingInvalid "move_detection_window_seconds" positive)
      else if s.digestLifetime = 0 then .error (.settingInvalid "hash_cache_ttl_seconds" positive)
      else s.level.map fun _ => s

/-! ## The settings file -/

/-- The name of each setting and what its value must be. -/
inductive Shape where
  | bool
  | count
  | seconds
  | text
  | texts

/-- The settings that a file may name. -/
def shapes : List (String × Shape) := [
  ("create_backups", .bool), ("dry_run_mode", .bool), ("hash_cache_ttl_seconds", .seconds),
  ("ignored_directories", .texts), ("initial_scan_enabled", .bool), ("log_file", .text),
  ("log_level", .text), ("lossy_utf8", .bool), ("max_hash_file_bytes", .count),
  ("monitored_extensions", .texts), ("move_detection_window_seconds", .seconds),
  ("path_extensions", .texts), ("update_moved_file_links", .bool)]

/-- Whether a value has a shape. -/
def Shape.fits : Shape → Toml.Value → Bool
  | .bool, .bool _ => true
  | .count, .integer n => 0 ≤ n
  | .seconds, .integer _ => true
  | .seconds, .real _ => true
  | .text, .text _ => true
  | .texts, .texts _ => true
  | _, _ => false

/-- Whether an entry is a setting with a value of its shape. -/
def isSetting (entry : String × Toml.Value) : Bool :=
  match shapes.lookup entry.1 with
  | some shape => shape.fits entry.2
  | none => false

/-- A truth value of the file, or what it stands for without one. -/
def boolOr (entries : List (String × Toml.Value)) (name : String) (default : Bool) : Bool :=
  match entries.lookup name with
  | some (.bool b) => b
  | _ => default

/-- A list of the file as a set, or what it stands for without one. -/
def setOr (entries : List (String × Toml.Value)) (name : String) (change : String → String)
    (default : List String) : List String :=
  match entries.lookup name with
  | some (.texts items) => nameSet (items.map change)
  | _ => default

/-- A text of the file. -/
def text? (entries : List (String × Toml.Value)) (name : String) : Option String :=
  match entries.lookup name with
  | some (.text s) => some s
  | _ => none

/-- An integer as a binary64 number. -/
def ofInteger (n : Int) : Binary64 := .ofFraction (n < 0) n.natAbs 1

/-- A number of seconds as a duration; it must be finite and above zero. -/
def duration (name : String) (seconds : Binary64) : Except Fault Nat :=
  if !seconds.isPositive then
    .error (.settingInvalid name (seconds.toText ++ " is not a positive number of seconds"))
  else
    match seconds.toNanos? with
    | some n => .ok n
    | none => .error (.settingInvalid name
        "cannot convert float seconds to Duration: value is either too big or NaN")

/-- A duration of the file, or what it stands for without one. -/
def durationOr (entries : List (String × Toml.Value)) (name : String) (default : Nat) :
    Except Fault Nat :=
  match entries.lookup name with
  | some (.integer n) => duration name (ofInteger n)
  | some (.real x) => duration name x
  | _ => .ok default

/-- Reads a settings file. -/
def ofText (content : String) : Except Fault Settings := do
  match Toml.entries? content with
  | none => throw (.settingsMalformed "not a settings file")
  | some entries =>
      if !entries.all isSetting then throw (.settingsMalformed "not a setting")
      let digestLifetime ← durationOr entries "hash_cache_ttl_seconds" defaults.digestLifetime
      let moveWindow ← durationOr entries "move_detection_window_seconds" defaults.moveWindow
      let bare (e : String) := Text.lower (String.ofList (e.toList.dropWhile (· == '.')))
      check {
        backups := boolOr entries "create_backups" defaults.backups
        dryRun := boolOr entries "dry_run_mode" defaults.dryRun
        digestLifetime
        digestLimit := match entries.lookup "max_hash_file_bytes" with
          | some (.integer n) => n.toNat
          | _ => defaults.digestLimit
        ignoredDirectories := setOr entries "ignored_directories" id defaults.ignoredDirectories
        initialScan := boolOr entries "initial_scan_enabled" defaults.initialScan
        lenientText := boolOr entries "lossy_utf8" defaults.lenientText
        logFile := text? entries "log_file"
        logLevel := (text? entries "log_level").getD defaults.logLevel
        monitoredExtensions :=
          setOr entries "monitored_extensions" Text.lower defaults.monitoredExtensions
        moveWindow
        pathExtensions := setOr entries "path_extensions" bare defaults.pathExtensions
        updatesMovedFiles := boolOr entries "update_moved_file_links" defaults.updatesMovedFiles }

/-- Applies the options of a command. They turn features on, or the scan off, and never back. -/
def override (s : Settings) (o : Overrides) : Settings :=
  { s with
    backups := s.backups || o.backups
    dryRun := s.dryRun || o.dryRun
    initialScan := s.initialScan && !o.skipsScan
    logLevel := o.logLevel.getD s.logLevel }

/-! ## Which files count -/

/-- Whether a name is that of a backup or a temporary file. -/
def isOwnName (name : String) : Bool :=
  name.endsWith backupEnding || (name.startsWith temporaryStart && name.endsWith temporaryEnding)

/--
Whether a path is passed over: the lock, the log, backups and temporary files, and all
that lies in an ignored directory or has its name.
-/
def ignores (s : Settings) (logPath : Option String) (path : String) : Bool :=
  let name := Path.baseName path
  let dirs := (Text.splitWhere (· == '/') (Path.parent path).toList).map String.ofList
  path == lockFileName || logPath == some path || isOwnName name
    || (dirs ++ [name]).any s.ignoredDirectories.contains

/-- Whether the name of a file has one of the extensions that are read. -/
def reads (s : Settings) (path : String) : Bool :=
  match Text.splitLast? '.' (Path.baseName path).toList with
  | some (stem, extension) =>
      !stem.isEmpty
        && s.monitoredExtensions.contains ("." ++ Text.lower (String.ofList extension))
  | none => false

end Settings

/-- A tree to be kept: where it is, how, and what its links look like. -/
structure Project where
  /-- The absolute location of the root. -/
  root : String
  settings : Settings
  /-- The path of the log, when it lies in the tree. -/
  logPath : Option String
  deriving DecidableEq, Repr

namespace Project

/-- The tree at a root, under some settings. -/
def make (root : String) (settings : Settings) : Project where
  root
  settings
  logPath := settings.logFile.bind fun file =>
    if Path.isAbsolute file then Path.fromRoot? root file else some (Path.normalize file)

/-- The rule that says what counts as a path. -/
def rule (p : Project) : CandidateRule := .ofExtensions p.settings.pathExtensions

/-- Whether a path is passed over. -/
def ignores (p : Project) (path : String) : Bool := p.settings.ignores p.logPath path

/-- Whether the file at a path is read for links. -/
def monitors (p : Project) (path : String) : Bool := !p.ignores path && p.settings.reads path

/-- The path of an absolute location in the tree. -/
def relative? (p : Project) (location : String) : Option String := Path.fromRoot? p.root location

/-- The location of a path. -/
def locate (p : Project) (path : String) : String := Path.locate p.root path

end Project

end LinkKeeper
