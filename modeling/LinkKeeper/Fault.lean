/-!
# What can go wrong

Every cause names the file, the option or the process it is about. `message` is the one
line that a log or a failure list shows; `report` is what a user reads at the end of a
command, with advice where there is some to give.
-/

namespace LinkKeeper

/-- The name of the settings file at the root. -/
def settingsFileName : String := ".linkmend.toml"

/-- The name of the lock file at the root. -/
def lockFileName : String := ".linkmend.lock"

/-- A cause of failure. -/
inductive Fault where
  /-- A text could not be written as JSON. -/
  | encoding (reason : String)
  /-- A file that a command or an operation names is not there. -/
  | fileMissing (path : String)
  /-- Another process watches the tree. -/
  | lockHeld (path : String) (owner : Nat)
  | loggingFailed (reason : String)
  /-- A file is not UTF-8, and may not be read leniently. -/
  | notText (path : String)
  | outsideRoot (path : String)
  /-- A revised file could not take the place of the old one. -/
  | replaceFailed (path reason : String)
  /-- A setting has a value that it may not have. -/
  | settingInvalid (field reason : String)
  /-- The settings are not TOML, or not of the right shape. -/
  | settingsMalformed (reason : String)
  /-- A settings file that was asked for is not there. -/
  | settingsMissing (path : String)
  | signalsFailed (reason : String)
  /-- The file system refused. -/
  | system (reason : String)
  | watchFailed (reason : String)
  deriving DecidableEq, Repr

namespace Fault

/-- The cause in one line. -/
def message : Fault → String
  | encoding reason => "json: " ++ reason
  | fileMissing path => "file not found: " ++ path
  | lockHeld path owner =>
      "another instance (pid " ++ toString owner ++ ") is watching this tree: " ++ path
  | loggingFailed reason => "logging setup failed: " ++ reason
  | notText path => "not valid UTF-8: " ++ path
  | outsideRoot path => "path is outside the project root: " ++ path
  | replaceFailed path reason => "could not replace " ++ path ++ ": " ++ reason
  | settingInvalid field reason => "invalid config option `" ++ field ++ "`: " ++ reason
  | settingsMalformed reason => "toml deserialize: " ++ reason
  | settingsMissing path => "config not found: " ++ path
  | signalsFailed reason => "signal handler setup failed: " ++ reason
  | system reason => "io: " ++ reason
  | watchFailed reason => "watcher: " ++ reason

/-- A report with a heading, a body, and advice if there is some. -/
def page (heading body : String) (advice : Option String) : String :=
  "# " ++ heading ++ "\n\n" ++ body ++ "\n" ++
    match advice with
    | some text => "\n## Fix\n\n" ++ text ++ "\n"
    | none => ""

/-- The report that a user reads. -/
def report (f : Fault) : String :=
  match f with
  | settingInvalid field reason =>
      page "Error: Invalid Config Option" ("`" ++ field ++ "`: " ++ reason)
        (some ("Edit `" ++ field ++ "` in `" ++ settingsFileName
          ++ "`, or remove it to use the default."))
  | settingsMissing path =>
      page "Error: Config Not Found" ("`" ++ path ++ "` does not exist.")
        (some ("Pass an existing file to `--config`, or drop the flag to use `"
          ++ settingsFileName ++ "` at the project root."))
  | fileMissing path => page "Error: File Not Found" ("`" ++ path ++ "` does not exist.") none
  | notText path =>
      page "Error: Not UTF-8" ("`" ++ path ++ "` is not valid UTF-8.")
        (some ("Set `lossy_utf8 = true` in `" ++ settingsFileName
          ++ "` to decode it with replacement characters."))
  | lockHeld path owner =>
      page "Error: Already Watching" ("Process " ++ toString owner ++ " holds `" ++ path ++ "`.")
        (some ("Only one watcher may run per tree. Stop process " ++ toString owner
          ++ ", or if it is gone,\ndelete `" ++ lockFileName ++ "` and retry."))
  | outsideRoot path =>
      page "Error: Path Outside Project" ("`" ++ path ++ "` is not inside the project root.")
        (some "Pick a path under the root, or point `--root` at a directory that contains it.")
  | settingsMalformed reason =>
      page "Error: Invalid Config" reason
        (some ("Correct `" ++ settingsFileName ++ "`. Unknown keys are rejected."))
  | encoding _ | loggingFailed _ | replaceFailed _ _ | signalsFailed _ | system _ | watchFailed _ =>
      page "Error" f.message none

end Fault

end LinkKeeper
