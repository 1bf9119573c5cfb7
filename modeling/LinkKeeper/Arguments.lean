import LinkKeeper.Command

/-!
# The command line

A command line is a command, its paths, flags, and options with values. Flags and
options may stand anywhere behind the command; two dashes alone end them. Each may be
given once, and only flags that the command knows are accepted.
-/

namespace LinkKeeper.Arguments

/-- The words of a command line, sorted by what they are. -/
structure Words where
  plain : List String
  flags : List String
  options : List (String × String)
  deriving DecidableEq, Repr

/-- The options that take a value. -/
def valued : List String := ["--root", "--config", "--log-level"]

/-- Every flag. -/
def flags : List String := ["--backups", "--dry-run", "--json", "--no-initial-scan"]

/-- The flags that a command knows; nothing for a word that is no command. -/
def flagsOf? (command : String) : Option (List String) :=
  [("check", []), ("mv", ["--backups", "--dry-run"]), ("scan", ["--json"]),
    ("watch", ["--backups", "--dry-run", "--no-initial-scan"])].lookup command

/-- An option and its value in one word, parted by an equals sign. -/
def joined? (word : String) : Option (String × String) :=
  (Text.splitFirst? '=' word.toList).bind fun (name, value) =>
    if valued.contains (String.ofList name) then some (String.ofList name, String.ofList value)
    else none

/-- Adds a flag that has not been given yet. -/
def Words.flag? (w : Words) (name : String) : Option Words :=
  if w.flags.contains name then none else some { w with flags := w.flags ++ [name] }

/-- Adds an option that has not been given yet. -/
def Words.option? (w : Words) (name value : String) : Option Words :=
  if (w.options.lookup name).isSome || value.isEmpty then none
  else some { w with options := w.options ++ [(name, value)] }

/-- Adds a word that is neither. -/
def Words.add (w : Words) (word : String) : Words := { w with plain := w.plain ++ [word] }

/-- Sorts words. -/
def sort (w : Words) : List String → Option Words
  | [] => some w
  | word :: rest =>
      if word = "--" then some { w with plain := w.plain ++ rest }
      else if flags.contains word then (w.flag? word).bind fun w => sort w rest
      else if valued.contains word then
        match rest with
        | value :: rest => (w.option? word value).bind fun w => sort w rest
        | [] => none
      else
        match joined? word with
        | some (name, value) => (w.option? name value).bind fun w => sort w rest
        | none =>
            if word.startsWith "-" && word != "-" then none else sort (w.add word) rest

/-- The command that words name. -/
def Words.command? (w : Words) : Option Command :=
  match w.plain with
  | ["check"] => some .check
  | ["scan"] => some (.scan (w.flags.contains "--json"))
  | ["watch"] => some .watch
  | ["mv", source, target] =>
      if source.isEmpty || target.isEmpty then none else some (.move source target)
  | _ => none

/-- What the flags and options say. -/
def Words.invocation (w : Words) : Invocation where
  settingsFile := w.options.lookup "--config"
  overrides := {
    backups := w.flags.contains "--backups"
    dryRun := w.flags.contains "--dry-run"
    logLevel := w.options.lookup "--log-level"
    skipsScan := w.flags.contains "--no-initial-scan" }
  root := (w.options.lookup "--root").getD "."

/-- The command of a command line, if it makes sense. -/
def read? (words : List String) : Option (Command × Invocation) := do
  let w ← sort ⟨[], [], []⟩ words
  let known ← (w.plain.head?).bind flagsOf?
  let command ← w.command?
  if w.flags.all known.contains then some (command, w.invocation) else none

/-- How the program is called, line by line. -/
def usage : List String := [
  "usage: linkkeeper [--config FILE] [--log-level LEVEL] COMMAND",
  "",
  "check [--root DIR]                                list references that lead nowhere",
  "mv FROM TO [--root DIR] [--backups] [--dry-run]   move, and keep references valid",
  "scan [--root DIR] [--json]                        list every reference",
  "watch [--root DIR] [--backups] [--dry-run] [--no-initial-scan]",
  "                                                  keep references valid as files move"]

end LinkKeeper.Arguments
