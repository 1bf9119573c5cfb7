import LinkKeeper.Text.Quoted

/-!
# The log

What the library does to a tree it tells in a log: entries with a level, a message and
named fields. Nothing is written here; an operation returns its entries, oldest first,
and whoever runs it decides where they go.
-/

namespace LinkKeeper

/-- How severe an entry is. -/
inductive Level where
  | error
  | warn
  | info
  | debug
  | trace
  deriving DecidableEq, Repr

namespace Level

/-- The name of a level. -/
def name : Level → String
  | error => "error"
  | warn => "warn"
  | info => "info"
  | debug => "debug"
  | trace => "trace"

/-- The place of a level, the most severe first. -/
def rank : Level → Nat
  | error => 1
  | warn => 2
  | info => 3
  | debug => 4
  | trace => 5

/-- Every level. -/
def all : List Level := [error, warn, info, debug, trace]

/-- A number without a sign or with a plus. -/
def rank? (cs : List Char) : Option Nat :=
  let digits := if cs.head? = some '+' then cs.drop 1 else cs
  if digits.isEmpty || !digits.all Char.isDigit then none
  else some (digits.foldl (fun n c => 10 * n + (c.toNat - '0'.toNat)) 0)

/-- The level that a text names, by name in any case or by rank. -/
def ofText? (s : String) : Option Level :=
  match rank? s.toList with
  | some n => all.find? (·.rank == n)
  | none => all.find? (·.name == String.ofList (s.toList.map Char.toLower))

end Level

/-- The value of a field. -/
inductive FieldValue where
  /-- A text, quoted where an entry is written on one line. -/
  | text (s : String)
  /-- A value by the text that shows it. -/
  | shown (s : String)
  | number (n : Nat)
  | flag (b : Bool)
  deriving DecidableEq, Repr

/-- The value as it is written on one line. -/
def FieldValue.written : FieldValue → String
  | text s => Text.quote s
  | shown s => s
  | number n => toString n
  | flag b => toString b

/-- An entry of the log. -/
structure LogEntry where
  level : Level
  message : String
  fields : List (String × FieldValue)
  /-- The kind and the path of the operation during which it was made. -/
  during : Option (String × String)
  deriving DecidableEq, Repr

namespace LogEntry

/-- An entry that belongs to no operation. -/
def make (level : Level) (message : String) (fields : List (String × FieldValue)) : LogEntry :=
  ⟨level, message, fields, none⟩

/-- Notes that an entry was made during an operation. -/
def within (kind path : String) (e : LogEntry) : LogEntry := { e with during := some (kind, path) }

/-- The fields on one line. -/
def line (e : LogEntry) : String :=
  String.intercalate " " (e.fields.map fun (name, value) => name ++ "=" ++ value.written)

/-- The entry on one line. -/
def shown (e : LogEntry) : String :=
  let place := match e.during with
    | some (kind, path) => ["operation\x7bkind=" ++ kind ++ " path=" ++ path ++ "\x7d:"]
    | none => []
  String.intercalate " " ([e.level.name.toUpper] ++ place ++ [e.message, e.line])

/-- The event that an entry reports, if it has a name. -/
def event? (e : LogEntry) : Option String :=
  match e.fields.lookup "event" with
  | some (.text s) => some s
  | _ => none

end LogEntry

end LinkKeeper
