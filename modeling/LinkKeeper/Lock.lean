import LinkKeeper.Revision
import LinkKeeper.Text.Blank

/-!
# The lock

Only one process may change a tree at a time. Its number stands in a file at the root.
A lock whose owner is gone, or that cannot be read as a number, is taken over. On leaving,
a process removes the file only if its own number still stands there.
-/

namespace LinkKeeper

/-- What a process can know about processes: its own number, and which numbers are in use. -/
structure Processes where
  own : Nat
  isAlive : Nat → Bool

/-- What the lock file says. -/
inductive LockState where
  | absent
  | malformed
  | owned (owner : Nat)
  deriving DecidableEq, Repr

namespace Lock

/-- The largest number that a process may have in a lock file. -/
def largestOwner : Nat := 0xffffffff

/-- The number that a text names, with blanks around it perhaps, and a plus. -/
def owner? (content : String) : Option Nat :=
  let cs := Text.trim content.toList
  let digits := if cs.head? = some '+' then cs.drop 1 else cs
  if digits.isEmpty || !digits.all Char.isDigit then none
  else
    let n := digits.foldl (fun n c => 10 * n + (c.toNat - '0'.toNat)) 0
    if n ≤ largestOwner then some n else none

/-- The location of the lock file of a tree. -/
def location (root : String) : String := Path.locate root lockFileName

/-- Reads the lock file. -/
def state (t : FileTree) (root : String) : Except SystemError LockState :=
  match t.read (location root) with
  | .error .noEntry => .ok .absent
  | .error e => .error e
  | .ok bytes =>
      match Text.decode? bytes with
      | none => .ok .malformed
      | some content => .ok (((owner? content).map .owned).getD .malformed)

/-- What came of trying to take a lock. -/
structure Attempt where
  tree : FileTree
  log : List LogEntry
  /-- What stood in the way. -/
  fault : Option Fault

/-- An entry of the log about a lock file. -/
def entry (level : Level) (message root : String) (event : List (String × FieldValue))
    (more : List (String × FieldValue)) : LogEntry :=
  .make level message (event ++ [("path", .shown (location root))] ++ more)

/-- Writes the own number into the lock file. -/
def claim (t : FileTree) (root : String) (p : Processes) (log : List LogEntry) : Attempt :=
  match t.write (location root) (toString p.own ++ "\n").toUTF8 FileTree.newMode with
  | .error e => ⟨t, log, some (.ofSystem e)⟩
  | .ok t =>
      ⟨t, log ++ [entry .info "instance lock acquired" root [("event", .text "lock_acquired")]
        [("pid", .number p.own)]], none⟩

/-- Takes the lock of a tree. -/
def acquire (t : FileTree) (root : String) (p : Processes) : Attempt :=
  match state t root with
  | .error e => ⟨t, [], some (.ofSystem e)⟩
  | .ok .absent => claim t root p []
  | .ok .malformed =>
      claim t root p [entry .warn "overwriting malformed lock file" root [] []]
  | .ok (.owned owner) =>
      if owner ≠ p.own ∧ p.isAlive owner then ⟨t, [], some (.lockHeld (location root) owner)⟩
      else
        claim t root p
          [entry .warn "overwriting stale lock file" root [] [("stale_pid", .number owner)]]

/-- Gives the lock of a tree back. -/
def release (t : FileTree) (root : String) (p : Processes) : FileTree × List LogEntry :=
  match state t root with
  | .ok (.owned owner) =>
      if owner ≠ p.own then (t, [])
      else
        match t.removeFile (location root) with
        | .ok t =>
            (t, [entry .info "instance lock released" root [("event", .text "lock_released")] []])
        | .error e =>
            (t, [entry .warn "could not remove lock file" root [] [("error", .shown e.message)]])
  | _ => (t, [])

end Lock

end LinkKeeper
