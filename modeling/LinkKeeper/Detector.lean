import LinkKeeper.DigestMemory
import LinkKeeper.Log
import LinkKeeper.Number.Duration
import LinkKeeper.Reference
import LinkKeeper.Settings
import Std.Data.TreeMap

/-!
# Telling moves from deletions

A move may be reported as a removal and a creation. A removal therefore waits for a
while: a creation of the same name in that time, or with the same content, makes it one
half of a move, and if there is none it becomes a deletion. A rename that the system
reports with a cookie needs no guess; its two halves are paired by the cookie, and the
report of both ends that follows them is dropped.

Waiting removals are kept in buckets by the last segment of their path, oldest first.
A bucket is never empty. Times are numbers of nanoseconds; a time before another is taken
to be no time after it.
-/

namespace LinkKeeper

/-- A change as it was observed, on paths of the tree. -/
inductive RawEvent where
  | created (isDir : Bool) (path : String)
  | modified (path : String)
  | removed (isDir : Bool) (path : String)
  /-- Both ends of a rename. -/
  | renamed (source : String) (isDir : Bool) (target : String) (cookie : Option Nat)
  | renamedFrom (path : String) (cookie : Option Nat)
  | renamedTo (isDir : Bool) (path : String) (cookie : Option Nat)
  deriving DecidableEq, Repr

/-- A removal that may still turn out to be half of a move. -/
structure Removal where
  /-- When it was observed. -/
  since : Nat
  digest : Option String
  isDir : Bool
  path : String
  /-- Whether it was reported as the first half of a rename. -/
  isRename : Bool
  cookie : Option Nat
  deriving DecidableEq, Repr

/-- What a move was recognised by. -/
inductive MoveSignal where
  | digest
  | rename
  | timing
  deriving DecidableEq, Repr

/-- How the log shows a signal. -/
def MoveSignal.label : MoveSignal → String
  | digest => "Digest"
  | rename => "Rename"
  | timing => "Timing"

/-- Waiting removals by the last segment of their path. -/
abbrev Waiting := Std.TreeMap String (List Removal)

namespace Waiting

/-- The bucket of a name. -/
def named (w : Waiting) (name : String) : List Removal := (w[name]?).getD []

/-- Sets the bucket of a name; an empty one goes. -/
def set (w : Waiting) (name : String) (bucket : List Removal) : Waiting :=
  if bucket.isEmpty then w.erase name else w.insert name bucket

/-- Adds a removal as the youngest of its bucket. -/
def push (w : Waiting) (r : Removal) : Waiting :=
  let name := Path.baseName r.path
  w.insert name (w.named name ++ [r])

/-- Drops every removal of a path. -/
def discard (w : Waiting) (path : String) : Waiting :=
  let name := Path.baseName path
  w.set name ((w.named name).filter (·.path != path))

/-- Every removal, bucket by bucket. -/
def all (w : Waiting) : List Removal := w.values.flatten

/-- Takes the removal at a place out of a bucket. -/
def takeAt (w : Waiting) (name : String) (place : Nat) : Option (Removal × Waiting) :=
  let bucket := w.named name
  (bucket[place]?).map fun r => (r, w.set name (bucket.eraseIdx place))

/-- The place of the last element that has a property. -/
def lastIdx? (p : Removal → Bool) (bucket : List Removal) : Option Nat :=
  (bucket.reverse.findIdx? p).map fun n => bucket.length - 1 - n

/-- Where in its bucket the removal stands that matches a creation best: one with the same digest, or else the youngest. -/
def match? (bucket : List Removal) (isDir : Bool) (digest : Option String) :
    Option (Nat × MoveSignal) :=
  let same (r : Removal) : Bool := r.isDir == isDir
  let byDigest := digest.bind fun d => bucket.findIdx? fun r => same r && r.digest == some d
  match byDigest with
  | some place => some (place, .digest)
  | none => (lastIdx? same bucket).map fun place => (place, .timing)

/-- Takes out the removal that matches a creation best. -/
def claim (w : Waiting) (path : String) (isDir : Bool) (digest : Option String) :
    Option (Removal × MoveSignal × Waiting) := do
  let name := Path.baseName path
  let (place, signal) ← match? (w.named name) isDir digest
  let (r, w) ← w.takeAt name place
  return (r, signal, w)

/-- How long the first half of a rename without a cookie waits for the second. -/
def pairWindow : Nat := Number.nanosPerSecond

/-- Whether a removal is the first half of a rename whose second half comes now. -/
def isHalf (cookie : Option Nat) (now : Nat) (r : Removal) : Bool :=
  match cookie with
  | some c => r.cookie == some c
  | none => r.isRename && r.cookie.isNone && decide (now - r.since ≤ pairWindow)

/-- The youngest of some removals; of two, the one that comes first. -/
def youngest : List Removal → Option Removal
  | [] => none
  | r :: rest =>
      match youngest rest with
      | some s => if r.since < s.since then some s else some r
      | none => some r

/-- Takes out the first half of a rename. -/
def claimHalf (w : Waiting) (cookie : Option Nat) (now : Nat) : Option (Removal × Waiting) := do
  let half ← youngest (w.all.filter (isHalf cookie now))
  let name := Path.baseName half.path
  let place ← (w.named name).findIdx? (· == half)
  w.takeAt name place

/-- Whether one removal was observed before another; at one time, paths decide. -/
def precedes (a b : Removal) : Bool :=
  a.since < b.since || (a.since == b.since && decide (a.path ≤ b.path))

/-- Removals in the order in which they were observed. -/
def inOrder (removals : List Removal) : List Removal := removals.mergeSort precedes

/-- Keeps the removals that have a property. -/
def keep (w : Waiting) (p : Removal → Bool) : Waiting :=
  w.filterMap fun _ bucket =>
    match bucket.filter p with
    | [] => none
    | rest => some rest

end Waiting

/-- The state of move detection. -/
structure Detector where
  waiting : Waiting
  /-- Cookies whose halves have been paired, and when. -/
  paired : Std.TreeMap Nat Nat
  memory : DigestMemory
  /-- How long a removal waits. -/
  window : Nat

/-- What is known now about the files, as far as they have a digest. -/
abbrev Digests := String → Option String

/-- What one event leads to. -/
structure Detection where
  detector : Detector
  operations : List Operation
  log : List LogEntry

namespace Detector

/-- A detector that has seen nothing. -/
def make (s : Settings) : Detector := ⟨∅, ∅, .empty s.digestLifetime, s.moveWindow⟩

/-- Leads to nothing but a new state. -/
def quiet (d : Detector) : Detection := ⟨d, [], []⟩

/-- Leads to an operation. -/
def emit (d : Detector) (op : Operation) : Detection := ⟨d, [op], []⟩

/-- What the log says about a move. -/
def moveEntry (source target : String) (isDir : Bool) (signal : MoveSignal) : LogEntry :=
  .make .info "move detected"
    [("event", .text "move_detected"), ("from", .shown source), ("to", .shown target),
      ("is_dir", .flag isDir), ("signal", .shown signal.label)]

/-- Leads to a move. -/
def emitMove (d : Detector) (source target : String) (isDir : Bool) (signal : MoveSignal) :
    Detection :=
  ⟨d, [if isDir then .directoryMoved source target else .moved source target],
    [moveEntry source target isDir signal]⟩

/-- The deletion that a removal becomes. -/
def deletion (r : Removal) : Operation := .deleted r.path

/-- Whether a removal has waited too long. -/
def isOver (d : Detector) (now : Nat) (r : Removal) : Bool := d.window < now - r.since

/-- Gives up on the removals that have waited too long. -/
def expire (d : Detector) (now : Nat) : Detector × List Operation :=
  ({ d with
      waiting := d.waiting.keep fun r => !d.isOver now r
      paired := d.paired.filter fun _ since => decide (now - since ≤ d.window)
      memory := d.memory.prune now },
    (Waiting.inOrder (d.waiting.all.filter (d.isOver now))).map deletion)

/-- Gives up on every removal. -/
def flush (d : Detector) : Detector × List Operation :=
  ({ d with waiting := ∅, paired := ∅ }, (Waiting.inOrder d.waiting.all).map deletion)

/-- Takes the digest of a file and remembers it. -/
def remember (d : Detector) (digests : Digests) (path : String) (now : Nat) :
    Detector × Option String :=
  match digests path with
  | some digest => ({ d with memory := d.memory.insert path digest now }, some digest)
  | none => (d, none)

/-- Lets a removal wait. Its digest is the remembered one, or that of a file that is still there. -/
def onRemoved (d : Detector) (digests : Digests) (path : String) (isDir isRename : Bool)
    (cookie : Option Nat) (now : Nat) : Detector :=
  let (memory, remembered) := d.memory.take path now
  let digest := match remembered with
    | some digest => some digest
    | none => if isDir then none else digests path
  { d with
    memory
    waiting := (d.waiting.discard path).push ⟨now, digest, isDir, path, isRename, cookie⟩ }

/-- A creation ends a removal that waits for it, or is new. In the same place it is a change. -/
def onCreated (d : Detector) (digests : Digests) (path : String) (isDir : Bool) (now : Nat) :
    Detection :=
  let (d, digest) := if isDir then (d, none) else d.remember digests path now
  match d.waiting.claim path isDir digest with
  | some (r, signal, waiting) =>
      let d := { d with waiting }
      if r.path = path then d.emit (.modified path) else d.emitMove r.path path isDir signal
  | none => d.emit (.created path)

/-- A change in a file. -/
def onModified (d : Detector) (digests : Digests) (path : String) (now : Nat) : Detection :=
  (d.remember digests path now).1.emit (.modified path)

/-- Both ends of a rename, unless its halves have been paired. -/
def onRenamed (d : Detector) (source : String) (isDir : Bool) (target : String)
    (cookie : Option Nat) (now : Nat) : Detection :=
  match cookie.filter d.paired.contains with
  | some c => ({ d with paired := d.paired.erase c } : Detector).quiet
  | none =>
      let (memory, digest) := d.memory.take source now
      let memory := match digest with
        | some digest => memory.insert target digest now
        | none => memory
      ({ d with waiting := d.waiting.discard source, memory } : Detector).emitMove
        source target isDir .rename

/-- The second half of a rename. Without a first one it is a creation. -/
def onRenamedTo (d : Detector) (digests : Digests) (isDir : Bool) (path : String)
    (cookie : Option Nat) (now : Nat) : Detection :=
  match d.waiting.claimHalf cookie now with
  | none => d.onCreated digests path isDir now
  | some (half, waiting) =>
      let paired := match cookie with
        | some c => d.paired.insert c now
        | none => d.paired
      let d := { d with waiting, paired }
      let d := if isDir then d else (d.remember digests path now).1
      d.emitMove half.path path (isDir || half.isDir) .rename

/-- What an event leads to by itself. -/
def react (d : Detector) (digests : Digests) (event : RawEvent) (now : Nat) : Detection :=
  match event with
  | .created isDir path => d.onCreated digests path isDir now
  | .modified path => d.onModified digests path now
  | .removed isDir path => (d.onRemoved digests path isDir false none now).quiet
  | .renamed source isDir target cookie => d.onRenamed source isDir target cookie now
  | .renamedFrom path cookie => (d.onRemoved digests path false true cookie now).quiet
  | .renamedTo isDir path cookie => d.onRenamedTo digests isDir path cookie now

/-- What an event leads to, behind the deletions that are due. -/
def handle (d : Detector) (digests : Digests) (event : RawEvent) (now : Nat) : Detection :=
  let (d, due) := d.expire now
  let own := d.react digests event now
  { own with operations := due ++ own.operations }

end Detector

end LinkKeeper
