import LinkKeeper.Notification
import LinkKeeper.Upkeep

/-!
# Watching a tree

A session is a keeper together with what it takes to watch: the detector that tells
moves from deletions, and the cookies of its own revisions. What is reported about the
tree goes through it in order: notifications become events, events become operations,
and each operation is answered before the next event is looked at.
-/

namespace LinkKeeper

/-- A keeper that watches. -/
structure Session where
  keeper : Keeper
  detector : Detector
  suppressed : Suppressed

/-- What came of a notification. -/
structure Response where
  raw : List RawEvent
  operations : List Operation
  reports : List OperationReport

namespace Session

/-- The session of a keeper that has seen nothing. -/
def make (k : Keeper) : Session := ⟨k, .make k.project.settings, []⟩

/-- Replaces the tree, as it changes by itself. -/
def withTree (s : Session) (tree : FileTree) : Session := { s with keeper := { s.keeper with tree } }

/-- The digests of files as they are now. -/
def digests (s : Session) : Digests := fun path =>
  s.keeper.tree.digest? (s.keeper.locate path) s.keeper.project.settings.digestLimit

/-- The operations that an event leads to. -/
def handle (s : Session) (event : RawEvent) (now : Nat) : Session × List Operation :=
  let d := s.detector.handle s.digests event now
  ({ s with detector := d.detector, keeper := d.log.foldl Keeper.note s.keeper }, d.operations)

/-- The deletions that are due. -/
def expire (s : Session) (now : Nat) : Session × List Operation :=
  let (detector, operations) := s.detector.expire now
  ({ s with detector }, operations)

/-- Every deletion that is still open. -/
def flush (s : Session) : Session × List Operation :=
  let (detector, operations) := s.detector.flush
  ({ s with detector }, operations)

/-- Answers operations in order. -/
def answer (s : Session) : List Operation → Session × List OperationReport
  | [] => (s, [])
  | op :: ops =>
      let (keeper, report) := s.keeper.apply op
      let (s, reports) := answer { s with keeper } ops
      (s, report :: reports)

/-- The events of a notification. -/
def receive (s : Session) (n : Notification) : Session × List RawEvent :=
  let (raw, suppressed) :=
    ({ project := s.keeper.project, tree := s.keeper.tree, suppressed := s.suppressed : Ingress }).receive n
  ({ s with suppressed }, raw)

/-- Handles events in order, and answers their operations as they come. -/
def dispatch (s : Session) (now : Nat) : List RawEvent → Session × Response
  | [] => (s, ⟨[], [], []⟩)
  | event :: events =>
      let (s, operations) := s.handle event now
      let (s, reports) := s.answer operations
      let (s, rest) := dispatch s now events
      (s, ⟨event :: rest.raw, operations ++ rest.operations, reports ++ rest.reports⟩)

/-- Takes a notification all the way. -/
def notify (s : Session) (n : Notification) (now : Nat) : Session × Response :=
  let (s, raw) := s.receive n
  s.dispatch now raw

/-- Takes notifications all the way, one after the other. Every event has a time of its own. -/
def drain (s : Session) (now : Nat) : List Notification → Session
  | [] => s
  | n :: rest =>
      let (s, raw) := s.receive n
      let (s, now) := raw.foldl (fun (s, now) event => ((s.dispatch now [event]).1, now + 1)) (s, now)
      drain s now rest

/-- Answers the deletions that are due. -/
def settle (s : Session) (now : Nat) : Session :=
  let (s, operations) := s.expire now
  (s.answer operations).1

/-- Answers every deletion that is still open. -/
def close (s : Session) : Session :=
  let (s, operations) := s.flush
  (s.answer operations).1

end Session

end LinkKeeper
