import LinkKeeper.Proofs.OwnWrites
import LinkKeeper.Proofs.Sightings
import LinkKeeper.Session

/-!
# What the watcher speaks of

Whatever the system reports, the operations that come of it are about paths below the root that
are not passed over. Each end of a report is looked at when it comes in, but its path may be
spoken of much later, with that of another report: a removal waits, and is then paired with
what has appeared.

So two things are kept. An event names paths that have been admitted, and no others. And the
removals that wait have come from events, so that an operation, which names the paths of an
event and of removals, names admitted ones. A report of which no end is admitted is no event,
and leaves the detector alone altogether.
-/

namespace LinkKeeper

/-- A path that the library speaks of: one below the root that is not passed over. -/
structure Project.Admits (p : Project) (path : String) : Prop where
  proper : Path.Proper path
  heeded : p.ignores path = false

/-- The paths that an event is about. -/
def RawEvent.paths : RawEvent → List String
  | created _ path | modified path | removed _ path => [path]
  | renamed source _ target _ => [source, target]
  | renamedFrom path _ | renamedTo _ path _ => [path]

/-- The paths that an operation is about. -/
def Operation.paths : Operation → List String
  | created path | deleted path | modified path => [path]
  | moved source target | directoryMoved source target => [source, target]

/-! ## What comes in -/

namespace Ingress

variable {g : Ingress} {n : Notification} {location path : String} {event : RawEvent}

theorem admits_of_accept (h : g.accept location = some path) : g.project.Admits path := by
  obtain ⟨hpath, hkept⟩ := Option.filter_eq_some_iff.mp h
  obtain ⟨hnormal, hinside⟩ := Path.normal_of_fromRoot? hpath
  rw [Bool.and_eq_true, Bool.not_eq_true', Bool.not_eq_true'] at hkept
  refine ⟨⟨hnormal, ?_, hinside⟩, hkept.2⟩
  rintro rfl
  exact absurd hkept.1 (by decide)

/-- An event is about paths that have been accepted, and about one at least. -/
def Accepted (g : Ingress) (locations : List String) (event : RawEvent) : Prop :=
  event.paths ≠ [] ∧ ∀ path ∈ event.paths, ∃ location ∈ locations, g.accept location = some path

theorem accepted_single {locations : List String} (hin : location ∈ locations)
    (haccept : g.accept location = some path) (hpaths : event.paths = [path]) :
    g.Accepted locations event := by
  rw [Accepted, hpaths]
  refine ⟨by simp, fun other hother => ⟨location, hin, ?_⟩⟩
  rw [List.mem_singleton.mp hother, haccept]

theorem paths_arrival (g : Ingress) (source target path : String) :
    (g.arrival source target path).paths = [path] := by
  unfold arrival
  split <;> rfl

theorem accepted_renamedBoth {source target : String} {cookie : Option Nat}
    {locations : List String} (hsource : source ∈ locations) (htarget : target ∈ locations)
    (h : event ∈ g.renamedBoth source target cookie) : g.Accepted locations event := by
  unfold renamedBoth at h
  split at h
  case h_1 path place hpath hplace =>
    rw [List.mem_singleton.mp h]
    refine ⟨by simp [RawEvent.paths], fun other hother => ?_⟩
    rcases List.mem_pair.mp hother with rfl | rfl
    · exact ⟨source, hsource, hpath⟩
    · exact ⟨target, htarget, hplace⟩
  case h_2 path hpath _ =>
    rw [List.mem_singleton.mp h]
    exact accepted_single hsource hpath rfl
  case h_3 place _ hplace =>
    rw [List.mem_singleton.mp h]
    exact accepted_single htarget hplace (g.paths_arrival source target place)
  case h_4 => exact absurd h List.not_mem_nil

/-- What is heard of a rename: nothing, one end that is accepted, or both ends. -/
theorem accepted_rename (g : Ingress) (ends : RenameEnds) (locations : List String)
    (cookie : Option Nat) :
    ∀ event ∈ (g.rename ends locations cookie).1, g.Accepted locations event := by
  fun_cases rename g ends locations cookie
  case case3 first second rest _ =>
    exact fun event h => accepted_renamedBoth (by simp) (by simp) h
  case case5 first rest path haccept | case8 first rest path haccept _
      | case9 first rest path haccept _ | case10 first rest path haccept _
      | case11 first rest path haccept _ | case12 first rest path haccept _
      | case13 first rest path haccept _ =>
    exact List.forall_mem_singleton.mpr (accepted_single List.mem_cons_self haccept rfl)
  all_goals exact fun event h => absurd h List.not_mem_nil

theorem accepted_filterMap {make : String → String → RawEvent} {locations all : List String}
    (hmake : ∀ location path, (make location path).paths = [path]) (hsub : locations ⊆ all)
    (h : event ∈ locations.filterMap fun location => (g.accept location).map (make location)) :
    g.Accepted all event := by
  obtain ⟨location, hin, hmap⟩ := List.mem_filterMap.mp h
  obtain ⟨path, haccept, rfl⟩ := Option.map_eq_some_iff.mp hmap
  exact accepted_single (hsub hin) haccept (hmake location path)

/-- **What is heard of a notification is about locations that it names and that are accepted.** -/
theorem accepted_receive (h : event ∈ (g.receive n).1) : g.Accepted n.locations event := by
  unfold receive at h
  split at h
  case h_1 => exact accepted_filterMap (fun _ _ => rfl) (List.Subset.refl _) h
  case h_2 => exact accepted_filterMap (fun _ _ => rfl) List.filter_sublist.subset h
  case h_3 => exact accepted_filterMap (fun _ _ => rfl) (List.Subset.refl _) h
  case h_4 => exact g.accepted_rename _ _ _ event h
  case h_5 | h_6 => exact absurd h List.not_mem_nil

theorem Accepted.admits {locations : List String} (h : g.Accepted locations event) :
    ∀ path ∈ event.paths, g.project.Admits path := by
  intro path hpath
  obtain ⟨location, -, haccept⟩ := h.2 path hpath
  exact admits_of_accept haccept

/-- Nothing is heard of a notification of which no end is accepted. -/
theorem receive_fst_eq_nil (h : ∀ location ∈ n.locations, g.accept location = none) :
    (g.receive n).1 = [] := by
  refine List.eq_nil_iff_forall_not_mem.mpr fun event hevent => ?_
  obtain ⟨hsome, hpaths⟩ := accepted_receive hevent
  obtain ⟨path, hpath⟩ := List.exists_mem_of_ne_nil _ hsome
  obtain ⟨location, hin, haccept⟩ := hpaths path hpath
  rw [h location hin] at haccept
  exact absurd haccept (by simp)

end Ingress

/-! ## What comes out -/

namespace Detector

open Waiting (Valid)

variable {d : Detector} {digests : Digests} {event : RawEvent} {now : Nat} {path : String}
  {p : Project}

/-- The operations of an event are about its own paths and those of removals that waited. -/
def Speaks (d : Detector) (event : RawEvent) (done : Detection) : Prop :=
  ∀ op ∈ done.operations, ∀ path ∈ op.paths,
    path ∈ event.paths ∨ ∃ r ∈ d.waiting.all, r.path = path

theorem speaks_single {done : Detection} {op : Operation} (hops : done.operations = [op])
    (h : ∀ path ∈ op.paths, path ∈ event.paths ∨ ∃ r ∈ d.waiting.all, r.path = path) :
    d.Speaks event done := by
  intro other hother
  rw [hops] at hother
  rw [List.mem_singleton.mp hother]
  exact h

theorem paths_move (source target : String) (isDir : Bool) :
    (if isDir then Operation.directoryMoved source target else .moved source target).paths =
      [source, target] := by
  cases isDir <;> rfl

theorem speaks_onCreated (h : d.waiting.Valid) {isDir : Bool} (hpath : path ∈ event.paths) :
    d.Speaks event (d.onCreated digests path isDir now) := by
  have hown : ∀ other ∈ [path], other ∈ event.paths ∨ ∃ r ∈ d.waiting.all, r.path = other :=
    List.forall_mem_singleton.mpr (.inl hpath)
  rcases d.onCreated_cases digests path isDir now with
    ⟨s, signal, after, hclaim, -, hops⟩ | ⟨-, -, hops⟩
  · have hs : s ∈ d.waiting.all := (h.mem_named.mp (h.claim hclaim).2.1).1
    refine speaks_single hops ?_
    split
    · exact hown
    · rw [paths_move, List.forall_mem_cons]
      exact ⟨.inr ⟨s, hs, rfl⟩, hown⟩
  · exact speaks_single hops hown

theorem speaks_onRenamed {source target : String} {isDir : Bool} {cookie : Option Nat}
    (hsource : source ∈ event.paths) (htarget : target ∈ event.paths) :
    d.Speaks event (d.onRenamed source isDir target cookie now) := by
  unfold onRenamed
  split
  · exact fun op hop => absurd hop List.not_mem_nil
  · refine speaks_single rfl ?_
    rw [paths_move, List.forall_mem_cons, List.forall_mem_singleton]
    exact ⟨.inl hsource, .inl htarget⟩

theorem speaks_onRenamedTo (h : d.waiting.Valid) {isDir : Bool} {cookie : Option Nat}
    (hpath : path ∈ event.paths) :
    d.Speaks event (d.onRenamedTo digests isDir path cookie now) := by
  unfold onRenamedTo
  split
  · exact speaks_onCreated h hpath
  · rename_i half after hclaim
    refine speaks_single rfl ?_
    rw [paths_move, List.forall_mem_cons, List.forall_mem_singleton]
    exact ⟨.inr ⟨half, (h.claimHalf hclaim).2.1, rfl⟩, .inl hpath⟩

/-- **What an event leads to is about its own paths and those of removals that waited.** -/
theorem speaks_react (h : d.waiting.Valid) (digests : Digests) (event : RawEvent) (now : Nat) :
    d.Speaks event (d.react digests event now) := by
  cases event with
  | created isDir path => exact speaks_onCreated h List.mem_cons_self
  | modified path => exact speaks_single rfl (List.forall_mem_singleton.mpr (.inl List.mem_cons_self))
  | removed isDir path => exact fun op hop => absurd hop List.not_mem_nil
  | renamed source isDir target cookie =>
      exact speaks_onRenamed List.mem_cons_self (List.mem_cons_of_mem _ List.mem_cons_self)
  | renamedFrom path cookie => exact fun op hop => absurd hop List.not_mem_nil
  | renamedTo isDir path cookie => exact speaks_onRenamedTo h List.mem_cons_self

theorem mem_paths_of_removes (h : event.removes path = true) : path ∈ event.paths := by
  cases event <;> simp_all [RawEvent.removes, RawEvent.paths]

/-- The buckets are in order, and what waits in them has been admitted. -/
structure Heeds (d : Detector) (p : Project) : Prop where
  valid : d.waiting.Valid
  admits : ∀ r ∈ d.waiting.all, p.Admits r.path

/-- The paths that a detector is told of. -/
def Step.paths : Step → List String
  | handle _ event _ => event.paths
  | expire _ | flush => []

theorem heeds_make (p : Project) (settings : Settings) : (make settings).Heeds p :=
  ⟨Waiting.valid_empty, by simp [make]⟩

/-- The deletions that are due are of removals that waited. -/
theorem Heeds.due (h : d.Heeds p) {op : Operation} (hop : op ∈ (d.expire now).2) :
    ∀ path ∈ op.paths, p.Admits path := by
  obtain ⟨r, hr, -, rfl⟩ := mem_due.mp hop
  exact List.forall_mem_singleton.mpr (h.admits r hr)

/-- **One step keeps to admitted paths.** -/
theorem Heeds.step (h : d.Heeds p) {s : Step} (hs : ∀ path ∈ s.paths, p.Admits path) :
    (d.step s).1.Heeds p ∧ ∀ op ∈ (d.step s).2, ∀ path ∈ op.paths, p.Admits path := by
  refine ⟨⟨valid_step h.valid s, fun r hr => ?_⟩, fun op hop path hpath => ?_⟩
  · cases s with
    | handle digests event now =>
        -- what waits has waited before, or has just been removed
        have htreats := (proceeds_react (valid_expire h.valid now) digests event now).treats
        rcases htreats.mem hr with hmem | ⟨hremoves, -⟩
        · exact h.admits r (mem_expire.mp hmem).1
        · exact hs r.path (mem_paths_of_removes hremoves)
    | expire now => exact h.admits r (mem_expire.mp hr).1
    | flush => exact absurd hr List.not_mem_nil
  · cases s with
    | handle digests event now =>
        rcases List.mem_append.mp hop with hdue | hown
        · exact h.due hdue path hpath
        · have hvalid := valid_expire h.valid now
          rcases speaks_react hvalid digests event now op hown path hpath with hin | ⟨r, hr, rfl⟩
          · exact hs path hin
          · exact h.admits r (mem_expire.mp hr).1
    | expire now => exact h.due hop path hpath
    | flush =>
        obtain ⟨r, hr, rfl⟩ := List.mem_map.mp hop
        rw [List.mem_singleton.mp hpath]
        exact h.admits r (Waiting.mem_inOrder.mp hr)

theorem Heeds.steps (h : d.Heeds p) {told : List Step}
    (htold : ∀ s ∈ told, ∀ path ∈ s.paths, p.Admits path) :
    (d.steps told).1.Heeds p ∧ ∀ op ∈ (d.steps told).2, ∀ path ∈ op.paths, p.Admits path := by
  induction told generalizing d with
  | nil => exact ⟨h, fun op hop => absurd hop List.not_mem_nil⟩
  | cons s rest ih =>
      obtain ⟨hnext, hops⟩ := h.step (htold s List.mem_cons_self)
      obtain ⟨hend, hlater⟩ := ih hnext fun t ht => htold t (List.mem_cons_of_mem s ht)
      refine ⟨hend, fun op hop => ?_⟩
      exact (List.mem_append.mp hop).elim (hops op) (hlater op)

end Detector

/-! ## From one end to the other -/

/-- What is kept between notifications: what has been detected, and the cookies remembered. -/
structure Watch where
  detector : Detector
  suppressed : Suppressed

/-- Something that a watcher is told, with what it can see then. -/
inductive Signal where
  /--
  A notification. Its events come one by one, each at its own time and with the digests of then.
  -/
  | notice (tree : FileTree) (n : Notification) (digests : Nat → Digests) (now : Nat → Nat)
  | tick (now : Nat)
  | close

namespace Watch

variable {p : Project} {w : Watch}

/-- A watcher that has been told nothing. -/
def start (p : Project) : Watch := ⟨.make p.settings, []⟩

/-- The place where the next notification comes in. -/
def ingress (p : Project) (w : Watch) (tree : FileTree) : Ingress := ⟨p, tree, w.suppressed⟩

/-- What the detector is told of events. -/
def toldOf (digests : Nat → Digests) (now : Nat → Nat) (events : List RawEvent) :
    List Detector.Step :=
  events.mapIdx fun i event => .handle (digests i) event (now i)

/-- What one signal leads to. -/
def hear (p : Project) (w : Watch) : Signal → Watch × List Operation
  | .notice tree n digests now =>
      let heard := (w.ingress p tree).receive n
      let done := w.detector.steps (toldOf digests now heard.1)
      (⟨done.1, heard.2⟩, done.2)
  | .tick now => (⟨(w.detector.expire now).1, w.suppressed⟩, (w.detector.expire now).2)
  | .close => (⟨w.detector.flush.1, w.suppressed⟩, w.detector.flush.2)

/-- What signals lead to, one after the other. -/
def hearAll (p : Project) (w : Watch) : List Signal → Watch × List Operation
  | [] => (w, [])
  | signal :: rest =>
      (((w.hear p signal).1.hearAll p rest).1,
        (w.hear p signal).2 ++ ((w.hear p signal).1.hearAll p rest).2)

/-- One signal leads to operations about admitted paths. -/
theorem admits_hear (h : w.detector.Heeds p) (signal : Signal) :
    (w.hear p signal).1.detector.Heeds p ∧
      ∀ op ∈ (w.hear p signal).2, ∀ path ∈ op.paths, p.Admits path := by
  cases signal with
  | notice tree n digests now =>
      -- the detector is told of events only, each about accepted locations
      refine h.steps fun s hs path hpath => ?_
      obtain ⟨i, hi, rfl⟩ := List.mem_mapIdx.mp hs
      exact (Ingress.accepted_receive (List.getElem_mem hi)).admits path hpath
  | tick now => exact h.step (s := .expire now) (by simp [Detector.Step.paths])
  | close => exact h.step (s := .flush) (by simp [Detector.Step.paths])

theorem admits_hearAll_of (h : w.detector.Heeds p) (signals : List Signal) :
    ∀ op ∈ (w.hearAll p signals).2, ∀ path ∈ op.paths, p.Admits path := by
  induction signals generalizing w with
  | nil => exact fun op hop => absurd hop List.not_mem_nil
  | cons signal rest ih =>
      obtain ⟨hnext, hops⟩ := admits_hear h signal
      exact fun op hop => (List.mem_append.mp hop).elim (hops op) (ih hnext op)

/--
**The watcher speaks of admitted paths only.**

Whatever notifications, ticks of the clock and shutdowns come, and whatever is in the tree then,
each path of each operation names something below the root that is not passed over. And a
notification of which no end is accepted is as if it had not come: nothing is detected, nothing
that waits is touched, and no deletion becomes due. Only a cookie may be remembered or forgotten.
-/
theorem admits_hearAll (p : Project) (signals : List Signal) :
    (∀ op ∈ ((start p).hearAll p signals).2, ∀ path ∈ op.paths, p.Admits path) ∧
    ∀ (w : Watch) (tree : FileTree) (n : Notification) (digests : Nat → Digests)
      (now : Nat → Nat), (∀ location ∈ n.locations, (w.ingress p tree).accept location = none) →
      w.hear p (.notice tree n digests now) =
        (⟨w.detector, ((w.ingress p tree).recollection n).after w.suppressed⟩, []) := by
  refine ⟨admits_hearAll_of (Detector.heeds_make p p.settings) signals,
    fun w tree n digests now hnone => ?_⟩
  simp only [hear]
  rw [Ingress.receive_fst_eq_nil hnone, Ingress.receive_snd]
  rfl

/-- Files are removed in the tree and elsewhere, and something comes from an ignored directory. -/
def comings : List Signal :=
  [.notice .empty ⟨.removed false, ["/p/.git/b.md", "/q/c.md", "/p/../d.md", "/p/a.md"], none⟩
      (fun _ _ => none) (fun _ => 0),
    .notice .empty ⟨.renamed .both, ["/p/.git/a.md", "/p/e/a.md"], some 1⟩
      (fun _ _ => none) (fun _ => 1)]

/--
It is heard of as a move in the tree; of a temporary file that leaves only the cookie is kept.
-/
theorem admits_hearAll_comings :
    ((∀ op ∈ ((start (.make "/p" .defaults)).hearAll (.make "/p" .defaults) comings).2,
        ∀ path ∈ op.paths, (Project.make "/p" .defaults).Admits path) ∧
      ((start (.make "/p" .defaults)).hearAll (.make "/p" .defaults) comings).2 =
        [.moved "a.md" "e/a.md"]) ∧
    (start (.make "/p" .defaults)).hear (.make "/p" .defaults)
        (.notice .empty ⟨.renamed .source, ["/p/.linkmend-1.tmp"], some 7⟩
          (fun _ _ => none) (fun _ => 0)) =
      (⟨.make .defaults, [7]⟩, []) := by
  have hall := admits_hearAll (.make "/p" .defaults) comings
  refine ⟨⟨hall.1, by decide +kernel⟩, ?_⟩
  rw [hall.2 _ _ _ _ _ (by decide +kernel)]
  have hlearns : (((start (.make "/p" .defaults)).ingress (.make "/p" .defaults) .empty).recollection
      ⟨.renamed .source, ["/p/.linkmend-1.tmp"], some 7⟩).after
        (start (.make "/p" .defaults)).suppressed = [7] := by decide +kernel
  rw [hlearns]
  rfl

end Watch

/-! ## Sessions -/

namespace Session

/-- Answering operations is up to the keeper alone. -/
theorem answer_keeps (s : Session) (ops : List Operation) :
    (s.answer ops).1.detector = s.detector ∧ (s.answer ops).1.suppressed = s.suppressed := by
  induction ops generalizing s with
  | nil => exact ⟨rfl, rfl⟩
  | cons op rest ih => exact ih { s with keeper := (s.keeper.apply op).1 }

/-- What a session knows of the files changes from event to event, as it answers them. -/
theorem exists_dispatch (s : Session) (now : Nat) (events : List RawEvent) :
    ∃ digests : Nat → Digests,
      s.detector.steps (Watch.toldOf digests (fun _ => now) events) =
          ((s.dispatch now events).1.detector, (s.dispatch now events).2.operations) ∧
        (s.dispatch now events).1.suppressed = s.suppressed := by
  induction events generalizing s with
  | nil => exact ⟨fun _ _ => none, rfl, rfl⟩
  | cons event rest ih =>
      obtain ⟨hdetector, hsuppressed⟩ := answer_keeps (s.handle event now).1 (s.handle event now).2
      obtain ⟨later, hsteps, hkept⟩ := ih ((s.handle event now).1.answer (s.handle event now).2).1
      rw [hdetector] at hsteps
      -- the first event sees the files as they are, the others as the answers have left them
      refine ⟨fun i => i.casesOn s.digests later, ?_, hkept.trans hsuppressed⟩
      obtain ⟨hnext, hops⟩ := Prod.mk.inj hsteps
      rw [Watch.toldOf, List.mapIdx_cons]
      exact Prod.ext hnext (congrArg ((s.handle event now).2 ++ ·) hops)

/-- A session is a watcher that answers as it hears. -/
theorem exists_notify (s : Session) (n : Notification) (now : Nat) :
    ∃ digests : Nat → Digests,
      (⟨s.detector, s.suppressed⟩ : Watch).hear s.keeper.project
          (.notice s.keeper.tree n digests fun _ => now) =
        (⟨(s.notify n now).1.detector, (s.notify n now).1.suppressed⟩,
          (s.notify n now).2.operations) := by
  obtain ⟨digests, hsteps, hkept⟩ := (s.receive n).1.exists_dispatch now (s.receive n).2
  obtain ⟨hnext, hops⟩ := Prod.mk.inj hsteps
  exact ⟨digests, Prod.ext (congrArg₂ Watch.mk hnext hkept.symm) hops⟩

end Session

end LinkKeeper
