import LinkKeeper.Proofs.Waiting

/-!
# What becomes of a removal

A removal waits until it is known what it was. Then it is answered by one operation: by a
deletion when nobody came for it in time, by a move when its path has turned up somewhere
else, by a change when it has turned up in place. Only a newer removal of the same path
takes its place without an answer.

`Treats` says all that an event can do to the removals that wait, and `Fate` what that
means for one of them. Neither depends on which removal a creation is matched with.
-/

namespace LinkKeeper

namespace RawEvent

/-- Whether an event makes a removal of a path wait. -/
def removes (path : String) : RawEvent → Bool
  | removed _ p | renamedFrom p _ => p == path
  | created _ _ | modified _ | renamed _ _ _ _ | renamedTo _ _ _ => false

/-- Whether an event says that a path has appeared. -/
def creates (path : String) : RawEvent → Bool
  | created _ p | renamedTo _ p _ => p == path
  | modified _ | removed _ _ | renamed _ _ _ _ | renamedFrom _ _ => false

end RawEvent

/--
Whether an operation says what became of a removal, given the event that it came with. A removal
that is over becomes a deletion; any other has turned up, in another place or in its own.
-/
def Operation.accountsFor (event : RawEvent) (isOver : Bool) (r : Removal) : Operation → Bool
  | deleted path => isOver && path == r.path
  | moved source _ | directoryMoved source _ => !isOver && source == r.path
  | modified path => !isOver && path == r.path && event.creates path
  | created _ => false

theorem Operation.path_eq_of_accountsFor {op : Operation} {event : RawEvent} {isOver : Bool}
    {r s : Removal} (hr : op.accountsFor event isOver r = true)
    (hs : op.accountsFor event isOver s = true) : r.path = s.path := by
  cases op <;> simp_all [accountsFor]

namespace Detector

open Waiting (Valid)

variable {d : Detector} {digests : Digests} {event : RawEvent} {now : Nat} {r s : Removal}
  {path : String} {settings : Settings}

/-- The detectors that come of events, ticks of the clock and shutdowns, in any order and at any times. -/
inductive Run (settings : Settings) : Detector → Prop where
  | make : Run settings (make settings)
  | handle {d : Detector} (h : Run settings d) (digests : Digests) (event : RawEvent) (now : Nat) :
      Run settings (d.handle digests event now).detector
  | expire {d : Detector} (h : Run settings d) (now : Nat) : Run settings (d.expire now).1
  | flush {d : Detector} (h : Run settings d) : Run settings d.flush.1

/-! ## Events -/

/-- What an event does to the removals that wait. -/
inductive Treats (d : Detector) (event : RawEvent) (now : Nat) (done : Detection) : Prop where
  /-- They all go on waiting, and no operation is for one of them. -/
  | spares (hall : ∀ r, r ∈ done.detector.waiting.all ↔ r ∈ d.waiting.all)
      (hops : ∀ r ∈ d.waiting.all, ∀ op ∈ done.operations, op.accountsFor event false r = false)
  /-- One of them is taken out, and one operation says what became of it. -/
  | ends (s : Removal) (op : Operation) (hs : s ∈ d.waiting.all)
      (hop : done.operations = [op]) (haccounts : op.accountsFor event false s = true)
      (hall : ∀ r, r ∈ done.detector.waiting.all ↔ r ∈ d.waiting.all ∧ r ≠ s)
  /-- A new one waits, in the place of one of the same path if there was one. -/
  | renews (s : Removal) (hremoves : event.removes s.path = true) (hsince : s.since = now)
      (hops : done.operations = [])
      (hall : ∀ r, r ∈ done.detector.waiting.all ↔ (r ∈ d.waiting.all ∧ r.path ≠ s.path) ∨ r = s)

/-- An event keeps the buckets in order and deletes nothing; removals it treats as `Treats` says. -/
structure Proceeds (d : Detector) (event : RawEvent) (now : Nat) (done : Detection) : Prop where
  valid : done.detector.waiting.Valid
  treats : d.Treats event now done
  deletesNone : ∀ path, .deleted path ∉ done.operations

@[simp] theorem waiting_remember (d : Detector) (digests : Digests) (path : String) (now : Nat) :
    (d.remember digests path now).1.waiting = d.waiting := by
  unfold remember
  split <;> rfl

theorem accountsFor_move {source target : String} {isDir : Bool} :
    (if isDir then Operation.directoryMoved source target else .moved source target).accountsFor
      event false r = (source == r.path) := by
  cases isDir <;> rfl

theorem not_deleted_move {source target : String} {isDir : Bool} :
    .deleted path ∉ [if isDir then Operation.directoryMoved source target
      else .moved source target] := by
  cases isDir <;> simp

theorem proceeds_onRemoved (h : d.waiting.Valid) {isDir isRename : Bool} {cookie : Option Nat}
    (hremoves : event.removes path = true) :
    d.Proceeds event now (d.onRemoved digests path isDir isRename cookie now).quiet := by
  have hrest := h.discard path
  unfold onRemoved
  dsimp only [quiet]
  generalize hs : Removal.mk now _ isDir path isRename cookie = s
  have hpath : s.path = path := by rw [← hs]
  refine ⟨?_, .renews s ?_ ?_ rfl fun r => ?_, fun _ => List.not_mem_nil⟩
  · refine hrest.push fun t ht => ?_
    rw [hpath]
    exact (h.mem_discard.mp ht).2
  · rw [hpath]
    exact hremoves
  · rw [← hs]
  · rw [hrest.mem_push, h.mem_discard, hpath]

/-- What a detector learns of the content of something that is created. -/
def digestOf (digests : Digests) (isDir : Bool) (path : String) : Option String :=
  if isDir then none else digests path

/-- A creation ends the removal that it claims, or else is new. -/
theorem onCreated_cases (d : Detector) (digests : Digests) (path : String) (isDir : Bool)
    (now : Nat) :
    (∃ r signal after,
      d.waiting.claim path isDir (digestOf digests isDir path) = some (r, signal, after) ∧
      (d.onCreated digests path isDir now).detector.waiting = after ∧
      (d.onCreated digests path isDir now).operations = [if r.path = path then .modified path
        else if isDir then .directoryMoved r.path path else .moved r.path path]) ∨
    (d.waiting.claim path isDir (digestOf digests isDir path) = none ∧
      (d.onCreated digests path isDir now).detector.waiting = d.waiting ∧
      (d.onCreated digests path isDir now).operations = [.created path]) := by
  unfold onCreated
  dsimp only
  generalize hpair : (if isDir then (d, none) else d.remember digests path now) = pair
  have hwaiting : pair.1.waiting = d.waiting := by
    rw [← hpair]
    split <;> simp
  have hdigest : pair.2 = digestOf digests isDir path := by
    rw [← hpair, digestOf]
    split
    · rfl
    · unfold remember
      split <;> simp [*]
  obtain ⟨next, digest⟩ := pair
  dsimp only at hwaiting hdigest ⊢
  rw [hwaiting, hdigest]
  cases hclaim : d.waiting.claim path isDir (digestOf digests isDir path) with
  | none => exact .inr ⟨rfl, hwaiting, rfl⟩
  | some claimed =>
      obtain ⟨r, signal, after⟩ := claimed
      refine .inl ⟨r, signal, after, rfl, ?_, ?_⟩
      · dsimp only
        split <;> rfl
      · dsimp only
        split <;> rfl

theorem proceeds_onCreated (h : d.waiting.Valid) {isDir : Bool}
    (hcreates : event.creates path = true) :
    d.Proceeds event now (d.onCreated digests path isDir now) := by
  rcases d.onCreated_cases digests path isDir now with
    ⟨s, signal, after, hclaim, rfl, hops⟩ | ⟨-, hwaiting, hops⟩
  · obtain ⟨hvalid, hs, hall⟩ := h.claim hclaim
    refine ⟨hvalid, .ends s _ (h.mem_named.mp hs).1 hops ?_ hall, fun _ => ?_⟩
    · split
      · rename_i hplace
        simp [Operation.accountsFor, hplace, hcreates]
      · rw [accountsFor_move, beq_iff_eq]
    · rw [hops]
      split
      · simp
      · exact not_deleted_move
  · refine ⟨by rw [hwaiting]; exact h, .spares (fun r => by rw [hwaiting]) ?_, by simp [hops]⟩
    intro r _ op hop
    obtain rfl : op = .created path := by simpa [hops] using hop
    rfl

theorem proceeds_onModified (h : d.waiting.Valid) (hcreates : event.creates path = false) :
    d.Proceeds event now (d.onModified digests path now) := by
  unfold onModified
  refine ⟨by simpa [emit] using h, .spares (fun r => by simp [emit]) ?_, by simp [emit]⟩
  intro r _ op hop
  obtain rfl : op = .modified path := by simpa [emit] using hop
  simp [Operation.accountsFor, hcreates]

/-- Taking out the removal of a path accounts for it, if there was one. -/
theorem proceeds_move_discarded (h : d.waiting.Valid) {target : String} {isDir : Bool}
    {done : Detection} (hwaiting : done.detector.waiting = d.waiting.discard path)
    (hops : done.operations = [if isDir then .directoryMoved path target else .moved path target]) :
    d.Proceeds event now done := by
  refine ⟨by rw [hwaiting]; exact h.discard path, ?_,
    fun _ => by rw [hops]; exact not_deleted_move⟩
  by_cases hthere : ∃ s ∈ d.waiting.all, s.path = path
  · obtain ⟨s, hs, rfl⟩ := hthere
    refine .ends s _ hs hops (by rw [accountsFor_move, beq_iff_eq]) fun r => ?_
    rw [hwaiting, h.mem_discard]
    refine and_congr_right fun hr => ⟨fun hne he => hne (by rw [he]), fun hne he => ?_⟩
    exact hne (h.eq_of_path hr hs he)
  · refine .spares (fun r => ?_) fun r hr op hop => ?_
    · rw [hwaiting, h.mem_discard]
      exact ⟨fun hr => hr.1, fun hr => ⟨hr, fun he => hthere ⟨r, hr, he⟩⟩⟩
    · rw [hops, List.mem_singleton] at hop
      rw [hop, accountsFor_move, beq_eq_false_iff_ne]
      exact fun he => hthere ⟨r, hr, he.symm⟩

theorem proceeds_onRenamed (h : d.waiting.Valid) {source target : String} {isDir : Bool}
    {cookie : Option Nat} :
    d.Proceeds event now (d.onRenamed source isDir target cookie now) := by
  unfold onRenamed
  split
  · exact ⟨h, .spares (fun _ => Iff.rfl) (by simp [quiet]), by simp [quiet]⟩
  · exact proceeds_move_discarded h rfl rfl

theorem proceeds_onRenamedTo (h : d.waiting.Valid) {isDir : Bool} {cookie : Option Nat}
    (hcreates : event.creates path = true) :
    d.Proceeds event now (d.onRenamedTo digests isDir path cookie now) := by
  unfold onRenamedTo
  split
  · exact proceeds_onCreated h hcreates
  · rename_i half after hclaim
    obtain ⟨hvalid, hhalf, hall⟩ := h.claimHalf hclaim
    dsimp only
    generalize hnext : (if isDir then _ else _ : Detector) = next
    have hwaiting : next.waiting = after := by
      rw [← hnext]
      split <;> simp
    refine ⟨by rw [emitMove, hwaiting]; exact hvalid, .ends half _ hhalf rfl ?_ ?_,
      fun _ => not_deleted_move⟩
    · rw [accountsFor_move, beq_iff_eq]
    · rw [emitMove, hwaiting]
      exact hall

/-- **What an event leads to by itself.** -/
theorem proceeds_react (h : d.waiting.Valid) (digests : Digests) (event : RawEvent) (now : Nat) :
    d.Proceeds event now (d.react digests event now) := by
  cases event with
  | created isDir path => exact proceeds_onCreated h (by simp [RawEvent.creates])
  | modified path => exact proceeds_onModified h rfl
  | removed isDir path => exact proceeds_onRemoved h (by simp [RawEvent.removes])
  | renamed source isDir target cookie => exact proceeds_onRenamed h
  | renamedFrom path cookie => exact proceeds_onRemoved h (by simp [RawEvent.removes])
  | renamedTo isDir path cookie => exact proceeds_onRenamedTo h (by simp [RawEvent.creates])

/-! ## Time -/

theorem valid_expire (h : d.waiting.Valid) (now : Nat) : (d.expire now).1.waiting.Valid :=
  h.keep _

theorem mem_expire : r ∈ (d.expire now).1.waiting.all ↔ r ∈ d.waiting.all ∧ d.isOver now r = false := by
  unfold expire
  rw [Waiting.mem_keep, Bool.not_eq_true']

theorem mem_due {op : Operation} : op ∈ (d.expire now).2 ↔
    ∃ r ∈ d.waiting.all, d.isOver now r = true ∧ op = .deleted r.path := by
  unfold expire
  simp only [List.mem_map, Waiting.mem_inOrder, List.mem_filter, deletion, and_assoc, eq_comm]

/-- Each deletion is said once. -/
theorem count_deletion (h : d.waiting.Valid) (hr : r ∈ d.waiting.all) {p : Removal → Bool}
    (hp : p r = true) :
    ((Waiting.inOrder (d.waiting.all.filter p)).map deletion).count (.deleted r.path) = 1 := by
  have hnodup : ((Waiting.inOrder (d.waiting.all.filter p)).map deletion).Nodup := by
    have hperm := (List.mergeSort_perm (d.waiting.all.filter p) Waiting.precedes).map deletion
    refine hperm.nodup_iff.mpr ?_
    have hpaths : ((d.waiting.all.filter p).map (·.path)).Nodup :=
      h.nodup_paths.sublist (List.filter_sublist.map _)
    have hmap : (d.waiting.all.filter p).map deletion =
        ((d.waiting.all.filter p).map (·.path)).map Operation.deleted := by
      rw [List.map_map]
      rfl
    rw [hmap]
    exact hpaths.map fun _ _ he => Operation.deleted.inj he
  refine List.count_eq_one_of_mem hnodup (List.mem_map.mpr ⟨r, ?_, rfl⟩)
  exact Waiting.mem_inOrder.mpr (List.mem_filter.mpr ⟨hr, hp⟩)

/-- Of the deletions that are due one is for a removal that is over, and none for another. -/
theorem count_due (h : d.waiting.Valid) (hr : r ∈ d.waiting.all) (now : Nat) :
    (d.expire now).2.count (.deleted r.path) = if d.isOver now r then 1 else 0 := by
  split
  · rename_i hover
    exact count_deletion h hr hover
  · rename_i hover
    refine List.count_eq_zero.mpr fun hmem => ?_
    obtain ⟨s, hs, hsover, he⟩ := mem_due.mp hmem
    rw [h.eq_of_path hs hr (Operation.deleted.inj he).symm] at hsover
    exact hover hsover

/-! ## One removal -/

/-- What becomes of a removal when an event is handled. -/
inductive Fate (d : Detector) (event : RawEvent) (now : Nat) (r : Removal) (done : Detection) :
    Prop where
  /-- It goes on waiting, and no operation is for it. -/
  | waits (hthere : r ∈ done.detector.waiting.all)
      (hnone : done.operations.countP (·.accountsFor event (d.isOver now r) r) = 0)
  /-- A newer one of its path waits in its place. -/
  | renewed (hremoves : event.removes r.path = true)
      (hnewer : ∃ s ∈ done.detector.waiting.all, s.path = r.path ∧ s.since = now)
      (hnone : done.operations.countP (·.accountsFor event (d.isOver now r) r) = 0)
  /-- It is gone, and exactly one operation says what it was. -/
  | answered (hgone : r ∉ done.detector.waiting.all)
      (hone : done.operations.countP (·.accountsFor event (d.isOver now r) r) = 1)

/-- What waits after an event waited before, or has just come. -/
theorem Treats.mem {done : Detection} (ht : d.Treats event now done)
    (hr : r ∈ done.detector.waiting.all) :
    r ∈ d.waiting.all ∨ (event.removes r.path = true ∧ r.since = now) := by
  cases ht with
  | spares hall hops => exact .inl ((hall r).mp hr)
  | ends s op hs hop haccounts hall => exact .inl ((hall r).mp hr).1
  | renews s hremoves hsince hops hall =>
      rcases (hall r).mp hr with hr | rfl
      · exact .inl hr.1
      · exact .inr ⟨hremoves, hsince⟩

/-- A removal that is not over when an event comes. -/
theorem Treats.fate {mid : Detector} {done : Detection} (ht : mid.Treats event now done)
    (h : mid.waiting.Valid) (hr : r ∈ mid.waiting.all) {all : List Operation}
    (hall : all.countP (·.accountsFor event (d.isOver now r) r) =
      done.operations.countP (·.accountsFor event false r)) :
    d.Fate event now r { done with operations := all } := by
  cases ht with
  | spares hmem hops =>
      refine .waits ((hmem r).mpr hr) (hall.trans (List.countP_eq_zero.mpr fun op hop => ?_))
      rw [hops r hr op hop]
      exact Bool.false_ne_true
  | ends s op hs hop haccounts hmem =>
      rw [hop, List.countP_singleton] at hall
      by_cases hsr : s = r
      · subst hsr
        rw [if_pos haccounts] at hall
        exact .answered (fun hthere => ((hmem s).mp hthere).2 rfl) hall
      · have hother : ¬ op.accountsFor event false r = true := fun hboth =>
          hsr (h.eq_of_path hs hr (Operation.path_eq_of_accountsFor haccounts hboth))
        rw [if_neg hother] at hall
        exact .waits ((hmem r).mpr ⟨hr, Ne.symm hsr⟩) hall
  | renews s hremoves hsince hops hmem =>
      rw [hops] at hall
      by_cases hpath : r.path = s.path
      · rw [← hpath] at hremoves
        exact .renewed hremoves ⟨s, (hmem s).mpr (.inr rfl), hpath.symm, hsince⟩ hall
      · exact .waits ((hmem r).mpr (.inl ⟨hr, hpath⟩)) hall

/-- Only a deletion accounts for a removal that is over. -/
theorem countP_accountsFor_over (ops : List Operation) (event : RawEvent) (r : Removal) :
    ops.countP (·.accountsFor event true r) = ops.count (.deleted r.path) := by
  refine List.countP_congr fun op _ => ?_
  cases op <;> simp [Operation.accountsFor]

theorem handle_eq (d : Detector) (digests : Digests) (event : RawEvent) (now : Nat) :
    d.handle digests event now =
      { (d.expire now).1.react digests event now with
        operations := (d.expire now).2 ++
          ((d.expire now).1.react digests event now).operations } := rfl

/-- **What becomes of a removal when an event is handled.** -/
theorem fate_handle (h : d.waiting.Valid) (hr : r ∈ d.waiting.all) (digests : Digests)
    (event : RawEvent) (now : Nat) : d.Fate event now r (d.handle digests event now) := by
  have hmid := valid_expire h now
  obtain ⟨-, htreats, hdeletes⟩ := proceeds_react hmid digests event now
  have hdue := count_due h hr now
  rw [handle_eq]
  cases hover : d.isOver now r with
  | false =>
      refine htreats.fate hmid (mem_expire.mpr ⟨hr, hover⟩) ?_
      -- what is due is for others
      have hothers : (d.expire now).2.countP (·.accountsFor event false r) = 0 := by
        refine List.countP_eq_zero.mpr fun op hop => ?_
        obtain ⟨s, -, -, rfl⟩ := mem_due.mp hop
        exact Bool.false_ne_true
      rw [hover, List.countP_append, hothers, Nat.zero_add]
  | true =>
      refine .answered (fun hthere => ?_) ?_
      · rcases htreats.mem hthere with hmem | ⟨-, hsince⟩
        · rw [(mem_expire.mp hmem).2] at hover
          exact absurd hover (by simp)
        · -- a removal that has just come is not over
          rw [isOver, hsince] at hover
          simp at hover
      · rw [hover, countP_accountsFor_over, List.count_append, hdue, hover,
          List.count_eq_zero.mpr (hdeletes r.path)]
        rfl

/-! ## Runs -/

/-- Whatever has happened, the buckets are in order. -/
theorem Run.valid (h : Run settings d) : d.waiting.Valid := by
  induction h with
  | make => exact Waiting.valid_empty
  | handle h digests event now ih => exact (proceeds_react (valid_expire ih now) digests event now).valid
  | expire h now ih => exact valid_expire ih now
  | flush h ih => exact Waiting.valid_empty

/-- A deletion is said of a removal that is over, when the event comes or when the clock ticks. -/
theorem deleted_mem_handle (h : d.waiting.Valid)
    (hmem : .deleted path ∈ (d.handle digests event now).operations) :
    .deleted path ∈ (d.expire now).2 := by
  have hdeletes := (proceeds_react (valid_expire h now) digests event now).deletesNone
  exact (List.mem_append.mp hmem).resolve_right (hdeletes path)

/--
**No removal is lost, and none is answered twice.**

Whatever has happened, a path has one waiting removal at most, it is in the bucket of its own
name, and no bucket is empty. When an event is handled each removal goes on waiting, or a newer
one of its path takes its place, or it is gone and exactly one operation says what it was. When
the clock ticks, those that are over are gone with one deletion each. A deletion is said only of
a path whose removal is gone with it. And a shutdown says one deletion for each removal that
still waits, and leaves none.
-/
theorem Run.removals_accounted (h : Run settings d) :
    ((d.waiting.all.map (·.path)).Nodup ∧
      (∀ name, ∀ r ∈ d.waiting.named name, Path.baseName r.path = name) ∧
      ∀ name : String, d.waiting[name]? ≠ some []) ∧
    (∀ digests event now, ∀ r ∈ d.waiting.all,
      d.Fate event now r (d.handle digests event now)) ∧
    (∀ now, ∀ r ∈ d.waiting.all,
      if d.isOver now r then
        r ∉ (d.expire now).1.waiting.all ∧ (d.expire now).2.count (.deleted r.path) = 1
      else r ∈ (d.expire now).1.waiting.all ∧ .deleted r.path ∉ (d.expire now).2) ∧
    (∀ digests event now path, .deleted path ∈ (d.handle digests event now).operations →
      ∃ r ∈ d.waiting.all, r.path = path ∧
        r ∉ (d.handle digests event now).detector.waiting.all) ∧
    (∀ now, ∀ op ∈ (d.expire now).2, ∃ r ∈ d.waiting.all, op = .deleted r.path ∧
      r ∉ (d.expire now).1.waiting.all) ∧
    (d.flush.1.waiting.all = [] ∧ d.flush.2.length = d.waiting.all.length ∧
      ∀ r ∈ d.waiting.all, d.flush.2.count (.deleted r.path) = 1) := by
  have hvalid := h.valid
  refine ⟨⟨hvalid.nodup_paths, hvalid.own, hvalid.nonempty⟩, fun digests event now r hr =>
    fate_handle hvalid hr digests event now, fun now r hr => ?_, fun digests event now path hmem => ?_,
    fun now op hop => ?_, rfl, ?_, fun r hr => ?_⟩
  · have hcount := count_due hvalid hr now
    split
    · rename_i hover
      rw [if_pos hover] at hcount
      refine ⟨fun hmem => ?_, hcount⟩
      rw [(mem_expire.mp hmem).2] at hover
      exact absurd hover (by simp)
    · rename_i hover
      rw [if_neg hover] at hcount
      exact ⟨mem_expire.mpr ⟨hr, Bool.not_eq_true _ ▸ hover⟩, List.count_eq_zero.mp hcount⟩
  · obtain ⟨r, hr, hover, he⟩ := mem_due.mp (deleted_mem_handle hvalid hmem)
    refine ⟨r, hr, (Operation.deleted.inj he).symm, fun hthere => ?_⟩
    have hone : ∀ n, (d.handle digests event now).operations.countP
        (·.accountsFor event (d.isOver now r) r) = n → n ≠ 0 := by
      rintro n rfl hzero
      rw [hover, countP_accountsFor_over, List.count_eq_zero, ← he] at hzero
      exact hzero hmem
    cases fate_handle hvalid hr digests event now with
    | waits _ hnone => exact hone _ hnone rfl
    | renewed _ _ hnone => exact hone _ hnone rfl
    | answered hgone _ => exact hgone hthere
  · obtain ⟨r, hr, hover, he⟩ := mem_due.mp hop
    refine ⟨r, hr, he, fun hmem => ?_⟩
    rw [(mem_expire.mp hmem).2] at hover
    exact absurd hover (by simp)
  · unfold Detector.flush
    rw [List.length_map]
    exact (List.mergeSort_perm _ _).length_eq
  · have hcount := count_deletion (p := fun _ => true) hvalid hr rfl
    rw [List.filter_true] at hcount
    exact hcount

/-- A detector that has seen a file go, and the first half of a rename of another one of its name. -/
def twoGone : Detector :=
  (((make .defaults).handle (fun _ => none) (.removed false "a/n.md") 0).detector.handle
    (fun _ => none) (.renamedFrom "b/n.md" (some 7)) 4000000000).detector

/-- The second half of the rename comes, or it does not and the first removal is over. -/
theorem removals_accounted_twoGone :
    Run .defaults twoGone ∧ twoGone.waiting.all.map (·.path) = ["a/n.md", "b/n.md"] ∧
    (∀ r ∈ twoGone.waiting.all, twoGone.Fate (.renamedTo false "c/m.md" (some 7)) 4000000001 r
      (twoGone.handle (fun _ => none) (.renamedTo false "c/m.md" (some 7)) 4000000001)) ∧
    (twoGone.handle (fun _ => none) (.renamedTo false "c/m.md" (some 7)) 4000000001).operations =
      [.moved "b/n.md" "c/m.md"] ∧
    (twoGone.handle (fun _ => none) (.created false "d/n.md") 6000000000).operations =
      [.deleted "a/n.md", .moved "b/n.md" "d/n.md"] := by
  have hrun : Run .defaults twoGone := (Run.make.handle _ _ _).handle _ _ _
  exact ⟨hrun, by decide +kernel, fun r hr => hrun.removals_accounted.2.1 _ _ _ r hr,
    by decide +kernel, by decide +kernel⟩

end Detector

end LinkKeeper
