import LinkKeeper.Proofs.Removals

/-!
# Paths that have been seen

An event may say of a path that it is there. What is there should not be reported as deleted
later, unless another event says that it has gone. Whether that holds is decided when the path
is seen: if no removal of it waits any more, no deletion of it can come, and if one does, the
next long pause brings it.

A path that appears by a creation ends its removal, if the two are matched with each other. One
that is changed does not, and neither does one that is the end of a rename: the file that has
taken the place of a removed one is reported as deleted when the removal is over.
-/

namespace LinkKeeper

namespace RawEvent

/-- Whether an event says of a path that it is there. -/
def shows (path : String) : RawEvent → Bool
  | created _ p | modified p | renamedTo _ p _ => p == path
  | renamed _ _ target _ => target == path
  | removed _ _ | renamedFrom _ _ => false

/-- Whether an event says of a path that it has gone. -/
def hides (path : String) : RawEvent → Bool
  | removed _ p | renamedFrom p _ => p == path
  | renamed source _ target _ => source == path && target != path
  | created _ _ | modified _ | renamedTo _ _ _ => false

end RawEvent

namespace Detector

variable {d : Detector} {digests : Digests} {event : RawEvent} {now : Nat} {r : Removal}
  {path : String} {settings : Settings}

/-- Something that a detector is told: an event, the time, or that it is to end. -/
inductive Step where
  | handle (digests : Digests) (event : RawEvent) (now : Nat)
  | expire (now : Nat)
  | flush

/-- Whether a step says of a path that it has gone. -/
def Step.hides (path : String) : Step → Bool
  | handle _ event _ => event.hides path
  | expire _ | flush => false

/-- What one step leads to. -/
def step (d : Detector) : Step → Detector × List Operation
  | .handle digests event now =>
      ((d.handle digests event now).detector, (d.handle digests event now).operations)
  | .expire now => d.expire now
  | .flush => d.flush

/-- What steps lead to, one after the other. -/
def steps (d : Detector) : List Step → Detector × List Operation
  | [] => (d, [])
  | s :: rest => (((d.step s).1.steps rest).1, (d.step s).2 ++ ((d.step s).1.steps rest).2)

/-- No removal of a path waits. -/
def Settled (d : Detector) (path : String) : Prop := ∀ r ∈ d.waiting.all, r.path ≠ path

theorem valid_step (h : d.waiting.Valid) (s : Step) : (d.step s).1.waiting.Valid := by
  cases s with
  | handle digests event now => exact (proceeds_react (valid_expire h now) digests event now).valid
  | expire now => exact valid_expire h now
  | flush => exact Waiting.valid_empty

theorem hides_of_removes (h : event.removes path = true) : event.hides path = true := by
  cases event <;> simp_all [RawEvent.removes, RawEvent.hides]

/-- What no removal waits for is not deleted, and goes on so until it is said to have gone. -/
theorem Settled.step (hs : d.Settled path) (h : d.waiting.Valid) {s : Step}
    (hnot : s.hides path = false) :
    (d.step s).1.Settled path ∧ .deleted path ∉ (d.step s).2 := by
  have hdue : ∀ now, Operation.deleted path ∉ (d.expire now).2 := by
    intro now hmem
    obtain ⟨r, hr, -, he⟩ := mem_due.mp hmem
    exact hs r hr (Operation.deleted.inj he).symm
  cases s with
  | handle digests event now =>
      refine ⟨fun r hr he => ?_, fun hmem => hdue now (deleted_mem_handle h hmem)⟩
      have htreats := (proceeds_react (valid_expire h now) digests event now).treats
      rcases htreats.mem hr with hmem | ⟨hremoves, -⟩
      · exact hs r (mem_expire.mp hmem).1 he
      · rw [he] at hremoves
        rw [Step.hides, hides_of_removes hremoves] at hnot
        exact absurd hnot (by simp)
  | expire now => exact ⟨fun r hr => hs r (mem_expire.mp hr).1, hdue now⟩
  | flush =>
      refine ⟨fun r hr => absurd hr List.not_mem_nil, fun hmem => ?_⟩
      obtain ⟨r, hr, he⟩ := List.mem_map.mp hmem
      exact hs r (Waiting.mem_inOrder.mp hr) (Operation.deleted.inj he)

theorem Settled.steps (hs : d.Settled path) (h : d.waiting.Valid) {later : List Step}
    (hnot : ∀ s ∈ later, s.hides path = false) : .deleted path ∉ (d.steps later).2 := by
  induction later generalizing d with
  | nil => exact List.not_mem_nil
  | cons s rest ih =>
      obtain ⟨hnext, hnone⟩ := hs.step h (hnot s (by simp))
      intro hmem
      rcases List.mem_append.mp hmem with hmem | hmem
      · exact hnone hmem
      · exact ih hnext (valid_step h s) (fun t ht => hnot t (by simp [ht])) hmem

/-- A change, and a rename that ends there, leave the removal of a path waiting. -/
theorem waits_of_renamed_onto (h : d.waiting.Valid) (hr : r ∈ d.waiting.all)
    (hover : d.isOver now r = false)
    (hevent : event = .modified r.path ∨
      ∃ source isDir cookie, source ≠ r.path ∧ event = .renamed source isDir r.path cookie) :
    r ∈ (d.handle digests event now).detector.waiting.all := by
  have hmem : r ∈ (d.expire now).1.waiting.all := mem_expire.mpr ⟨hr, hover⟩
  rcases hevent with rfl | ⟨source, isDir, cookie, hne, rfl⟩
  · show r ∈ ((d.expire now).1.onModified digests r.path now).detector.waiting.all
    simpa [onModified, emit] using hmem
  · show r ∈ ((d.expire now).1.onRenamed source isDir r.path cookie now).detector.waiting.all
    unfold onRenamed
    split
    · exact hmem
    · exact (valid_expire h now).mem_discard.mpr ⟨hmem, Ne.symm hne⟩

/--
**What is there is reported as deleted exactly if its removal still waits.**

Let an event say of a path that it is there, and let no later one say that it has gone. Then no
deletion of the path comes, whatever the later steps are, just when no removal of it waits behind
the event. A removal that is not over waits on behind a change of the path and behind a rename of
something else that ends there.
-/
theorem Run.unreported_iff (h : Run settings d) (hshows : event.shows path = true) :
    ((∀ later : List Step, (∀ s ∈ later, s.hides path = false) →
        .deleted path ∉ ((d.handle digests event now).detector.steps later).2) ↔
      (d.handle digests event now).detector.Settled path) ∧
    ((event = .modified path ∨ ∃ source isDir cookie, source ≠ path ∧
        event = .renamed source isDir path cookie) →
      ((d.handle digests event now).detector.Settled path ↔
        ∀ r ∈ d.waiting.all, r.path = path → d.isOver now r = true)) := by
  have hvalid := (h.handle digests event now).valid
  refine ⟨⟨fun hnone r hr he => ?_, fun hs later hnot => hs.steps hvalid hnot⟩, fun hevent => ?_⟩
  · refine hnone [.flush] (by simp [Step.hides]) ?_
    rw [Detector.steps, Detector.steps, List.append_nil]
    exact List.mem_map.mpr ⟨r, Waiting.mem_inOrder.mpr hr, by rw [deletion, he]⟩
  · constructor
    · intro hs r hr he
      refine Bool.not_eq_false _ ▸ fun hover => ?_
      subst he
      exact hs r (waits_of_renamed_onto h.valid hr hover hevent) rfl
    · intro hover r hr he
      have htreats := (proceeds_react (valid_expire h.valid now) digests event now).treats
      rcases htreats.mem hr with hmem | ⟨hremoves, -⟩
      · obtain ⟨hr', hnot⟩ := mem_expire.mp hmem
        rw [hover r hr' he] at hnot
        exact absurd hnot (by simp)
      · rcases hevent with rfl | ⟨source, isDir, cookie, -, rfl⟩
        · exact absurd hremoves (by simp [RawEvent.removes])
        · exact absurd hremoves (by simp [RawEvent.removes])

/-- A detector that has seen a note go. -/
def noteGone : Detector :=
  ((make .defaults).handle (fun _ => none) (.removed false "b.md") 0).detector

/-- A note that is written anew in time is never reported. -/
theorem unreported_of_created :
    Run .defaults noteGone ∧ (RawEvent.created false "b.md").shows "b.md" = true ∧
    ∀ later : List Step, (∀ s ∈ later, s.hides "b.md" = false) → .deleted "b.md" ∉
      ((noteGone.handle (fun _ => none) (.created false "b.md") 1).detector.steps later).2 := by
  have hrun : Run .defaults noteGone := Run.make.handle _ _ _
  have hsettled : (noteGone.handle (fun _ => none) (.created false "b.md") 1).detector.Settled
      "b.md" := by
    unfold Settled
    decide +kernel
  exact ⟨hrun, by decide, (hrun.unreported_iff (by decide)).1.mpr hsettled⟩

/-- A note into whose place another one has been renamed is there, and is reported as deleted. -/
theorem reported_of_renamed_onto :
    Run .defaults noteGone ∧ (RawEvent.renamed "a.md" false "b.md" none).shows "b.md" = true ∧
    (noteGone.handle (fun _ => none) (.renamed "a.md" false "b.md" none) 100000000).operations =
      [.moved "a.md" "b.md"] ∧
    ((noteGone.handle (fun _ => none) (.renamed "a.md" false "b.md" none)
      100000000).detector.expire 6000000000).2 = [.deleted "b.md"] :=
  ⟨Run.make.handle _ _ _, by decide, by decide +kernel, by decide +kernel⟩

end Detector

end LinkKeeper
