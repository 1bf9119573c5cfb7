import LinkKeeper.Proofs.Sightings

/-!
# Ticks of the clock

A detector is told the time now and then, and at each event. Being told the time, it gives up on
removals, forgets digests and forgets paired cookies. None of this is seen by what comes later:
an event begins by telling the time itself, and what a tick has done before, the event would have
done then. So a run says the same in the same order however often the clock ticks between its
events.

What a tick does is to bring deletions forward. `Ahead` compares a detector that has heard ticks
with one that has not: told the time once more, both are in one state, and what the second says
then is what the first has said since and says then.

Trees of names are compared by what they hold. One that has been filtered twice need not be
balanced like one that has been filtered once.
-/

namespace LinkKeeper

/-- A map that is filtered twice holds what passes the narrower filter. -/
theorem filter_filter {κ ν : Type} {cmp : κ → κ → Ordering} [Std.TransCmp cmp]
    [Std.LawfulEqCmp cmp] (t : Std.TreeMap κ ν cmp) {wide narrow : κ → ν → Bool}
    (h : ∀ key value, narrow key value = true → wide key value = true) :
    ((t.filter wide).filter narrow).Equiv (t.filter narrow) := by
  refine Std.TreeMap.Equiv.of_forall_constGet?_eq fun key => ?_
  rw [Std.TreeMap.getElem?_filter', Std.TreeMap.getElem?_filter', Std.TreeMap.getElem?_filter',
    Option.filter_filter]
  congr 1
  funext value
  rw [Bool.and_eq_right_iff_imp]
  exact h key value

namespace DigestMemory

variable {m n : DigestMemory}

/-- Two memories that hold the same. -/
structure Agrees (m n : DigestMemory) : Prop where
  lifetime : m.lifetime = n.lifetime
  entries : m.entries.Equiv n.entries

theorem Agrees.insert (h : m.Agrees n) (path digest : String) (now : Nat) :
    (m.insert path digest now).Agrees (n.insert path digest now) :=
  ⟨h.lifetime, h.entries.insert path (digest, now)⟩

theorem Agrees.take (h : m.Agrees n) (path : String) (now : Nat) :
    (m.take path now).1.Agrees (n.take path now).1 ∧ (m.take path now).2 = (n.take path now).2 := by
  refine ⟨⟨h.lifetime, h.entries.erase path⟩, ?_⟩
  unfold DigestMemory.take isFresh
  rw [h.entries.getElem?_eq, h.lifetime]

theorem Agrees.prune (h : m.Agrees n) (now : Nat) : (m.prune now).Agrees (n.prune now) := by
  refine ⟨h.lifetime, ?_⟩
  unfold DigestMemory.prune isFresh
  rw [h.lifetime]
  exact h.entries.filter _

/-- What is fresh no more stays so. -/
theorem prune_prune (m : DigestMemory) {early late : Nat} (hle : early ≤ late) :
    ((m.prune early).prune late).Agrees (m.prune late) := by
  refine ⟨rfl, filter_filter _ fun path entry hfresh => ?_⟩
  simp only [isFresh, decide_eq_true_eq] at hfresh ⊢
  exact Nat.le_trans (Nat.sub_le_sub_right hle _) hfresh

end DigestMemory

namespace Waiting

variable {w v : Waiting} {r s : Removal}

/-! ## Buckets that hold the same -/

theorem all_congr (h : w.Equiv v) : w.all = v.all := by
  rw [all, all, h.values_eq]

theorem named_congr (h : w.Equiv v) (name : String) : w.named name = v.named name := by
  rw [named, named, h.getElem?_eq]

theorem set_congr (h : w.Equiv v) (name : String) (bucket : List Removal) :
    (w.set name bucket).Equiv (v.set name bucket) := by
  unfold Waiting.set
  split
  · exact h.erase name
  · exact h.insert name bucket

theorem discard_congr (h : w.Equiv v) (path : String) :
    (w.discard path).Equiv (v.discard path) := by
  rw [Waiting.discard, Waiting.discard, named_congr h]
  exact set_congr h _ _

theorem push_congr (h : w.Equiv v) (r : Removal) : (w.push r).Equiv (v.push r) := by
  rw [push_eq_set, push_eq_set, named_congr h]
  exact set_congr h _ _

theorem takeAt_congr (h : w.Equiv v) (name : String) (place : Nat) :
    (w.takeAt name place = none ∧ v.takeAt name place = none) ∨
      ∃ r rest others, w.takeAt name place = some (r, rest) ∧
        v.takeAt name place = some (r, others) ∧ rest.Equiv others := by
  simp only [Waiting.takeAt, named_congr h]
  cases (v.named name)[place]? with
  | none => exact .inl ⟨rfl, rfl⟩
  | some r => exact .inr ⟨r, _, _, rfl, rfl, set_congr h _ _⟩

theorem claim_congr (h : w.Equiv v) (path : String) (isDir : Bool) (digest : Option String) :
    (w.claim path isDir digest = none ∧ v.claim path isDir digest = none) ∨
      ∃ r signal rest others, w.claim path isDir digest = some (r, signal, rest) ∧
        v.claim path isDir digest = some (r, signal, others) ∧ rest.Equiv others := by
  simp only [Waiting.claim, named_congr h]
  cases match? (v.named (Path.baseName path)) isDir digest with
  | none => exact .inl ⟨rfl, rfl⟩
  | some found =>
      rcases takeAt_congr h (Path.baseName path) found.1 with
        ⟨hw, hv⟩ | ⟨r, rest, others, hw, hv, he⟩
      · exact .inl ⟨by simp [hw], by simp [hv]⟩
      · exact .inr ⟨r, found.2, rest, others, by simp [hw], by simp [hv], he⟩

theorem claimHalf_congr (h : w.Equiv v) (cookie : Option Nat) (now : Nat) :
    (w.claimHalf cookie now = none ∧ v.claimHalf cookie now = none) ∨
      ∃ r rest others, w.claimHalf cookie now = some (r, rest) ∧
        v.claimHalf cookie now = some (r, others) ∧ rest.Equiv others := by
  unfold Waiting.claimHalf
  rw [all_congr h]
  cases youngest (v.all.filter (isHalf cookie now)) with
  | none => exact .inl ⟨rfl, rfl⟩
  | some half =>
      rw [Option.bind_eq_bind, Option.bind_eq_bind, Option.bind_some, Option.bind_some]
      dsimp only
      rw [named_congr h]
      cases (v.named (Path.baseName half.path)).findIdx? (· == half) with
      | none => exact .inl ⟨rfl, rfl⟩
      | some place => exact takeAt_congr h _ place

/-- Removals are kept twice when the narrower rule keeps them. -/
theorem keep_keep (w : Waiting) {wide narrow : Removal → Bool}
    (h : ∀ r, narrow r = true → wide r = true) :
    ((w.keep wide).keep narrow).Equiv (w.keep narrow) := by
  refine Std.TreeMap.Equiv.of_forall_constGet?_eq fun name => ?_
  simp only [Waiting.keep, Std.TreeMap.getElem?_filterMap']
  cases w[name]? with
  | none => rfl
  | some bucket =>
      have htwice : (bucket.filter wide).filter narrow = bucket.filter narrow := by
        rw [List.filter_filter]
        refine List.filter_congr fun r _ => ?_
        rw [Bool.and_eq_left_iff_imp]
        exact h r
      simp only [Option.bind_some]
      cases hwide : bucket.filter wide with
      | nil =>
          rw [hwide, List.filter_nil] at htwice
          rw [← htwice, Option.bind_none]
      | cons r rest =>
          rw [hwide] at htwice
          rw [Option.bind_some, htwice]

/-! ## The order of deletions -/

theorem precedes_trans (a b c : Removal) (hab : precedes a b = true) (hbc : precedes b c = true) :
    precedes a c = true := by
  simp only [precedes, Bool.or_eq_true, decide_eq_true_eq, Bool.and_eq_true, beq_iff_eq] at *
  rcases hab with hab | ⟨hab, hpab⟩ <;> rcases hbc with hbc | ⟨hbc, hpbc⟩
  · exact .inl (by omega)
  · exact .inl (by omega)
  · exact .inl (by omega)
  · exact .inr ⟨by omega, String.le_trans hpab hpbc⟩

theorem precedes_total (a b : Removal) : (precedes a b || precedes b a) = true := by
  simp only [precedes, Bool.or_eq_true, decide_eq_true_eq, Bool.and_eq_true, beq_iff_eq]
  rcases Nat.lt_trichotomy a.since b.since with h | h | h
  · exact .inl (.inl h)
  · rcases String.le_total a.path b.path with hp | hp
    · exact .inl (.inr ⟨h, hp⟩)
    · exact .inr (.inr ⟨h.symm, hp⟩)
  · exact .inr (.inl h)

theorem path_eq_of_precedes {a b : Removal} (hab : precedes a b = true)
    (hba : precedes b a = true) : a.path = b.path := by
  simp only [precedes, Bool.or_eq_true, decide_eq_true_eq, Bool.and_eq_true, beq_iff_eq] at hab hba
  rcases hab with hab | ⟨hab, hpab⟩ <;> rcases hba with hba | ⟨hba, hpba⟩
  · omega
  · omega
  · omega
  · exact String.le_antisymm hpab hpba

theorem pairwise_inOrder (l : List Removal) : (inOrder l).Pairwise (precedes · · = true) :=
  List.pairwise_mergeSort precedes_trans precedes_total l

end Waiting

namespace Detector

variable {d e : Detector} {digests : Digests} {event : RawEvent} {now early late : Nat}
  {settings : Settings}

/-- Two detectors in one state. -/
structure Agrees (d e : Detector) : Prop where
  waiting : d.waiting.Equiv e.waiting
  paired : d.paired.Equiv e.paired
  memory : d.memory.Agrees e.memory
  window : d.window = e.window

theorem Agrees.refl (d : Detector) : d.Agrees d :=
  ⟨.rfl, .rfl, ⟨rfl, .rfl⟩, rfl⟩

theorem Agrees.trans {f : Detector} (h : d.Agrees e) (h' : e.Agrees f) : d.Agrees f :=
  ⟨h.waiting.trans h'.waiting, h.paired.trans h'.paired,
    ⟨h.memory.lifetime.trans h'.memory.lifetime, h.memory.entries.trans h'.memory.entries⟩,
    h.window.trans h'.window⟩

/-- Two answers that say the same and leave one state. -/
structure Concurs (a b : Detection) : Prop where
  detector : a.detector.Agrees b.detector
  operations : a.operations = b.operations

/-! ## One state, one answer -/

theorem Agrees.remember (h : d.Agrees e) (digests : Digests) (path : String) (now : Nat) :
    (d.remember digests path now).1.Agrees (e.remember digests path now).1 ∧
      (d.remember digests path now).2 = (e.remember digests path now).2 := by
  unfold Detector.remember
  cases digests path with
  | none => exact ⟨h, rfl⟩
  | some digest => exact ⟨{ h with memory := h.memory.insert path digest now }, rfl⟩

theorem Agrees.onRemoved (h : d.Agrees e) (digests : Digests) (path : String)
    (isDir isRename : Bool) (cookie : Option Nat) (now : Nat) :
    (d.onRemoved digests path isDir isRename cookie now).Agrees
      (e.onRemoved digests path isDir isRename cookie now) := by
  obtain ⟨hmemory, hremembered⟩ := h.memory.take path now
  unfold Detector.onRemoved
  dsimp only
  rw [hremembered]
  exact { h with
    memory := hmemory
    waiting := Waiting.push_congr (Waiting.discard_congr h.waiting path) _ }

theorem Agrees.onCreated (h : d.Agrees e) (digests : Digests) (path : String) (isDir : Bool)
    (now : Nat) :
    Concurs (d.onCreated digests path isDir now) (e.onCreated digests path isDir now) := by
  have hread : (if isDir then (d, none) else d.remember digests path now).1.Agrees
        (if isDir then (e, none) else e.remember digests path now).1 ∧
      (if isDir then (d, none) else d.remember digests path now).2 =
        (if isDir then (e, none) else e.remember digests path now).2 := by
    cases isDir with
    | true => exact ⟨h, rfl⟩
    | false => exact h.remember digests path now
  unfold Detector.onCreated
  generalize (if isDir then (d, none) else d.remember digests path now) = read at hread ⊢
  generalize (if isDir then (e, none) else e.remember digests path now) = other at hread ⊢
  obtain ⟨d, digest⟩ := read
  obtain ⟨e, _⟩ := other
  obtain ⟨h, rfl⟩ := hread
  dsimp only
  rcases Waiting.claim_congr h.waiting path isDir digest with
    ⟨hd, he⟩ | ⟨r, signal, _, _, hd, he, hrest⟩
  · rw [hd, he]
    exact ⟨h, rfl⟩
  · rw [hd, he]
    dsimp only
    split
    · exact ⟨{ h with waiting := hrest }, rfl⟩
    · exact ⟨{ h with waiting := hrest }, rfl⟩

theorem Agrees.onModified (h : d.Agrees e) (digests : Digests) (path : String) (now : Nat) :
    Concurs (d.onModified digests path now) (e.onModified digests path now) :=
  ⟨(h.remember digests path now).1, rfl⟩

theorem Agrees.onRenamed (h : d.Agrees e) (source : String) (isDir : Bool) (target : String)
    (cookie : Option Nat) (now : Nat) :
    Concurs (d.onRenamed source isDir target cookie now)
      (e.onRenamed source isDir target cookie now) := by
  have hpaired : cookie.filter d.paired.contains = cookie.filter e.paired.contains := by
    cases cookie with
    | none => rfl
    | some c => rw [Option.filter_some, Option.filter_some, h.paired.contains_eq]
  unfold Detector.onRenamed
  rw [hpaired]
  cases cookie.filter e.paired.contains with
  | some c => exact ⟨{ h with paired := h.paired.erase c }, rfl⟩
  | none =>
      obtain ⟨hmemory, hdigest⟩ := h.memory.take source now
      dsimp only
      rw [hdigest]
      refine ⟨{ h with waiting := Waiting.discard_congr h.waiting source, memory := ?_ }, rfl⟩
      cases (e.memory.take source now).2 with
      | none => exact hmemory
      | some digest => exact hmemory.insert target digest now

theorem Agrees.onRenamedTo (h : d.Agrees e) (digests : Digests) (isDir : Bool) (path : String)
    (cookie : Option Nat) (now : Nat) :
    Concurs (d.onRenamedTo digests isDir path cookie now)
      (e.onRenamedTo digests isDir path cookie now) := by
  unfold Detector.onRenamedTo
  rcases Waiting.claimHalf_congr h.waiting cookie now with
    ⟨hd, he⟩ | ⟨half, rest, others, hd, he, hrest⟩
  · rw [hd, he]
    exact h.onCreated digests path isDir now
  · rw [hd, he]
    have hanswer : ∀ {one other : Std.TreeMap Nat Nat}, one.Equiv other →
        Concurs
          ((if isDir then { d with waiting := rest, paired := one }
            else (Detector.remember { d with waiting := rest, paired := one } digests path now).1
              ).emitMove half.path path (isDir || half.isDir) .rename)
          ((if isDir then { e with waiting := others, paired := other }
            else (Detector.remember { e with waiting := others, paired := other } digests path now).1
              ).emitMove half.path path (isDir || half.isDir) .rename) := by
      intro one other hpaired
      have htaken : ({ d with waiting := rest, paired := one } : Detector).Agrees
          { e with waiting := others, paired := other } :=
        { h with waiting := hrest, paired := hpaired }
      cases isDir with
      | true => exact ⟨htaken, rfl⟩
      | false => exact ⟨(htaken.remember digests path now).1, rfl⟩
    cases cookie with
    | none => exact hanswer h.paired
    | some c => exact hanswer (h.paired.insert c now)

/-- **In one state an event leads to one answer.** -/
theorem Agrees.react (h : d.Agrees e) (digests : Digests) (event : RawEvent) (now : Nat) :
    Concurs (d.react digests event now) (e.react digests event now) := by
  cases event with
  | created isDir path => exact h.onCreated digests path isDir now
  | modified path => exact h.onModified digests path now
  | removed isDir path => exact ⟨h.onRemoved digests path isDir false none now, rfl⟩
  | renamed source isDir target cookie => exact h.onRenamed source isDir target cookie now
  | renamedFrom path cookie => exact ⟨h.onRemoved digests path false true cookie now, rfl⟩
  | renamedTo isDir path cookie => exact h.onRenamedTo digests isDir path cookie now

/-! ## Ticks -/

theorem Agrees.expire (h : d.Agrees e) (now : Nat) :
    (d.expire now).1.Agrees (e.expire now).1 ∧ (d.expire now).2 = (e.expire now).2 := by
  have hover : d.isOver now = e.isOver now := by
    funext r
    rw [isOver, isOver, h.window]
  unfold Detector.expire
  rw [hover, Waiting.all_congr h.waiting, h.window]
  exact ⟨⟨h.waiting.filterMap _, h.paired.filter _, h.memory.prune now, rfl⟩, rfl⟩

theorem Agrees.flush (h : d.Agrees e) : d.flush.2 = e.flush.2 := by
  unfold Detector.flush
  rw [Waiting.all_congr h.waiting]

theorem isOver_mono {r : Removal} (hle : early ≤ late) (h : d.isOver early r = true) :
    d.isOver late r = true := by
  simp only [isOver, decide_eq_true_eq] at h ⊢
  omega

/-- What one tick leaves, a later one would have left. -/
theorem agrees_expire_expire (d : Detector) (hle : early ≤ late) :
    ((d.expire early).1.expire late).1.Agrees (d.expire late).1 := by
  refine ⟨Waiting.keep_keep _ fun r hr => ?_, filter_filter _ fun _ since hsince => ?_,
    DigestMemory.prune_prune _ hle, rfl⟩
  · rw [Bool.not_eq_true'] at hr ⊢
    exact Bool.eq_false_iff.mpr fun hover => Bool.eq_false_iff.mp hr (isOver_mono hle hover)
  · rw [decide_eq_true_eq] at hsince ⊢
    exact Nat.le_trans (Nat.sub_le_sub_right hle _) hsince

/-- What one tick says and then a later one, the later one would have said by itself. -/
theorem due_append_due (h : d.waiting.Valid) (hle : early ≤ late) :
    (d.expire early).2 ++ ((d.expire early).1.expire late).2 = (d.expire late).2 := by
  have hnodup : d.waiting.all.Nodup := h.nodup_paths.of_map
  have hleft : (d.expire early).1.waiting.all.Nodup := (valid_expire h early).nodup_paths.of_map
  -- the two batches together are the one batch
  have hperm : ((d.waiting.all.filter (d.isOver early)) ++
      (d.expire early).1.waiting.all.filter (d.isOver late)).Perm
      (d.waiting.all.filter (d.isOver late)) := by
    refine (List.perm_ext_iff_of_nodup ?_ (hnodup.filter _)).mpr fun r => ?_
    · refine List.nodup_append.mpr ⟨hnodup.filter _, hleft.filter _, fun a ha b hb hab => ?_⟩
      subst hab
      rw [List.mem_filter] at ha hb
      rw [(mem_expire.mp hb.1).2] at ha
      exact absurd ha.2 Bool.false_ne_true
    · rw [List.mem_append, List.mem_filter, List.mem_filter, List.mem_filter, mem_expire]
      constructor
      · rintro (⟨hr, hearly⟩ | ⟨⟨hr, -⟩, hlate⟩)
        · exact ⟨hr, isOver_mono hle hearly⟩
        · exact ⟨hr, hlate⟩
      · rintro ⟨hr, hlate⟩
        cases hearly : d.isOver early r with
        | true => exact .inl ⟨hr, rfl⟩
        | false => exact .inr ⟨⟨hr, rfl⟩, hlate⟩
  have hsorted : (Waiting.inOrder (d.waiting.all.filter (d.isOver early)) ++
      Waiting.inOrder ((d.expire early).1.waiting.all.filter (d.isOver late))).Pairwise
        (Waiting.precedes · · = true) := by
    refine List.pairwise_append.mpr
      ⟨Waiting.pairwise_inOrder _, Waiting.pairwise_inOrder _, fun a ha b hb => ?_⟩
    have hbefore := (List.mem_filter.mp (Waiting.mem_inOrder.mp ha)).2
    have hbehind := (mem_expire.mp (List.mem_filter.mp (Waiting.mem_inOrder.mp hb)).1).2
    simp only [isOver, decide_eq_true_eq, decide_eq_false_iff_not] at hbefore hbehind
    rw [Waiting.precedes, Bool.or_eq_true, decide_eq_true_eq]
    exact .inl (by omega)
  have hbatch := (((List.mergeSort_perm _ Waiting.precedes).append
    (List.mergeSort_perm _ Waiting.precedes)).trans hperm).trans
      (List.mergeSort_perm _ Waiting.precedes).symm
  have horder := hbatch.eq_of_pairwise (fun a b ha hb hab hba => ?_) hsorted
    (Waiting.pairwise_inOrder _)
  · show _ ++ _ = (Waiting.inOrder (d.waiting.all.filter (d.isOver late))).map deletion
    rw [← horder, List.map_append]
    rfl
  · have hthere : ∀ r ∈ Waiting.inOrder (d.waiting.all.filter (d.isOver late)), r ∈ d.waiting.all :=
      fun r hr => (List.mem_filter.mp (Waiting.mem_inOrder.mp hr)).1
    exact h.eq_of_path (hthere a (hbatch.mem_iff.mp ha)) (hthere b hb)
      (Waiting.path_eq_of_precedes hab hba)

/-! ## Runs -/

/-- Whether a step does no more than tell the time. -/
def Step.isTick : Step → Bool
  | expire _ => true
  | handle _ _ _ | flush => false

/-- Steps that tell a time each, from a time on and never going back. -/
inductive Clocked : Nat → List Step → Prop where
  | nil (since : Nat) : Clocked since []
  | handle {since now : Nat} (h : since ≤ now) (digests : Digests) (event : RawEvent)
      {later : List Step} (hlater : Clocked now later) :
      Clocked since (.handle digests event now :: later)
  | expire {since now : Nat} (h : since ≤ now) {later : List Step} (hlater : Clocked now later) :
      Clocked since (.expire now :: later)

/--
From a time on one detector is ahead of another: told the time, both are in one state, and the
other says all at once what the one has said already and what it says then.
-/
def Ahead (since : Nat) (d e : Detector) (said : List Operation) : Prop :=
  ∀ now, since ≤ now → (d.expire now).1.Agrees (e.expire now).1 ∧
    said ++ (d.expire now).2 = (e.expire now).2

theorem Agrees.ahead (h : d.Agrees e) (since : Nat) : Ahead since d e [] :=
  fun now _ => h.expire now

/-- A tick brings forward what is over. -/
theorem Ahead.tick {since : Nat} {said : List Operation} (h : Ahead since d e said)
    (hvalid : d.waiting.Valid) (hle : since ≤ early) :
    Ahead early (d.expire early).1 e (said ++ (d.expire early).2) := by
  intro late hlate
  obtain ⟨hagrees, hsaid⟩ := h late (Nat.le_trans hle hlate)
  refine ⟨(agrees_expire_expire d hlate).trans hagrees, ?_⟩
  rw [List.append_assoc, due_append_due hvalid hlate, hsaid]

/-- An event brings both into one state. -/
theorem Ahead.handle {since : Nat} {said : List Operation} (h : Ahead since d e said)
    (hle : since ≤ now) (digests : Digests) (event : RawEvent) :
    (d.handle digests event now).detector.Agrees (e.handle digests event now).detector ∧
      said ++ (d.handle digests event now).operations = (e.handle digests event now).operations := by
  obtain ⟨hagrees, hsaid⟩ := h now hle
  have hreact := hagrees.react digests event now
  refine ⟨hreact.detector, ?_⟩
  rw [handle_eq, handle_eq]
  dsimp only
  rw [← List.append_assoc, hsaid, hreact.operations]

/-- Steps with and without their ticks end in one state, and have said the same by then. -/
theorem Ahead.steps {since : Nat} {said : List Operation} (h : Ahead since d e said)
    (hvalid : d.waiting.Valid) {earlier : List Step} {last : Step}
    (hclocked : Clocked since (earlier ++ [last])) :
    (d.steps (earlier ++ [last])).1.Agrees
        (e.steps (earlier.filter (!·.isTick) ++ [last])).1 ∧
      said ++ (d.steps (earlier ++ [last])).2 =
        (e.steps (earlier.filter (!·.isTick) ++ [last])).2 := by
  induction earlier generalizing since d e said with
  | nil =>
      cases hclocked with
      | handle hle digests event _ =>
          obtain ⟨hagrees, hsaid⟩ := h.handle hle digests event
          exact ⟨hagrees, by simpa [Detector.steps, Detector.step] using hsaid⟩
      | expire hle _ =>
          obtain ⟨hagrees, hsaid⟩ := h _ hle
          exact ⟨hagrees, by simpa [Detector.steps, Detector.step] using hsaid⟩
  | cons s rest ih =>
      cases hclocked with
      | handle hle digests event hlater =>
          obtain ⟨hagrees, hsaid⟩ := h.handle hle digests event
          obtain ⟨hend, hall⟩ := ih (hagrees.ahead _) (valid_step hvalid (.handle digests event _))
            hlater
          refine ⟨hend, ?_⟩
          rw [List.nil_append] at hall
          rw [List.cons_append, Detector.steps, Detector.step, ← List.append_assoc, hsaid, hall]
          rfl
      | expire hle hlater =>
          obtain ⟨hend, hall⟩ := ih (h.tick hvalid hle) (valid_expire hvalid _) hlater
          refine ⟨hend, ?_⟩
          rw [List.cons_append, Detector.steps, Detector.step, ← List.append_assoc, hall]
          rfl

theorem steps_append (d : Detector) (first second : List Step) :
    (d.steps (first ++ second)).2 = (d.steps first).2 ++ ((d.steps first).1.steps second).2 := by
  induction first generalizing d with
  | nil => rfl
  | cons s rest ih => rw [List.cons_append, Detector.steps, Detector.steps, ih, List.append_assoc]

/-- Two files of one name and one half of a rename have gone; a file of that name comes. -/
def goings : List Step :=
  [.handle (fun _ => none) (.removed false "b/n.md") 1000000000,
    .handle (fun _ => none) (.removed false "a/n.md") 3000000000,
    .handle (fun _ => none) (.renamedFrom "x.md" (some 7)) 7000000000]

/-- The same with ticks, one before and one after the first of the files is given up. -/
def tickedGoings : List Step :=
  [.handle (fun _ => none) (.removed false "b/n.md") 1000000000,
    .handle (fun _ => none) (.removed false "a/n.md") 3000000000, .expire 5000000000,
    .expire 6500000000, .handle (fun _ => none) (.renamedFrom "x.md" (some 7)) 7000000000,
    .expire 8500000000]

end Detector

end LinkKeeper
