import LinkKeeper.Proofs.Sightings

/-!
# Renames under way

The system reports a rename three times: its first half, its second half, and both ends at once,
all under one cookie. Several renames may be under way together, one may end where another
begins, and names may repeat from directory to directory. The cookies keep them apart.

`UnderWay` says what a detector holds when some of the reports are still to come: a removal for
each rename of which only the first half has come, and the cookie of each of which only the report
of both ends is missing. A report takes its rename one stage further and touches no other.
-/

namespace LinkKeeper

namespace RawEvent

/-- The cookie that an event comes under. -/
def cookie : RawEvent → Option Nat
  | renamed _ _ _ cookie | renamedFrom _ cookie | renamedTo _ _ cookie => cookie
  | created _ _ | modified _ | removed _ _ => none

/-- Whether an event is the second half of a rename. -/
def isArrival : RawEvent → Bool
  | renamedTo _ _ _ => true
  | created _ _ | modified _ | removed _ _ | renamed _ _ _ _ | renamedFrom _ _ => false

end RawEvent

/-- A rename that the system reports by its halves and by both ends. -/
structure TracedRename where
  source : String
  target : String
  /-- Whether there is a directory at the target when the second half is reported. -/
  isDir : Bool
  /-- Whether there is one when both ends are reported. It may have gone on by then. -/
  isDirStill : Bool
  cookie : Nat
  deriving DecidableEq, Repr

namespace TracedRename

/-- The first half. -/
def departure (r : TracedRename) : RawEvent := .renamedFrom r.source (some r.cookie)

/-- The second half. -/
def arrival (r : TracedRename) : RawEvent := .renamedTo r.isDir r.target (some r.cookie)

/-- Both ends. -/
def summary (r : TracedRename) : RawEvent :=
  .renamed r.source r.isDirStill r.target (some r.cookie)

/-- All that is reported of a rename, in order. -/
def reports (r : TracedRename) : List RawEvent := [r.departure, r.arrival, r.summary]

/-- The one operation that a rename is. -/
def operation (r : TracedRename) : Operation :=
  if r.isDir then .directoryMoved r.source r.target else .moved r.source r.target

/-- What is said of a rename among some events. -/
def among (r : TracedRename) (events : List RawEvent) : List RawEvent :=
  events.filter (·.cookie == some r.cookie)

end TracedRename

/-- Events that are the reports of some renames: those of each in their order, and no others. -/
structure Interleaves (renames : List TracedRename) (events : List RawEvent) : Prop where
  each : ∀ r ∈ renames, r.among events = r.reports
  only : ∀ event ∈ events, ∃ r ∈ renames, event.cookie = some r.cookie

/-- An event, with what is known about the files when it is observed. -/
structure Observation where
  digests : Digests
  event : RawEvent
  now : Nat

/-- The step of a detector that hears of an event. -/
def Observation.step (o : Observation) : Detector.Step := .handle o.digests o.event o.now

namespace Waiting

variable {w : Waiting} {r s : Removal} {cookie : Option Nat} {now : Nat}

theorem mem_of_youngest {l : List Removal} (h : youngest l = some r) : r ∈ l := by
  induction l generalizing r with
  | nil => exact absurd h (by simp [youngest])
  | cons t rest ih =>
      rw [youngest] at h
      cases hrest : youngest rest with
      | none =>
          rw [hrest] at h
          exact List.mem_cons.mpr (.inl (Option.some.inj h).symm)
      | some u =>
          rw [hrest] at h
          dsimp only at h
          split at h
          · exact List.mem_cons_of_mem _ (Option.some.inj h ▸ ih hrest)
          · exact List.mem_cons.mpr (.inl (Option.some.inj h).symm)

theorem exists_youngest {l : List Removal} (h : l ≠ []) : ∃ r, youngest l = some r := by
  cases l with
  | nil => exact absurd rfl h
  | cons t rest =>
      rw [youngest]
      cases youngest rest with
      | none => exact ⟨t, rfl⟩
      | some u =>
          dsimp only
          split
          · exact ⟨u, rfl⟩
          · exact ⟨t, rfl⟩

/-- If a first half waits, one is taken out. -/
theorem Valid.exists_claimHalf (h : w.Valid) (hr : r ∈ w.all) (hhalf : isHalf cookie now r = true) :
    ∃ s after, w.claimHalf cookie now = some (s, after) ∧ isHalf cookie now s = true := by
  obtain ⟨s, hs⟩ := exists_youngest (l := w.all.filter (isHalf cookie now))
    (List.ne_nil_of_mem (List.mem_filter.mpr ⟨hr, hhalf⟩))
  obtain ⟨hin, hfits⟩ := List.mem_filter.mp (mem_of_youngest hs)
  have hnamed : s ∈ w.named (Path.baseName s.path) := h.mem_named.mpr ⟨hin, rfl⟩
  obtain ⟨place, hplace⟩ :
      ∃ place, (w.named (Path.baseName s.path)).findIdx? (· == s) = some place :=
    Option.isSome_iff_exists.mp (by
      rw [List.findIdx?_isSome, List.any_eq_true]
      exact ⟨s, hnamed, beq_self_eq_true s⟩)
  have hget : (w.named (Path.baseName s.path))[place]? = some s := by
    rw [List.findIdx?_eq_some_iff_getElem] at hplace
    obtain ⟨hlt, heq, -⟩ := hplace
    rw [List.getElem?_eq_getElem hlt, beq_iff_eq.mp heq]
  have hclaim : w.claimHalf cookie now = w.takeAt (Path.baseName s.path) place := by
    simp only [Waiting.claimHalf, hs, Option.bind_eq_bind, Option.bind_some, hplace]
  have htake : w.takeAt (Path.baseName s.path) place = some (s, w.set (Path.baseName s.path)
      ((w.named (Path.baseName s.path)).eraseIdx place)) := by
    simp only [Waiting.takeAt, hget, Option.map_some]
  exact ⟨s, _, hclaim.trans htake, hfits⟩

end Waiting

namespace Detector

variable {d : Detector} {digests : Digests} {renames : List TracedRename} {r : TracedRename}
  {event : RawEvent} {rest : List RawEvent} {times : List Nat} {now : Nat}

@[simp] theorem paired_remember (d : Detector) (digests : Digests) (path : String) (now : Nat) :
    (d.remember digests path now).1.paired = d.paired := by
  unfold remember
  split <;> rfl

@[simp] theorem window_remember (d : Detector) (digests : Digests) (path : String) (now : Nat) :
    (d.remember digests path now).1.window = d.window := by
  unfold remember
  split <;> rfl

/--
What a detector holds while some reports of renames are still to come. `times` are those at which
reports are observed.
-/
structure UnderWay (renames : List TracedRename) (times : List Nat) (rest : List RawEvent)
    (d : Detector) : Prop where
  valid : d.waiting.Valid
  /-- What is still to come of a rename are its last reports. -/
  stage : ∀ r ∈ renames, r.among rest <:+ r.reports
  /-- What waits is the first half of a rename whose second half is to come. -/
  departed : ∀ s ∈ d.waiting.all, s.since ∈ times ∧ s.isDir = false ∧
    ∃ r ∈ renames, s.path = r.source ∧ s.cookie = some r.cookie ∧
      r.among rest = [r.arrival, r.summary]
  waits : ∀ r ∈ renames, r.among rest = [r.arrival, r.summary] →
    ∃ s ∈ d.waiting.all, s.cookie = some r.cookie
  paired : ∀ r ∈ renames, r.among rest = [r.summary] →
    ∃ since ∈ times, d.paired[r.cookie]? = some since

theorem among_cons (hevent : event.cookie = some r.cookie) :
    r.among (event :: rest) = event :: r.among rest := by
  rw [TracedRename.among, List.filter_cons_of_pos (by simp [hevent]), TracedRename.among]

/-- The reports of others do not change what is said of a rename. -/
theorem among_cons_of_ne (hcookies : (renames.map (·.cookie)).Nodup) (hr : r ∈ renames)
    (hevent : event.cookie = some r.cookie) {t : TracedRename} (ht : t ∈ renames) (hne : t ≠ r) :
    t.among (event :: rest) = t.among rest := by
  rw [TracedRename.among, List.filter_cons_of_neg, TracedRename.among]
  rw [beq_iff_eq, hevent]
  exact fun he => hne (List.inj_on_of_nodup_map hcookies ht hr (Option.some.inj he).symm)

/-- While the reports come within the window, nothing is given up and no cookie is forgotten. -/
theorem UnderWay.expire (h : UnderWay renames times rest d)
    (hspan : ∀ t ∈ times, now - t ≤ d.window) :
    UnderWay renames times rest (d.expire now).1 ∧ (d.expire now).2 = [] := by
  have hfresh : ∀ s ∈ d.waiting.all, d.isOver now s = false := by
    intro s hs
    have := hspan _ (h.departed s hs).1
    simp only [isOver, decide_eq_false_iff_not]
    omega
  refine ⟨⟨valid_expire h.valid now, h.stage, fun s hs => h.departed s (mem_expire.mp hs).1,
    fun r hr hamong => ?_, fun r hr hamong => ?_⟩, ?_⟩
  · obtain ⟨s, hs, hcookie⟩ := h.waits r hr hamong
    exact ⟨s, mem_expire.mpr ⟨hs, hfresh s hs⟩, hcookie⟩
  · obtain ⟨since, hsince, hget⟩ := h.paired r hr hamong
    refine ⟨since, hsince, ?_⟩
    show (d.paired.filter fun _ since => decide (now - since ≤ d.window))[r.cookie]? = some since
    rw [Std.TreeMap.getElem?_filter', hget, Option.filter_some,
      if_pos (decide_eq_true (hspan since hsince))]
  · refine List.eq_nil_iff_forall_not_mem.mpr fun op hop => ?_
    obtain ⟨s, hs, hover, -⟩ := mem_due.mp hop
    rw [hfresh s hs] at hover
    exact Bool.false_ne_true hover

/-- The first half of a rename begins to wait. -/
theorem UnderWay.departs (h : UnderWay renames times (r.departure :: rest) d)
    (hcookies : (renames.map (·.cookie)).Nodup) (hsources : (renames.map (·.source)).Nodup)
    (hr : r ∈ renames) (hnow : now ∈ times) (hamong : r.among rest = [r.arrival, r.summary]) :
    UnderWay renames times rest (d.react digests r.departure now).detector := by
  have hsame : ∀ t ∈ renames, t ≠ r → t.among (r.departure :: rest) = t.among rest :=
    fun t ht hne => among_cons_of_ne hcookies hr rfl ht hne
  have hwhole : r.among (r.departure :: rest) = r.reports := by
    rw [among_cons rfl, hamong]
    rfl
  obtain ⟨s, hs, hwaiting⟩ : ∃ s : Removal,
      (s.since = now ∧ s.isDir = false ∧ s.path = r.source ∧ s.cookie = some r.cookie) ∧
      (d.react digests r.departure now).detector.waiting = (d.waiting.discard r.source).push s :=
    ⟨_, ⟨rfl, rfl, rfl, rfl⟩, rfl⟩
  obtain ⟨hsince, hdir, hpath, hcookie⟩ := hs
  have hrest := h.valid.discard r.source
  have hmem : ∀ t, t ∈ (d.react digests r.departure now).detector.waiting.all ↔
      (t ∈ d.waiting.all ∧ t.path ≠ r.source) ∨ t = s := by
    intro t
    rw [hwaiting, hrest.mem_push, h.valid.mem_discard]
  refine ⟨?_, fun t ht => ?_, fun t ht => ?_, fun t ht hto => ?_, fun t ht hto => ?_⟩
  · rw [hwaiting]
    exact hrest.push fun t ht => by rw [hpath]; exact (h.valid.mem_discard.mp ht).2
  · by_cases hne : t = r
    · subst hne
      rw [hamong]
      exact List.suffix_cons _ _
    · rw [← hsame t ht hne]
      exact h.stage t ht
  · rcases (hmem t).mp ht with ⟨ht, -⟩ | rfl
    · obtain ⟨htime, hfile, u, hu, hsource, hunder, hstage⟩ := h.departed t ht
      refine ⟨htime, hfile, u, hu, hsource, hunder, ?_⟩
      have hne : u ≠ r := by
        rintro rfl
        rw [hwhole] at hstage
        exact absurd hstage (by simp [TracedRename.reports])
      rw [← hsame u hu hne]
      exact hstage
    · exact ⟨hsince ▸ hnow, hdir, r, hr, hpath, hcookie, hamong⟩
  · by_cases hne : t = r
    · subst hne
      exact ⟨s, (hmem s).mpr (.inr rfl), hcookie⟩
    · rw [← hsame t ht hne] at hto
      obtain ⟨u, hu, hunder⟩ := h.waits t ht hto
      refine ⟨u, (hmem u).mpr (.inl ⟨hu, fun hsource => hne ?_⟩), hunder⟩
      -- it would be the removal of this rename, for paths are sources of one rename only
      obtain ⟨-, -, v, hv, hpath', hunder', -⟩ := h.departed u hu
      rw [hunder] at hunder'
      have htv := List.inj_on_of_nodup_map hcookies ht hv (Option.some.inj hunder')
      rw [htv]
      exact List.inj_on_of_nodup_map hsources hv hr (hpath'.symm.trans hsource)
  · have hne : t ≠ r := by
      rintro rfl
      rw [hamong] at hto
      exact absurd hto (by simp)
    rw [← hsame t ht hne] at hto
    exact h.paired t ht hto

/-- The second half of a rename finds the first, and is the move. -/
theorem UnderWay.arrives (h : UnderWay renames times (r.arrival :: rest) d) (digests : Digests)
    (hcookies : (renames.map (·.cookie)).Nodup) (hr : r ∈ renames) (hnow : now ∈ times)
    (hamong : r.among rest = [r.summary]) :
    UnderWay renames times rest (d.react digests r.arrival now).detector ∧
      (d.react digests r.arrival now).operations = [r.operation] := by
  have hsame : ∀ t ∈ renames, t ≠ r → t.among (r.arrival :: rest) = t.among rest :=
    fun t ht hne => among_cons_of_ne hcookies hr rfl ht hne
  have hhere : r.among (r.arrival :: rest) = [r.arrival, r.summary] := by
    rw [among_cons rfl, hamong]
  obtain ⟨first, hfirst, hunder⟩ := h.waits r hr hhere
  have hwaits : Waiting.isHalf (some r.cookie) now first = true := by
    rw [Waiting.isHalf, hunder, beq_self_eq_true]
  obtain ⟨s, after, hclaim, hhalf⟩ := h.valid.exists_claimHalf hfirst hwaits
  obtain ⟨hvalid, hs, hmem⟩ := h.valid.claimHalf hclaim
  have hcookie : s.cookie = some r.cookie := by simpa [Waiting.isHalf] using hhalf
  obtain ⟨-, hfile, u, hu, hsource, hunder', -⟩ := h.departed s hs
  obtain rfl : u = r := List.inj_on_of_nodup_map hcookies hu hr
    (Option.some.inj (hunder'.symm.trans hcookie))
  have hreact : d.react digests u.arrival now =
      ((if u.isDir then { d with waiting := after, paired := d.paired.insert u.cookie now }
        else (Detector.remember { d with waiting := after, paired := d.paired.insert u.cookie now }
          digests u.target now).1).emitMove s.path u.target (u.isDir || s.isDir) .rename) := by
    show d.onRenamedTo digests u.isDir u.target (some u.cookie) now = _
    rw [onRenamedTo, hclaim]
  have hwaiting : (d.react digests u.arrival now).detector.waiting = after := by
    rw [hreact, emitMove]
    split <;> simp
  have hpaired :
      (d.react digests u.arrival now).detector.paired = d.paired.insert u.cookie now := by
    rw [hreact, emitMove]
    split <;> simp
  refine ⟨⟨?_, fun t ht => ?_, fun t ht => ?_, fun t ht hto => ?_, fun t ht hto => ?_⟩, ?_⟩
  · rw [hwaiting]
    exact hvalid
  · by_cases hne : t = u
    · subst hne
      rw [hamong]
      exact ⟨[t.departure, t.arrival], rfl⟩
    · rw [← hsame t ht hne]
      exact h.stage t ht
  · rw [hwaiting, hmem] at ht
    obtain ⟨htime, hfile', v, hv, hsource', hunder', hstage⟩ := h.departed t ht.1
    refine ⟨htime, hfile', v, hv, hsource', hunder', ?_⟩
    have hne : v ≠ u := by
      rintro rfl
      exact ht.2 (h.valid.eq_of_path ht.1 hs (hsource'.trans hsource.symm))
    rw [← hsame v hv hne]
    exact hstage
  · have hne : t ≠ u := by
      rintro rfl
      rw [hamong] at hto
      exact absurd hto (by simp)
    rw [← hsame t ht hne] at hto
    obtain ⟨v, hv, hits⟩ := h.waits t ht hto
    rw [hwaiting]
    refine ⟨v, (hmem v).mpr ⟨hv, ?_⟩, hits⟩
    rintro rfl
    exact hne (List.inj_on_of_nodup_map hcookies ht hu (Option.some.inj (hits.symm.trans hcookie)))
  · rw [hpaired, Std.TreeMap.getElem?_insert]
    simp only [Std.compare_eq_iff_eq]
    by_cases hne : t = u
    · exact ⟨now, hnow, by rw [if_pos (by rw [hne])]⟩
    · rw [← hsame t ht hne] at hto
      obtain ⟨since, hsince, hget⟩ := h.paired t ht hto
      refine ⟨since, hsince, ?_⟩
      rw [if_neg fun he => hne (List.inj_on_of_nodup_map hcookies ht hu he.symm)]
      exact hget
  · rw [hreact, hfile, Bool.or_false, hsource]
    rfl

/-- The report of both ends of a rename that has been paired says nothing new. -/
theorem UnderWay.ends (h : UnderWay renames times (r.summary :: rest) d) (digests : Digests)
    (now : Nat) (hcookies : (renames.map (·.cookie)).Nodup) (hr : r ∈ renames)
    (hamong : r.among rest = []) :
    UnderWay renames times rest (d.react digests r.summary now).detector ∧
      (d.react digests r.summary now).operations = [] := by
  have hsame : ∀ t ∈ renames, t ≠ r → t.among (r.summary :: rest) = t.among rest :=
    fun t ht hne => among_cons_of_ne hcookies hr rfl ht hne
  have hhere : r.among (r.summary :: rest) = [r.summary] := by
    rw [among_cons rfl, hamong]
  obtain ⟨since, hsince, hget⟩ := h.paired r hr hhere
  have hcontains : d.paired.contains r.cookie = true := by
    rw [Std.TreeMap.contains_eq_isSome_getElem?, hget]
    rfl
  have hreact : d.react digests r.summary now =
      ({ d with paired := d.paired.erase r.cookie } : Detector).quiet := by
    show d.onRenamed r.source r.isDirStill r.target (some r.cookie) now = _
    rw [onRenamed, Option.filter_some, if_pos hcontains]
  -- the other renames stand where they stood, and this one is over
  have hother : ∀ t ∈ renames, t.among rest ≠ [] → t ≠ r := by
    rintro t - hto rfl
    exact hto hamong
  rw [hreact]
  refine ⟨⟨h.valid, fun t ht => ?_, fun s hs => ?_, fun t ht hto => ?_, fun t ht hto => ?_⟩, rfl⟩
  · by_cases hne : t = r
    · subst hne
      rw [hamong]
      exact List.nil_suffix
    · rw [← hsame t ht hne]
      exact h.stage t ht
  · obtain ⟨htime, hfile, u, hu, hsource, hunder, hstage⟩ := h.departed s hs
    refine ⟨htime, hfile, u, hu, hsource, hunder, ?_⟩
    have hne : u ≠ r := by
      rintro rfl
      rw [hhere] at hstage
      exact absurd hstage (by simp)
    rw [← hsame u hu hne]
    exact hstage
  · have hne := hother t ht (by rw [hto]; simp)
    rw [← hsame t ht hne] at hto
    exact h.waits t ht hto
  · have hne := hother t ht (by rw [hto]; simp)
    rw [← hsame t ht hne] at hto
    obtain ⟨since, hsince, hget⟩ := h.paired t ht hto
    refine ⟨since, hsince, ?_⟩
    show (d.paired.erase r.cookie)[t.cookie]? = some since
    rw [Std.TreeMap.getElem?_erase, if_neg, hget]
    rw [Std.compare_eq_iff_eq]
    exact fun he => hne (List.inj_on_of_nodup_map hcookies ht hr he.symm)

/-! ## Runs -/

theorem window_react (d : Detector) (digests : Digests) (event : RawEvent) (now : Nat) :
    (d.react digests event now).detector.window = d.window := by
  have hcreated : ∀ (d : Detector) path isDir,
      (d.onCreated digests path isDir now).detector.window = d.window := by
    intro d path isDir
    unfold onCreated
    have hread :
        (if isDir then (d, none) else d.remember digests path now).1.window = d.window := by
      cases isDir with
      | true => rfl
      | false => exact window_remember d digests path now
    generalize (if isDir then (d, none) else d.remember digests path now) = read at hread ⊢
    dsimp only
    split
    · split
      · exact hread
      · exact hread
    · exact hread
  cases event with
  | created isDir path => exact hcreated d path isDir
  | modified path => exact window_remember d digests path now
  | removed isDir path => rfl
  | renamed source isDir target cookie =>
      show (d.onRenamed source isDir target cookie now).detector.window = d.window
      unfold onRenamed
      split <;> rfl
  | renamedFrom path cookie => rfl
  | renamedTo isDir path cookie =>
      show (d.onRenamedTo digests isDir path cookie now).detector.window = d.window
      unfold onRenamedTo
      split
      · exact hcreated d path isDir
      · cases isDir with
        | true => rfl
        | false => exact window_remember _ digests path now

/-- What is still to come of a rename begins with one of its reports. -/
theorem among_cases (h : event :: r.among rest <:+ r.reports) :
    (event = r.departure ∧ r.among rest = [r.arrival, r.summary]) ∨
      (event = r.arrival ∧ r.among rest = [r.summary]) ∨
      (event = r.summary ∧ r.among rest = []) := by
  simpa [TracedRename.reports, List.suffix_cons_iff] using h

/-- The renames whose second half is still to come, in the order of these halves. -/
structure Arrivals (renames : List TracedRename) (rest : List RawEvent)
    (order : List TracedRename) : Prop where
  nodup : order.Nodup
  mem : ∀ r, r ∈ order ↔ r ∈ renames ∧ r.arrival ∈ rest
  inOrder : rest.filter (·.isArrival) = order.map TracedRename.arrival

theorem Arrivals.skip {order : List TracedRename} (h : Arrivals renames rest order)
    (hevent : event.isArrival = false) : Arrivals renames (event :: rest) order := by
  refine ⟨h.nodup, fun r => ?_, ?_⟩
  · rw [h.mem, List.mem_cons]
    refine and_congr_right fun _ => ⟨.inr, fun hmem => hmem.resolve_left ?_⟩
    rintro rfl
    exact absurd hevent (by simp [TracedRename.arrival, RawEvent.isArrival])
  · rw [List.filter_cons_of_neg (by simp [hevent])]
    exact h.inOrder

theorem Arrivals.arrive {order : List TracedRename} (h : Arrivals renames rest order)
    (hcookies : (renames.map (·.cookie)).Nodup) (hr : r ∈ renames)
    (hamong : r.among rest = [r.summary]) : Arrivals renames (r.arrival :: rest) (r :: order) := by
  refine ⟨List.nodup_cons.mpr ⟨fun hmem => ?_, h.nodup⟩, fun t => ?_, ?_⟩
  · -- a second half comes once
    have hagain : r.arrival ∈ r.among rest :=
      List.mem_filter.mpr ⟨((h.mem r).mp hmem).2, beq_self_eq_true _⟩
    rw [hamong] at hagain
    exact absurd hagain (by simp [TracedRename.arrival, TracedRename.summary])
  · rw [List.mem_cons, h.mem, List.mem_cons]
    constructor
    · rintro (rfl | ⟨ht, hmem⟩)
      · exact ⟨hr, .inl rfl⟩
      · exact ⟨ht, .inr hmem⟩
    · rintro ⟨ht, heq | hmem⟩
      · have hcookie : t.cookie = r.cookie := Option.some.inj (congrArg RawEvent.cookie heq)
        exact .inl (List.inj_on_of_nodup_map hcookies ht hr hcookie)
      · exact .inr ⟨ht, hmem⟩
  · rw [List.filter_cons_of_pos rfl, h.inOrder, List.map_cons]

/--
From any stage on, a detector says one operation for each second half, in their order, and nothing
waits at the end.
-/
theorem UnderWay.steps {seen : List Observation}
    (h : UnderWay renames times (seen.map (·.event)) d)
    (hcookies : (renames.map (·.cookie)).Nodup) (hsources : (renames.map (·.source)).Nodup)
    (honly : ∀ o ∈ seen, ∃ r ∈ renames, o.event.cookie = some r.cookie)
    (htimes : ∀ o ∈ seen, o.now ∈ times) (hspan : ∀ t ∈ times, ∀ u ∈ times, u - t ≤ d.window) :
    ∃ order, Arrivals renames (seen.map (·.event)) order ∧
      (d.steps (seen.map Observation.step)).2 = order.map TracedRename.operation ∧
      UnderWay renames times [] (d.steps (seen.map Observation.step)).1 := by
  induction seen generalizing d with
  | nil => exact ⟨[], ⟨.nil, fun r => by simp, rfl⟩, rfl, h⟩
  | cons o seen ih =>
      obtain ⟨r, hr, hcookie⟩ := honly o List.mem_cons_self
      have hnow := htimes o List.mem_cons_self
      obtain ⟨hmid, hdue⟩ := h.expire fun t ht => hspan t ht o.now hnow
      have hstage := h.stage r hr
      rw [List.map_cons, among_cons hcookie] at hstage
      have hnext : ∀ ops, UnderWay renames times (seen.map (·.event))
            ((d.expire o.now).1.react o.digests o.event o.now).detector →
          ((d.expire o.now).1.react o.digests o.event o.now).operations = ops →
          ∃ order, Arrivals renames (seen.map (·.event)) order ∧
            (d.steps ((o :: seen).map Observation.step)).2 =
              ops ++ order.map TracedRename.operation ∧
            UnderWay renames times [] (d.steps ((o :: seen).map Observation.step)).1 := by
        rintro ops hafter rfl
        obtain ⟨order, horder, hops, hend⟩ := ih hafter
          (fun p hp => honly p (List.mem_cons_of_mem _ hp))
          (fun p hp => htimes p (List.mem_cons_of_mem _ hp))
          (fun t ht u hu => by rw [window_react]; exact hspan t ht u hu)
        refine ⟨order, horder, ?_, hend⟩
        rw [← hops, ← List.nil_append (Detection.operations _), ← hdue]
        rfl
      rw [List.map_cons] at hmid ⊢
      rcases among_cases hstage with ⟨hevent, hamong⟩ | ⟨hevent, hamong⟩ | ⟨hevent, hamong⟩
      · rw [hevent] at hmid hnext ⊢
        obtain ⟨order, horder, hops, hend⟩ := hnext []
          (hmid.departs hcookies hsources hr hnow hamong) rfl
        exact ⟨order, horder.skip rfl, hops, hend⟩
      · rw [hevent] at hmid hnext ⊢
        obtain ⟨hafter, hmoved⟩ := hmid.arrives o.digests hcookies hr hnow hamong
        obtain ⟨order, horder, hops, hend⟩ := hnext _ hafter hmoved
        exact ⟨r :: order, horder.arrive hcookies hr hamong, hops, hend⟩
      · rw [hevent] at hmid hnext ⊢
        obtain ⟨hafter, hquiet⟩ := hmid.ends o.digests o.now hcookies hr hamong
        obtain ⟨order, horder, hops, hend⟩ := hnext _ hafter hquiet
        exact ⟨order, horder.skip rfl, hops, hend⟩

/--
**Renames that are under way together are reported once each.**

Let the halves and the summaries of some renames come in any order that keeps those of each rename
in theirs, all within the window. The cookies differ, and so do the paths that the renames begin
at; nothing is asked of where they end. Then the operations are one move for each rename, in the
order of the second halves, and a shutdown has nothing to add.
-/
theorem renames_reported_once (settings : Settings) {renames : List TracedRename}
    {seen : List Observation} (hcookies : (renames.map (·.cookie)).Nodup)
    (hsources : (renames.map (·.source)).Nodup)
    (hreports : Interleaves renames (seen.map (·.event)))
    (hspan : ∀ o ∈ seen, ∀ p ∈ seen, p.now - o.now ≤ settings.moveWindow) :
    ∃ order : List TracedRename, order.Perm renames ∧
      (seen.map (·.event)).filter (·.isArrival) = order.map TracedRename.arrival ∧
      ((make settings).steps (seen.map Observation.step)).2 = order.map TracedRename.operation ∧
      ((make settings).steps (seen.map Observation.step)).1.flush.2 = [] := by
  have hstart : UnderWay renames (seen.map (·.now)) (seen.map (·.event)) (make settings) := by
    refine ⟨Waiting.valid_empty, fun r hr => ?_, fun s hs => absurd hs List.not_mem_nil,
      fun r hr hamong => ?_, fun r hr hamong => ?_⟩
    · simp [hreports.each r hr]
    · rw [hreports.each r hr] at hamong
      exact absurd hamong (by simp [TracedRename.reports])
    · rw [hreports.each r hr] at hamong
      exact absurd hamong (by simp [TracedRename.reports])
  obtain ⟨order, horder, hops, hend⟩ := hstart.steps hcookies hsources
    (fun o ho => hreports.only o.event (List.mem_map_of_mem ho))
    (fun o ho => List.mem_map_of_mem ho) fun t ht u hu => by
      obtain ⟨o, ho, rfl⟩ := List.mem_map.mp ht
      obtain ⟨p, hp, rfl⟩ := List.mem_map.mp hu
      exact hspan o ho p hp
  refine ⟨order, ?_, horder.inOrder, hops, ?_⟩
  · refine (List.perm_ext_iff_of_nodup horder.nodup hcookies.of_map).mpr fun r => ?_
    rw [horder.mem, and_iff_left_iff_imp]
    intro hr
    have hmem : r.arrival ∈ r.among (seen.map (·.event)) := by
      rw [hreports.each r hr]
      simp [TracedRename.reports]
    exact (List.mem_filter.mp hmem).1
  · refine List.eq_nil_iff_forall_not_mem.mpr fun op hop => ?_
    obtain ⟨s, hs, -⟩ := List.mem_map.mp hop
    obtain ⟨-, -, r, -, -, -, hamong⟩ := hend.departed s (Waiting.mem_inOrder.mp hs)
    exact absurd hamong (by simp [TracedRename.among])

/--
A file, another one that takes its name into a directory while the first takes its place, and a
directory that has gone on when both ends of its rename are reported.
-/
def relay : List TracedRename :=
  [⟨"a.md", "b.md", false, false, 1⟩, ⟨"b.md", "c/a.md", false, false, 2⟩,
    ⟨"d", "e", true, false, 3⟩]

/-- The three renames, all under way before the first of them is over. -/
def relaySeen : List Observation :=
  [⟨fun _ => none, .renamedFrom "a.md" (some 1), 1000000000⟩,
    ⟨fun _ => none, .renamedFrom "b.md" (some 2), 1000000000⟩,
    ⟨fun _ => none, .renamedFrom "d" (some 3), 2000000000⟩,
    ⟨fun _ => none, .renamedTo false "c/a.md" (some 2), 3000000000⟩,
    ⟨fun _ => none, .renamedTo false "b.md" (some 1), 4000000000⟩,
    ⟨fun _ => none, .renamed "a.md" false "b.md" (some 1), 4000000000⟩,
    ⟨fun _ => none, .renamedTo true "e" (some 3), 5000000000⟩,
    ⟨fun _ => none, .renamed "b.md" false "c/a.md" (some 2), 6000000000⟩,
    ⟨fun _ => none, .renamed "d" false "e" (some 3), 6000000000⟩]

/-- The second file comes first, and each of the three is one move. -/
theorem renames_reported_once_relay :
    (∃ order : List TracedRename, order.Perm relay ∧
      (relaySeen.map (·.event)).filter (·.isArrival) = order.map TracedRename.arrival ∧
      ((make .defaults).steps (relaySeen.map Observation.step)).2 =
        order.map TracedRename.operation ∧
      ((make .defaults).steps (relaySeen.map Observation.step)).1.flush.2 = []) ∧
    ((make .defaults).steps (relaySeen.map Observation.step)).2 =
      [.moved "b.md" "c/a.md", .moved "a.md" "b.md", .directoryMoved "d" "e"] :=
  ⟨renames_reported_once .defaults (by decide) (by decide) ⟨by decide +kernel, by decide +kernel⟩
    (by decide +kernel), by decide +kernel⟩

end Detector

end LinkKeeper
