import LinkKeeper.Proofs.Pairing
import LinkKeeper.Proofs.Recreations

/-!
# What a move is concluded from

A move makes links be rewritten, so none should be reported without a reason. There are three. The
system has reported both ends at once. Or something has been created while a removal of its name
and kind was waiting, somewhere else. Or the second half of a rename has come while its first half
was waiting.

In the last two the move rests on a removal that waits, and so on an earlier event. That a removal
waits at all says where it has come from, and that it is not too old, for those that are over have
gone before the event is looked at.
-/

namespace LinkKeeper

/-- The report of a move. -/
def Operation.moving (source target : String) (isDir : Bool) : Operation :=
  if isDir then .directoryMoved source target else .moved source target

theorem Operation.moving_injective {source source' target target' : String} {isDir isDir' : Bool}
    (h : moving source target isDir = moving source' target' isDir') :
    source = source' ∧ target = target' ∧ isDir = isDir' := by
  cases isDir <;> cases isDir' <;> simp_all [moving]

namespace Waiting

variable {w after : Waiting} {r s : Removal} {rivals : List Removal} {cookie : Option Nat}
  {now : Nat}

/-- If the digest speaks for any removal, it speaks for the preferred one. -/
theorem digest_of_preferred? {digest : String} (h : preferred? rivals (some digest) = some r)
    (hs : s ∈ rivals) (hdigest : s.digest = some digest) : r.digest = some digest := by
  rcases preferred?_eq_some_iff.mp h with ⟨d, _, _, hd, hr, -, -⟩ | ⟨hnone, -⟩
  · rwa [Option.some.inj hd]
  · exact absurd hdigest (hnone digest rfl s hs)

/-- What is taken out as the first half of a rename is one. -/
theorem isHalf_of_claimHalf (h : w.claimHalf cookie now = some (s, after)) :
    isHalf cookie now s = true := by
  rw [claimHalf, Option.bind_eq_bind, Option.bind_eq_some_iff] at h
  obtain ⟨half, hyoungest, h⟩ := h
  rw [Option.bind_eq_bind, Option.bind_eq_some_iff] at h
  obtain ⟨place, hplace, htake⟩ := h
  rw [takeAt, Option.map_eq_some_iff] at htake
  obtain ⟨t, hget, hpair⟩ := htake
  obtain ⟨rfl, -⟩ := Prod.mk.inj hpair
  -- at the place that has been found stands the half that was looked for
  obtain ⟨hlt, hsame, -⟩ := List.findIdx?_eq_some_iff_getElem.mp hplace
  obtain rfl : half = t := by
    rw [← beq_iff_eq.mp hsame]
    exact Option.some.inj ((List.getElem?_eq_getElem hlt).symm.trans hget)
  exact (List.mem_filter.mp (mem_of_youngest hyoungest)).2

end Waiting

namespace Detector

open Operation (moving)
open Waiting (preferred? isHalf pairWindow)

variable {d : Detector} {digests : Digests} {event : RawEvent} {now : Nat} {r : Removal}
  {earlier later : List Step} {source target : String} {isDir : Bool} {settings : Settings}

/-! ## Runs and their times -/

/-- The time that a step tells, if it tells one. -/
def Step.time? : Step → Option Nat
  | handle _ _ now | expire now => some now
  | flush => none

/-- Steps whose times never go back. -/
def Chronological (told : List Step) : Prop := (told.filterMap Step.time?).Pairwise (· ≤ ·)

theorem Chronological.le {s t : Step} {since : Nat} (h : Chronological (earlier ++ [t]))
    (hs : s ∈ earlier) (hsince : s.time? = some since) (hnow : t.time? = some now) :
    since ≤ now := by
  rw [Chronological, List.filterMap_append, List.pairwise_append] at h
  exact h.2.2 since (List.mem_filterMap.mpr ⟨s, hs, hsince⟩) now (by simp [hnow])

theorem valid_steps (h : d.waiting.Valid) (told : List Step) : (d.steps told).1.waiting.Valid := by
  induction told generalizing d with
  | nil => exact h
  | cons s rest ih => exact ih (valid_step h s)

theorem window_steps (d : Detector) (told : List Step) : (d.steps told).1.window = d.window := by
  induction told generalizing d with
  | nil => rfl
  | cons s rest ih =>
      refine (ih _).trans ?_
      cases s with
      | handle digests event now => exact window_react _ digests event now
      | expire now => rfl
      | flush => rfl

/-! ## Where a removal comes from -/

/-- An earlier event made a removal wait: that its path was removed, or that a rename began there. -/
inductive Reported (earlier : List Step) (r : Removal) : Prop where
  | removed (digests : Digests)
      (hin : .handle digests (.removed r.isDir r.path) r.since ∈ earlier)
      (hplain : r.isRename = false) (hcookie : r.cookie = none)
  | departed (digests : Digests)
      (hin : .handle digests (.renamedFrom r.path r.cookie) r.since ∈ earlier)
      (hrename : r.isRename = true) (hfile : r.isDir = false)

theorem Reported.mono (h : Reported earlier r) (hsub : earlier ⊆ later) : Reported later r := by
  cases h with
  | removed digests hin hplain hcookie => exact .removed digests (hsub hin) hplain hcookie
  | departed digests hin hrename hfile => exact .departed digests (hsub hin) hrename hfile

/-- A removal does not wait before it has been observed. -/
theorem Reported.since_le {t : Step} (h : Reported earlier r)
    (hchron : Chronological (earlier ++ [t])) (hnow : t.time? = some now) : r.since ≤ now := by
  cases h with
  | removed digests hin => exact hchron.le hin rfl hnow
  | departed digests hin => exact hchron.le hin rfl hnow

theorem mem_onRemoved (h : d.waiting.Valid) {path : String} {isRename : Bool}
    {cookie : Option Nat}
    (hr : r ∈ (d.onRemoved digests path isDir isRename cookie now).waiting.all) :
    r ∈ d.waiting.all ∨ ∃ digest, r = ⟨now, digest, isDir, path, isRename, cookie⟩ := by
  rw [onRemoved, (h.discard path).mem_push, h.mem_discard] at hr
  exact hr.imp (fun hold => hold.1) fun hnew => ⟨_, hnew⟩

/-- What waits after a step has waited before it, or the step has reported it. -/
theorem reported_step (h : d.waiting.Valid) {s : Step} (hr : r ∈ (d.step s).1.waiting.all) :
    r ∈ d.waiting.all ∨ Reported [s] r := by
  cases s with
  | expire now => exact .inl (mem_expire.mp hr).1
  | flush => exact absurd hr List.not_mem_nil
  | handle digests event now =>
      have hmid := valid_expire h now
      have hold : ∀ {t : Removal}, t ∈ (d.expire now).1.waiting.all → t ∈ d.waiting.all :=
        fun ht => (mem_expire.mp ht).1
      rcases (proceeds_react hmid digests event now).treats.mem hr with hthere | ⟨hremoves, -⟩
      · exact .inl (hold hthere)
      · cases event with
        | removed isDir path =>
            rcases mem_onRemoved hmid hr with hthere | ⟨digest, rfl⟩
            · exact .inl (hold hthere)
            · exact .inr (.removed digests List.mem_cons_self rfl rfl)
        | renamedFrom path cookie =>
            rcases mem_onRemoved hmid hr with hthere | ⟨digest, rfl⟩
            · exact .inl (hold hthere)
            · exact .inr (.departed digests List.mem_cons_self rfl rfl)
        | created _ _ | modified _ | renamed _ _ _ _ | renamedTo _ _ _ =>
            exact absurd hremoves Bool.false_ne_true

theorem reported_steps (h : d.waiting.Valid) (earlier : List Step)
    (hall : ∀ r ∈ d.waiting.all, Reported earlier r) :
    ∀ r ∈ (d.steps later).1.waiting.all, Reported (earlier ++ later) r := by
  induction later generalizing d earlier with
  | nil => rwa [List.append_nil]
  | cons s rest ih =>
      rw [List.append_cons]
      refine ih (valid_step h s) _ fun r hr => ?_
      rcases reported_step h hr with hthere | hnew
      · exact (hall r hthere).mono (List.subset_append_left _ _)
      · exact hnew.mono (List.subset_append_right _ _)

/-- **Each removal that waits in a run has been reported in it.** -/
theorem reported_of_waits (hr : r ∈ ((make settings).steps earlier).1.waiting.all) :
    Reported earlier r :=
  reported_steps Waiting.valid_empty [] (by simp [make]) r hr

/-! ## What leads to a move -/

/-- A creation that leads to a move ends the removal that it prefers, which is of another path. -/
theorem onCreated_moving {path : String} {kind : Bool}
    (hop : moving source target isDir ∈ (d.onCreated digests path kind now).operations) :
    path = target ∧ kind = isDir ∧ ∃ r, r.path = source ∧ source ≠ target ∧
      preferred? ((d.waiting.named (Path.baseName target)).filter (·.isDir == isDir))
        (digestOf digests isDir target) = some r := by
  rcases d.onCreated_cases digests path kind now with
    ⟨r, signal, after, hclaim, -, hops⟩ | ⟨-, -, hops⟩
  · rw [hops, List.mem_singleton] at hop
    have hpreferred := Waiting.claim_eq_preferred? d.waiting path kind (digestOf digests kind path)
    rw [hclaim, Option.map_some] at hpreferred
    split at hop
    · cases isDir <;> exact absurd hop (by simp [moving])
    · rename_i hother
      obtain ⟨rfl, rfl, rfl⟩ := Operation.moving_injective hop
      exact ⟨rfl, rfl, r, rfl, hother, hpreferred.symm⟩
  · rw [hops, List.mem_singleton] at hop
    cases isDir <;> exact absurd hop (by simp [moving])

/-- The second half of a rename that finds a first one ends it. -/
theorem onRenamedTo_of_claimHalf (digests : Digests) (kind : Bool) (path : String)
    {cookie : Option Nat} {after : Waiting} (hclaim : d.waiting.claimHalf cookie now = some (r, after)) :
    (d.onRenamedTo digests kind path cookie now).operations =
        [moving r.path path (kind || r.isDir)] ∧
      (d.onRenamedTo digests kind path cookie now).detector.waiting = after := by
  unfold onRenamedTo
  rw [hclaim]
  refine ⟨rfl, ?_⟩
  dsimp only [emitMove]
  split <;> simp

/-- An event that ends one removal by itself does so behind those that are over. -/
theorem settles_of_react {op : Operation}
    (hops : ((d.expire now).1.react digests event now).operations = [op])
    (hall : ∀ t, t ∈ ((d.expire now).1.react digests event now).detector.waiting.all ↔
      t ∈ (d.expire now).1.waiting.all ∧ t ≠ r) :
    d.Settles now (d.handle digests event now) r op := by
  refine ⟨?_, fun t => ?_⟩
  · rw [handle_eq, hops]
  · rw [handle_eq, hall, mem_expire, and_assoc]

/-- What a move rests on, when an event comes to a detector after some steps. -/
inductive Grounds (earlier : List Step) (d : Detector) (digests : Digests) (event : RawEvent)
    (now : Nat) (source target : String) (isDir : Bool) : Prop where
  /-- Both ends have been reported. -/
  | told (cookie : Option Nat) (hevent : event = .renamed source isDir target cookie)
  /--
  Something appears at the target, and ends a removal of its name and kind that has waited no longer
  than a removal may. If one of those that it could end has the digest of what is there, the one that
  it ends has it.
  -/
  | matched (r : Removal)
      (hevent : event = .created isDir target ∨ ∃ cookie, event = .renamedTo isDir target cookie)
      (hwaits : r ∈ d.waiting.all) (hreported : Reported earlier r)
      (hsource : r.path = source) (helsewhere : source ≠ target)
      (hname : Path.baseName source = Path.baseName target) (hkind : r.isDir = isDir)
      (hsince : r.since ≤ now) (hage : now ≤ r.since + d.window)
      (hended : d.Settles now (d.handle digests event now) r (moving source target isDir))
      (hdigest : ∀ digest, digestOf digests isDir target = some digest →
        (∃ s ∈ d.rivals now isDir target, s.digest = some digest) → r.digest = some digest)
  /--
  The second half of a rename comes, and ends a first half that waits under its cookie, or without
  one and not for long.
  -/
  | paired (r : Removal) (cookie : Option Nat) (hevent : event = .renamedTo isDir target cookie)
      (hwaits : r ∈ d.waiting.all)
      (hdeparted : ∃ digests, .handle digests (.renamedFrom source cookie) r.since ∈ earlier)
      (hsource : r.path = source) (hrename : r.isRename = true) (hcookie : r.cookie = cookie)
      (hsince : r.since ≤ now) (hage : cookie = none → now ≤ r.since + pairWindow)
      (hended : d.Settles now (d.handle digests event now) r (moving source target isDir))

/-- What a creation, or a second half without a first one, that leads to a move rests on. -/
theorem grounds_of_onCreated (h : d.waiting.Valid) {path : String} {kind : Bool}
    (hreported : ∀ r ∈ d.waiting.all, Reported earlier r ∧ r.since ≤ now)
    (hreact : (d.expire now).1.react digests event now =
      (d.expire now).1.onCreated digests path kind now)
    (hevent : event = .created kind path ∨ ∃ cookie, event = .renamedTo kind path cookie)
    (hop : moving source target isDir ∈
      ((d.expire now).1.react digests event now).operations) :
    Grounds earlier d digests event now source target isDir := by
  rw [hreact] at hop
  obtain ⟨rfl, rfl, r, hsource, helsewhere, hpreferred⟩ := onCreated_moving hop
  obtain ⟨hops, hall⟩ := settles_onCreated (valid_expire h now) now hpreferred
  rw [named_expire] at hpreferred
  obtain ⟨hin, hname, hkind, hfresh⟩ := (mem_rivals h).mp (Waiting.mem_of_preferred? hpreferred)
  have hsettling : settling r path = moving source path kind := by
    rw [settling, hsource, if_neg helsewhere, hkind, moving]
  rw [hsettling] at hops
  obtain ⟨hfrom, hsince⟩ := hreported r hin
  refine .matched r hevent hin hfrom hsource helsewhere (by rw [← hsource, hname]) hkind hsince ?_
    (settles_of_react (by rw [hreact, hops]) (by rw [hreact]; exact hall)) ?_
  · simp only [isOver, decide_eq_false_iff_not] at hfresh
    omega
  · rintro digest hdigest ⟨s, hs, hspeaks⟩
    rw [hdigest] at hpreferred
    exact Waiting.digest_of_preferred? hpreferred hs hspeaks

/-- What the second half of a rename that finds a first one rests on. -/
theorem grounds_of_claimHalf (h : d.waiting.Valid) {path : String} {kind : Bool}
    {cookie : Option Nat} {after : Waiting}
    (hreported : ∀ r ∈ d.waiting.all, Reported earlier r ∧ r.since ≤ now)
    (hclaim : (d.expire now).1.waiting.claimHalf cookie now = some (r, after))
    (hop : moving source target isDir ∈
      ((d.expire now).1.react digests (.renamedTo kind path cookie) now).operations) :
    Grounds earlier d digests (.renamedTo kind path cookie) now source target isDir := by
  obtain ⟨hops, hwaiting⟩ := onRenamedTo_of_claimHalf digests kind path hclaim
  obtain ⟨-, hmem, hall⟩ := (valid_expire h now).claimHalf hclaim
  have hin : r ∈ d.waiting.all := (mem_expire.mp hmem).1
  obtain ⟨hfrom, hsince⟩ := hreported r hin
  have hhalf := Waiting.isHalf_of_claimHalf hclaim
  -- only the first half of a rename has a cookie, or is marked as one
  obtain ⟨hcookie, hrename, hage⟩ : r.cookie = cookie ∧ r.isRename = true ∧
      (cookie = none → now ≤ r.since + pairWindow) := by
    cases cookie with
    | some c =>
        have hunder : r.cookie = some c := by simpa [isHalf] using hhalf
        refine ⟨hunder, ?_, by simp⟩
        cases hfrom with
        | removed _ _ _ hcookie => exact absurd (hunder.symm.trans hcookie) (by simp)
        | departed _ _ hrename => exact hrename
    | none =>
        simp only [isHalf, Bool.and_eq_true, Option.isNone_iff_eq_none, decide_eq_true_eq] at hhalf
        exact ⟨hhalf.1.2, hhalf.1.1, fun _ => by omega⟩
  obtain ⟨before, hdeparted, hfile⟩ : ∃ before,
      .handle before (.renamedFrom r.path r.cookie) r.since ∈ earlier ∧ r.isDir = false := by
    cases hfrom with
    | removed _ _ hplain => exact absurd (hrename.symm.trans hplain) (by simp)
    | departed before hin _ hfile => exact ⟨before, hin, hfile⟩
  rw [hfile, Bool.or_false] at hops
  obtain ⟨rfl, rfl, rfl⟩ := Operation.moving_injective
    (List.mem_singleton.mp (show moving source target isDir ∈ [moving r.path path kind] from
      hops ▸ hop))
  refine .paired r cookie rfl hin ⟨before, hcookie ▸ hdeparted⟩ rfl hrename hcookie hsince hage
    (settles_of_react hops fun t => ?_)
  rw [show ((d.expire now).1.react digests (.renamedTo isDir target cookie) now).detector.waiting =
    after from hwaiting, hall]

/-- **An event that leads to a move has grounds for it.** -/
theorem grounds_handle (h : d.waiting.Valid)
    (hreported : ∀ r ∈ d.waiting.all, Reported earlier r ∧ r.since ≤ now)
    (hop : moving source target isDir ∈ (d.handle digests event now).operations) :
    Grounds earlier d digests event now source target isDir := by
  have hown : moving source target isDir ∈
      ((d.expire now).1.react digests event now).operations := by
    refine (List.mem_append.mp hop).resolve_left fun hdue => ?_
    obtain ⟨r, -, -, hdeleted⟩ := mem_due.mp hdue
    cases isDir <;> exact absurd hdeleted (by simp [moving])
  cases event with
  | created kind path => exact grounds_of_onCreated h hreported rfl (.inl rfl) hown
  | modified path =>
      have hop := List.mem_singleton.mp hown
      cases isDir <;> exact absurd hop (by simp [moving])
  | removed kind path => exact absurd hown List.not_mem_nil
  | renamed first kind second cookie =>
      unfold react onRenamed at hown
      dsimp only at hown
      split at hown
      · exact absurd hown List.not_mem_nil
      · obtain ⟨rfl, rfl, rfl⟩ := Operation.moving_injective (List.mem_singleton.mp hown)
        exact .told cookie rfl
  | renamedFrom path cookie => exact absurd hown List.not_mem_nil
  | renamedTo kind path cookie =>
      cases hclaim : (d.expire now).1.waiting.claimHalf cookie now with
      | none =>
          refine grounds_of_onCreated h hreported ?_ (.inr ⟨cookie, rfl⟩) hown
          unfold react onRenamedTo
          dsimp only
          rw [hclaim]
      | some claimed => exact grounds_of_claimHalf h hreported hclaim hown

/--
**Every move that is reported has grounds.**

Let the times in a run not go back. A move is reported only when an event is handled, and only on
one of these grounds: the event says that both ends are those of a rename; or something appears at
the target, and a removal of the source, which is another path of the same name, is ended by it,
one of its kind that has been reported at most a window ago; or the second half of a rename appears
there, and its first half at the source is ended by it, reported under its cookie, or without a
cookie at most a second ago. If a removal of that name and kind has the digest of what has
appeared, then the one that is ended by a creation has it.
-/
theorem moves_have_grounds {earlier : List Step} {s : Step}
    (hchron : Chronological (earlier ++ [s])) {source target : String} {isDir : Bool}
    (hop : moving source target isDir ∈ (((make settings).steps earlier).1.step s).2) :
    ((make settings).steps earlier).1.window = settings.moveWindow ∧
    ∃ digests event now, s = .handle digests event now ∧
      Grounds earlier ((make settings).steps earlier).1 digests event now source target isDir := by
  refine ⟨window_steps _ _, ?_⟩
  have hvalid : ((make settings).steps earlier).1.waiting.Valid :=
    valid_steps Waiting.valid_empty earlier
  cases s with
  | handle digests event now =>
      refine ⟨digests, event, now, rfl, grounds_handle hvalid (fun r hr => ?_) hop⟩
      have hreported := reported_of_waits hr
      exact ⟨hreported, hreported.since_le hchron rfl⟩
  | expire now =>
      obtain ⟨r, -, -, hdeleted⟩ := mem_due.mp hop
      cases isDir <;> exact absurd hdeleted (by simp [moving])
  | flush =>
      obtain ⟨r, -, hdeleted⟩ := List.mem_map.mp hop
      cases isDir <;> exact absurd hdeleted (by simp [moving, deletion])

/-- Two notes of one name go, the first one with what was in it. -/
def notesGone : List Step :=
  [.handle (fun _ => some "x") (.removed false "a/n.md") 0, .expire 500000000,
    .handle (fun _ => none) (.removed false "b/n.md") 1000000000]

/-- A rename begins, and has no cookie. -/
def noteLeaves : List Step := [.handle (fun _ => none) (.renamedFrom "a.md" none) 0]

/-- What was in the first note turns up in a third place. -/
def noteTurnsUp : Step := .handle (fun _ => some "x") (.created false "c/n.md") 2000000000

/-- The other half of the rename comes after a second. -/
def noteEnters (now : Nat) : Step := .handle (fun _ => none) (.renamedTo false "b.md" none) now

/--
The first note is the one that has moved, though the second one has gone later. A rename without a
cookie is paired after a second, and not after a longer time.
-/
theorem moves_have_grounds_notes :
    (Chronological (notesGone ++ [noteTurnsUp]) ∧
      (((make .defaults).steps notesGone).1.step noteTurnsUp).2 =
        [moving "a/n.md" "c/n.md" false] ∧
      ∃ digests event now, noteTurnsUp = .handle digests event now ∧
        Grounds notesGone ((make .defaults).steps notesGone).1 digests event now
          "a/n.md" "c/n.md" false) ∧
    (Chronological (noteLeaves ++ [noteEnters 1000000000]) ∧
      (((make .defaults).steps noteLeaves).1.step (noteEnters 1000000000)).2 =
        [moving "a.md" "b.md" false] ∧
      ∃ digests event now, noteEnters 1000000000 = .handle digests event now ∧
        Grounds noteLeaves ((make .defaults).steps noteLeaves).1 digests event now
          "a.md" "b.md" false) ∧
    (((make .defaults).steps noteLeaves).1.step (noteEnters 1000000001)).2 =
      [.created "b.md"] := by
  have hturns : (((make .defaults).steps notesGone).1.step noteTurnsUp).2 =
      [moving "a/n.md" "c/n.md" false] := by
    decide +kernel
  have henters : (((make .defaults).steps noteLeaves).1.step (noteEnters 1000000000)).2 =
      [moving "a.md" "b.md" false] := by
    decide +kernel
  have hfirst : Chronological (notesGone ++ [noteTurnsUp]) := by
    unfold Chronological
    decide +kernel
  have hsecond : Chronological (noteLeaves ++ [noteEnters 1000000000]) := by
    unfold Chronological
    decide +kernel
  refine ⟨⟨hfirst, hturns, ?_⟩, ⟨hsecond, henters, ?_⟩, by decide +kernel⟩
  · exact (moves_have_grounds hfirst (by rw [hturns]; exact List.mem_singleton_self _)).2
  · exact (moves_have_grounds hsecond (by rw [henters]; exact List.mem_singleton_self _)).2

end Detector

end LinkKeeper
