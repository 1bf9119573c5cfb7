import LinkKeeper.Proofs.Removals

/-!
# Paths that come back

What is removed and created again in its place has been changed, and has not moved. But a
creation is matched by name and not by path: of the removals of its kind that wait under its
name it ends the first one with the same content, or else the last one. When several files of
one name are removed at a time, one of the others may be taken. Then the path that has come
back is the end of a move, and its own removal goes on waiting.

`preferred?` says which removal it is, and the main statement what that means for all of them.
-/

namespace LinkKeeper

namespace Waiting

variable {w : Waiting} {r : Removal} {rivals bucket : List Removal} {digest : Option String}

/--
Of the removals that a creation may end, the one that it does: the first with its digest, or else
the last.
-/
def preferred? (rivals : List Removal) (digest : Option String) : Option Removal :=
  (digest.bind fun d => rivals.find? (·.digest == some d)).or rivals.getLast?

/-- A removal is preferred for its digest, or for its age when no digest speaks for another. -/
theorem preferred?_eq_some_iff : preferred? rivals digest = some r ↔
    (∃ d front back, digest = some d ∧ r.digest = some d ∧ rivals = front ++ r :: back ∧
      ∀ s ∈ front, s.digest ≠ some d) ∨
    ((∀ d, digest = some d → ∀ s ∈ rivals, s.digest ≠ some d) ∧
      ∃ front, rivals = front ++ [r]) := by
  -- a digest that is found decides, and only else does the age
  cases hfound : digest.bind fun d => rivals.find? (·.digest == some d) with
  | some s =>
      obtain ⟨d, rfl, hfind⟩ := Option.bind_eq_some_iff.mp hfound
      obtain ⟨hs, front, back, hsplit, hfront⟩ := List.find?_eq_some_iff_append.mp hfind
      have hdigest : s.digest = some d := beq_iff_eq.mp hs
      rw [preferred?, hfound, Option.some_or, Option.some_inj]
      constructor
      · rintro rfl
        exact .inl ⟨d, front, back, rfl, hdigest, hsplit, fun t ht => by simpa using hfront t ht⟩
      · rintro (⟨e, front', back', he, hr, hsplit', hfront'⟩ | ⟨hnone, -⟩)
        · obtain rfl := Option.some.inj he
          have hfind' : rivals.find? (·.digest == some d) = some r :=
            List.find?_eq_some_iff_append.mpr ⟨beq_iff_eq.mpr hr, front', back', hsplit',
              fun t ht => by simpa using hfront' t ht⟩
          exact Option.some.inj (hfind.symm.trans hfind')
        · exact absurd hdigest (hnone d rfl s (List.mem_of_find?_eq_some hfind))
  | none =>
      have hnone : ∀ d, digest = some d → ∀ s ∈ rivals, s.digest ≠ some d := by
        rintro d rfl s hs
        have := List.find?_eq_none.mp (Option.bind_eq_none_iff.mp hfound d rfl) s hs
        simpa using this
      rw [preferred?, hfound, Option.none_or, List.getLast?_eq_some_iff]
      constructor
      · exact fun hlast => .inr ⟨hnone, hlast⟩
      · rintro (⟨d, front, back, hd, hr, rfl, -⟩ | ⟨-, hlast⟩)
        · exact absurd hr (hnone d hd r (by simp))
        · exact hlast

theorem mem_of_preferred? (h : preferred? rivals digest = some r) : r ∈ rivals := by
  rcases preferred?_eq_some_iff.mp h with ⟨_, _, _, _, _, rfl, _⟩ | ⟨_, _, rfl⟩
  · simp
  · simp

theorem exists_preferred? (digest : Option String) (h : rivals ≠ []) :
    ∃ r, preferred? rivals digest = some r := by
  rw [← Option.isSome_iff_exists, preferred?, Option.isSome_or, List.getLast?_isSome.mpr h,
    Bool.or_true]

/-- The place of the last one of a class is where the last one of the class stands. -/
theorem getElem?_lastIdx? (p : Removal → Bool) (bucket : List Removal) :
    (lastIdx? p bucket).bind (bucket[·]?) = (bucket.filter p).getLast? := by
  rw [List.getLast?_filter, List.find?_eq_bind_findIdx?_getElem?, lastIdx?, Option.bind_map]
  cases hplace : bucket.reverse.findIdx? p with
  | none => rfl
  | some n =>
      obtain ⟨hlt, -⟩ := List.findIdx?_eq_some_iff_getElem.mp hplace
      rw [List.length_reverse] at hlt
      exact (List.getElem?_reverse hlt).symm

/-- At the place where a creation finds its match stands the removal that it prefers. -/
theorem getElem?_match? (bucket : List Removal) (isDir : Bool) (digest : Option String) :
    (match? bucket isDir digest).bind (fun found => bucket[found.1]?) =
      preferred? (bucket.filter (·.isDir == isDir)) digest := by
  have hfind : ∀ d, (bucket.filter (·.isDir == isDir)).find? (·.digest == some d) =
      (bucket.findIdx? fun r => r.isDir == isDir && r.digest == some d).bind (bucket[·]?) := by
    intro d
    rw [List.find?_filter, ← List.find?_eq_bind_findIdx?_getElem?]
    congr 1
    funext r
    simp [beq_eq_decide]
  have hbyDigest : (digest.bind fun d =>
        (bucket.filter (·.isDir == isDir)).find? (·.digest == some d)) =
      (digest.bind fun d => bucket.findIdx? fun r =>
        r.isDir == isDir && r.digest == some d).bind (bucket[·]?) := by
    rw [Option.bind_assoc]
    congr 1
    exact funext hfind
  rw [preferred?, hbyDigest, ← getElem?_lastIdx?, match?]
  dsimp only
  cases hplace : digest.bind fun d => bucket.findIdx? fun r =>
      r.isDir == isDir && r.digest == some d with
  | none => rw [Option.bind_none, Option.none_or, Option.bind_map]; rfl
  | some place =>
      -- a place that has been found holds something
      obtain ⟨d, -, hidx⟩ := Option.bind_eq_some_iff.mp hplace
      obtain ⟨hlt, -⟩ := List.findIdx?_eq_some_iff_getElem.mp hidx
      rw [Option.bind_some, Option.bind_some, List.getElem?_eq_getElem hlt, Option.some_or]

/-- A claim takes out the removal that is preferred among those of its name and kind. -/
theorem claim_eq_preferred? (w : Waiting) (path : String) (isDir : Bool)
    (digest : Option String) :
    (w.claim path isDir digest).map (·.1) =
      preferred? ((w.named (Path.baseName path)).filter (·.isDir == isDir)) digest := by
  rw [← getElem?_match?, claim]
  cases match? (w.named (Path.baseName path)) isDir digest with
  | none => rfl
  | some found =>
      simp only [Option.bind_eq_bind, Option.bind_some, takeAt]
      cases (w.named (Path.baseName path))[found.1]? with
      | none => rfl
      | some r => rfl

end Waiting

namespace Detector

open Waiting (preferred?)

variable {d : Detector} {digests : Digests} {now : Nat} {r s : Removal} {path : String}
  {isDir : Bool} {settings : Settings}

/-- The removals that a creation may end: those of its name and kind that are not over. -/
def rivals (d : Detector) (now : Nat) (isDir : Bool) (path : String) : List Removal :=
  (d.waiting.named (Path.baseName path)).filter fun r => r.isDir == isDir && !d.isOver now r

theorem mem_rivals (h : d.waiting.Valid) : r ∈ d.rivals now isDir path ↔
    r ∈ d.waiting.all ∧ Path.baseName r.path = Path.baseName path ∧ r.isDir = isDir ∧
      d.isOver now r = false := by
  rw [rivals, List.mem_filter, h.mem_named, Bool.and_eq_true, beq_iff_eq, Bool.not_eq_true',
    and_assoc]

/-- The operation that ends a removal when something is created at a path. -/
def settling (s : Removal) (path : String) : Operation :=
  if s.path = path then .modified path
  else if s.isDir then .directoryMoved s.path path
  else .moved s.path path

/-- The removals that a creation may end wait when those that are over have gone. -/
theorem named_expire (d : Detector) (now : Nat) (isDir : Bool) (path : String) :
    ((d.expire now).1.waiting.named (Path.baseName path)).filter (·.isDir == isDir) =
      d.rivals now isDir path := by
  rw [expire, Waiting.named_keep, List.filter_filter, rivals]

theorem settles_onCreated (h : d.waiting.Valid) (now : Nat)
    (hs : preferred? ((d.waiting.named (Path.baseName path)).filter (·.isDir == isDir))
      (digestOf digests isDir path) = some s) :
    (d.onCreated digests path isDir now).operations = [settling s path] ∧
      ∀ t, t ∈ (d.onCreated digests path isDir now).detector.waiting.all ↔
        t ∈ d.waiting.all ∧ t ≠ s := by
  have hkind : s.isDir = isDir := by
    simpa using (List.mem_filter.mp (Waiting.mem_of_preferred? hs)).2
  rw [← Waiting.claim_eq_preferred?] at hs
  rcases d.onCreated_cases digests path isDir now with
    ⟨r, signal, after, hclaim, rfl, hops⟩ | ⟨hclaim, -, -⟩
  · rw [hclaim] at hs
    obtain rfl : r = s := Option.some.inj hs
    exact ⟨by rw [hops, settling, hkind], (h.claim hclaim).2.2⟩
  · rw [hclaim] at hs
    exact absurd hs (by simp)

/--
An event ends one removal by one operation, behind those that are over; all others go on waiting.
-/
structure Settles (d : Detector) (now : Nat) (done : Detection) (s : Removal) (op : Operation) :
    Prop where
  operations : done.operations = (d.expire now).2 ++ [op]
  waiting : ∀ t, t ∈ done.detector.waiting.all ↔
    t ∈ d.waiting.all ∧ d.isOver now t = false ∧ t ≠ s

/-- A creation ends the removal that it prefers. -/
theorem settles_handle_created (h : d.waiting.Valid)
    (hs : preferred? (d.rivals now isDir path) (digestOf digests isDir path) = some s) :
    d.Settles now (d.handle digests (.created isDir path) now) s (settling s path) := by
  rw [← named_expire] at hs
  obtain ⟨hops, hall⟩ := settles_onCreated (valid_expire h now) now hs
  refine ⟨?_, fun t => ?_⟩
  · rw [handle_eq, react, hops]
  · rw [handle_eq, react, hall, mem_expire, and_assoc]

/--
**What is created again in place is a change exactly if its own removal is preferred.**

Let a removal wait that is not over, and let its path be created again, as what it was. Then
its own removal is ended by a change, and nothing else is, just when it is the one that is
preferred among those of its name and kind. Some removal always is: if another one, then that
one is ended by a move into the path, and the removal of the path goes on waiting. Where no
other removal of the name and kind waits, the one of the path is preferred.
-/
theorem Run.recreated_iff (h : Run settings d) (hr : r ∈ d.waiting.all)
    (hfresh : d.isOver now r = false) (digests : Digests) :
    (d.Settles now (d.handle digests (.created r.isDir r.path) now) r (.modified r.path) ↔
      preferred? (d.rivals now r.isDir r.path) (digestOf digests r.isDir r.path) = some r) ∧
    (∃ s, preferred? (d.rivals now r.isDir r.path) (digestOf digests r.isDir r.path) = some s ∧
      (s ≠ r → s.path ≠ r.path ∧
        d.Settles now (d.handle digests (.created r.isDir r.path) now) s
          (if r.isDir then .directoryMoved s.path r.path else .moved s.path r.path))) ∧
    ((∀ s ∈ d.waiting.all, Path.baseName s.path = Path.baseName r.path → s.isDir = r.isDir →
        d.isOver now s = false → s = r) →
      preferred? (d.rivals now r.isDir r.path) (digestOf digests r.isDir r.path) = some r) := by
  have hvalid := h.valid
  have hin : r ∈ d.rivals now r.isDir r.path := (mem_rivals hvalid).mpr ⟨hr, rfl, rfl, hfresh⟩
  obtain ⟨s, hs⟩ := Waiting.exists_preferred? (digestOf digests r.isDir r.path)
    (List.ne_nil_of_mem hin)
  obtain ⟨hsin, hsname, hskind, hsfresh⟩ := (mem_rivals hvalid).mp (Waiting.mem_of_preferred? hs)
  have hsettles := settles_handle_created hvalid hs
  refine ⟨⟨fun hchange => ?_, fun hpref => ?_⟩, ⟨s, hs, fun hne => ?_⟩, fun halone => ?_⟩
  · -- were it another one, that one would be gone
    by_cases hsr : s = r
    · rw [hs, hsr]
    · have hthere := (hchange.waiting s).mpr ⟨hsin, hsfresh, hsr⟩
      exact absurd rfl ((hsettles.waiting s).mp hthere).2.2
  · have hown := settles_handle_created hvalid hpref
    rwa [settling, if_pos rfl] at hown
  · have hpath : s.path ≠ r.path := fun he => hne (hvalid.eq_of_path hsin hr he)
    rw [settling, if_neg hpath, hskind] at hsettles
    exact ⟨hpath, hsettles⟩
  · rw [hs, halone s hsin hsname hskind hsfresh]

/-- A detector that has seen two notes of one name go, the first one with what was in it. -/
def namesakes : Detector :=
  let first := (make .defaults).handle (fun _ => some "x") (.removed false "a/n.md") 0
  (first.detector.handle (fun _ => none) (.removed false "b/n.md") 1000000000).detector

theorem run_namesakes : Run .defaults namesakes := (Run.make.handle _ _ _).handle _ _ _

/-- The removal of the first of them. -/
def firstGone : Removal := ⟨0, some "x", false, "a/n.md", false, none⟩

/-- The first of two notes of one name is a change when it comes back with what was in it. -/
theorem settles_firstGone :
    firstGone ∈ namesakes.waiting.all ∧ namesakes.isOver 2000000000 firstGone = false ∧
    namesakes.Settles 2000000000
      (namesakes.handle (fun _ => some "x") (.created false "a/n.md") 2000000000)
      firstGone (.modified "a/n.md") := by
  have hin : firstGone ∈ namesakes.waiting.all := by decide +kernel
  have hfresh : namesakes.isOver 2000000000 firstGone = false := by decide +kernel
  exact ⟨hin, hfresh, (run_namesakes.recreated_iff hin hfresh fun _ => some "x").1.mpr
    (by decide +kernel)⟩

/-- With something else in it, it is taken for the second one, and is reported as deleted later. -/
theorem moved_of_firstGone :
    Run .defaults namesakes ∧ firstGone ∈ namesakes.waiting.all ∧
    namesakes.isOver 2000000000 firstGone = false ∧
    (namesakes.handle (fun _ => some "y") (.created false "a/n.md") 2000000000).operations =
      [.moved "b/n.md" "a/n.md"] ∧
    ((namesakes.handle (fun _ => some "y") (.created false "a/n.md") 2000000000).detector.expire
      6000000000).2 = [.deleted "a/n.md"] :=
  ⟨run_namesakes, by decide +kernel, by decide +kernel, by decide +kernel, by decide +kernel⟩

end Detector

end LinkKeeper
