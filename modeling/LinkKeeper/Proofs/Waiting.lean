import LinkKeeper.Detector
import LinkKeeper.Proofs.Maps
import Mathlib.Data.List.Nodup

/-!
# Removals that wait

Removals are looked for in two ways: by their name, when something of that name appears,
and all over the buckets, when the second half of a rename comes. `Waiting.Valid` says that
both ways see the same: a removal is in the bucket of its own name and in no other, a path
has one removal at most, and there is no bucket without one.

What an operation on the buckets does is then one equation for membership in `all`. Nothing
that comes later looks into a bucket.
-/

namespace LinkKeeper

namespace Waiting

variable {w after : Waiting} {r s : Removal} {name other path : String}

/-- Each removal is in the bucket of its name, each path has one at most, and no bucket is empty. -/
structure Valid (w : Waiting) : Prop where
  own : ∀ name, ∀ r ∈ w.named name, Path.baseName r.path = name
  single : ∀ name, ((w.named name).map (·.path)).Nodup
  nonempty : ∀ name : String, w[name]? ≠ some []

/-! ## All buckets together -/

theorem named_eq_of_getElem? {bucket : List Removal} (h : w[name]? = some bucket) :
    w.named name = bucket := by
  rw [named, h, Option.getD_some]

theorem mem_all : r ∈ w.all ↔ ∃ name, r ∈ w.named name := by
  rw [all, values_eq_map, List.mem_flatten]
  constructor
  · rintro ⟨bucket, hb, hr⟩
    obtain ⟨⟨name, _⟩, hpair, rfl⟩ := List.mem_map.mp hb
    rw [Std.TreeMap.mem_toList_iff_getElem?_eq_some] at hpair
    exact ⟨name, by rw [named_eq_of_getElem? hpair]; exact hr⟩
  · rintro ⟨name, hr⟩
    cases hb : w[name]? with
    | none =>
        rw [named, hb] at hr
        exact absurd hr (by simp)
    | some bucket =>
        rw [named_eq_of_getElem? hb] at hr
        exact ⟨bucket, List.mem_map.mpr
          ⟨(name, bucket), Std.TreeMap.mem_toList_iff_getElem?_eq_some.mpr hb, rfl⟩, hr⟩

theorem Valid.mem_named (h : w.Valid) : r ∈ w.named name ↔ r ∈ w.all ∧ Path.baseName r.path = name := by
  constructor
  · exact fun hr => ⟨mem_all.mpr ⟨name, hr⟩, h.own name r hr⟩
  · rintro ⟨hr, hname⟩
    obtain ⟨other, hr⟩ := mem_all.mp hr
    rw [← hname, h.own other r hr]
    exact hr

/-- A path has one removal. -/
theorem Valid.eq_of_path (h : w.Valid) (hr : r ∈ w.all) (hs : s ∈ w.all) (hp : r.path = s.path) :
    r = s := by
  have hr' := h.mem_named.mpr ⟨hr, rfl⟩
  have hs' := h.mem_named.mpr ⟨hs, rfl⟩
  rw [← hp] at hs'
  exact List.inj_on_of_nodup_map (h.single _) hr' hs' hp

/-- All removals in a row are one for each path. -/
theorem Valid.nodup_paths (h : w.Valid) : (w.all.map (·.path)).Nodup := by
  rw [all, values_eq_map, List.map_flatten, List.map_map, List.nodup_flatten]
  have hbucket : ∀ pair ∈ w.toList, pair.2 = w.named pair.1 := by
    intro pair hp
    rw [Std.TreeMap.mem_toList_iff_getElem?_eq_some] at hp
    exact (named_eq_of_getElem? hp).symm
  refine ⟨?_, ?_⟩
  · intro paths hp
    obtain ⟨pair, hpair, rfl⟩ := List.mem_map.mp hp
    rw [Function.comp_apply, hbucket pair hpair]
    exact h.single pair.1
  · rw [List.pairwise_map]
    refine (Std.TreeMap.distinct_keys_toList (t := w)).imp_of_mem fun {a b} ha hb hne => ?_
    -- a path in two buckets would have two names
    intro path hpa hpb
    rw [Function.comp_apply, hbucket _ ha] at hpa
    rw [Function.comp_apply, hbucket _ hb] at hpb
    obtain ⟨r, hr, rfl⟩ := List.mem_map.mp hpa
    obtain ⟨s, hs, hsr⟩ := List.mem_map.mp hpb
    refine hne (Std.compare_eq_iff_eq.mpr ?_)
    rw [← h.own _ r hr, ← h.own _ s hs, hsr]

/-! ## One bucket -/

theorem named_set (w : Waiting) (name other : String) (bucket : List Removal) :
    (w.set name bucket).named other = if other = name then bucket else w.named other := by
  unfold set
  split
  · rename_i hnil
    rw [named, Std.TreeMap.getElem?_erase]
    simp only [Std.compare_eq_iff_eq]
    by_cases h : other = name
    · simp [h, List.isEmpty_iff.mp hnil]
    · simp [h, Ne.symm h, named]
  · rw [named, Std.TreeMap.getElem?_insert]
    simp only [Std.compare_eq_iff_eq]
    by_cases h : other = name
    · simp [h]
    · simp [h, Ne.symm h, named]

theorem Valid.set (h : w.Valid) {bucket : List Removal}
    (hown : ∀ r ∈ bucket, Path.baseName r.path = name) (hsingle : (bucket.map (·.path)).Nodup) :
    (w.set name bucket).Valid := by
  refine ⟨?_, ?_, ?_⟩
  · intro other r hr
    rw [named_set] at hr
    split at hr
    · rename_i he
      rw [he]
      exact hown r hr
    · exact h.own other r hr
  · intro other
    rw [named_set]
    split
    · exact hsingle
    · exact h.single other
  · intro other
    unfold Waiting.set
    split
    · rw [Std.TreeMap.getElem?_erase]
      split
      · simp
      · exact h.nonempty other
    · rename_i hsome
      rw [Std.TreeMap.getElem?_insert]
      split
      · intro he
        exact hsome (List.isEmpty_iff.mpr (Option.some.inj he))
      · exact h.nonempty other

theorem Valid.mem_all_set (h : w.Valid) {bucket : List Removal}
    (hown : ∀ r ∈ bucket, Path.baseName r.path = name) :
    r ∈ (w.set name bucket).all ↔ if Path.baseName r.path = name then r ∈ bucket else r ∈ w.all := by
  rw [mem_all]
  simp only [named_set]
  constructor
  · rintro ⟨other, hr⟩
    split at hr
    · rw [if_pos (hown r hr)]
      exact hr
    · rename_i hne
      rw [if_neg (by rw [h.own other r hr]; exact hne)]
      exact mem_all.mpr ⟨other, hr⟩
  · intro hr
    refine ⟨Path.baseName r.path, ?_⟩
    split
    · rename_i he
      rw [if_pos he] at hr
      exact hr
    · rename_i hne
      rw [if_neg hne] at hr
      exact h.mem_named.mpr ⟨hr, rfl⟩

/-! ## What each operation does -/

theorem valid_empty : (∅ : Waiting).Valid :=
  ⟨fun name r hr => absurd hr (by simp [named]), fun name => by simp [named], fun name => by simp⟩

@[simp] theorem all_empty : (∅ : Waiting).all = [] := rfl

theorem Valid.discard (h : w.Valid) (path : String) : (w.discard path).Valid := by
  refine h.set (fun r hr => h.own _ r (List.mem_filter.mp hr).1) ?_
  exact (h.single _).sublist (List.filter_sublist.map _)

theorem Valid.mem_discard (h : w.Valid) : r ∈ (w.discard path).all ↔ r ∈ w.all ∧ r.path ≠ path := by
  rw [Waiting.discard, h.mem_all_set fun r hr => h.own _ r (List.mem_filter.mp hr).1]
  split
  · rename_i he
    rw [List.mem_filter, h.mem_named, bne_iff_ne]
    exact ⟨fun hr => ⟨hr.1.1, hr.2⟩, fun hr => ⟨⟨hr.1, he⟩, hr.2⟩⟩
  · rename_i hne
    exact ⟨fun hr => ⟨hr, fun he => hne (by rw [he])⟩, fun hr => hr.1⟩

theorem push_eq_set (w : Waiting) (r : Removal) :
    w.push r = w.set (Path.baseName r.path) (w.named (Path.baseName r.path) ++ [r]) := by
  rw [push, set, if_neg (by simp)]

theorem Valid.push (h : w.Valid) (hnew : ∀ s ∈ w.all, s.path ≠ r.path) : (w.push r).Valid := by
  rw [push_eq_set]
  refine h.set ?_ ?_
  · intro s hs
    rcases List.mem_append.mp hs with hs | hs
    · exact h.own _ s hs
    · rw [List.mem_singleton.mp hs]
  · rw [List.map_append, List.nodup_append]
    refine ⟨h.single _, by simp, ?_⟩
    intro p hp q hq hpq
    obtain ⟨s, hs, rfl⟩ := List.mem_map.mp hp
    obtain rfl : q = r.path := by simpa using hq
    exact hnew s (h.mem_named.mp hs).1 hpq

theorem Valid.mem_push (h : w.Valid) : s ∈ (w.push r).all ↔ s ∈ w.all ∨ s = r := by
  have hown : ∀ s ∈ w.named (Path.baseName r.path) ++ [r],
      Path.baseName s.path = Path.baseName r.path := by
    intro s hs
    rcases List.mem_append.mp hs with hs | hs
    · exact h.own _ s hs
    · rw [List.mem_singleton.mp hs]
  rw [push_eq_set, h.mem_all_set hown]
  split
  · rename_i he
    rw [List.mem_append, h.mem_named, List.mem_singleton]
    exact ⟨Or.imp_left fun hs => hs.1, Or.imp_left fun hs => ⟨hs, he⟩⟩
  · rename_i hne
    refine ⟨Or.inl, fun hs => hs.resolve_right fun he => hne (by rw [he])⟩

/-- What has been taken out of a bucket was in it, and is the only thing that is missing. -/
theorem Valid.takeAt (h : w.Valid) {place : Nat} (ht : w.takeAt name place = some (s, after)) :
    after.Valid ∧ s ∈ w.named name ∧ ∀ r, r ∈ after.all ↔ r ∈ w.all ∧ r ≠ s := by
  rw [Waiting.takeAt, Option.map_eq_some_iff] at ht
  obtain ⟨t, hplace, hpair⟩ := ht
  obtain ⟨rfl, rfl⟩ := Prod.mk.inj hpair
  have hs : t ∈ w.named name := List.mem_of_getElem? hplace
  obtain ⟨hlt, hget⟩ := List.getElem?_eq_some_iff.mp hplace
  have hown : ∀ r ∈ (w.named name).eraseIdx place, Path.baseName r.path = name :=
    fun r hr => h.own _ r (List.mem_of_mem_eraseIdx hr)
  have hnodup : (w.named name).Nodup := (h.single name).of_map
  refine ⟨h.set hown ((h.single _).sublist ((List.eraseIdx_sublist _ _).map _)), hs, fun r => ?_⟩
  rw [h.mem_all_set hown]
  have herase : (w.named name).eraseIdx place = (w.named name).erase t := by
    rw [← hget, hnodup.erase_getElem place hlt]
  split
  · rename_i he
    rw [herase, hnodup.mem_erase_iff, h.mem_named]
    exact ⟨fun hr => ⟨hr.2.1, hr.1⟩, fun hr => ⟨hr.2, hr.1, he⟩⟩
  · rename_i hne
    refine ⟨fun hr => ⟨hr, fun he => hne ?_⟩, fun hr => hr.1⟩
    rw [he]
    exact h.own _ t hs

theorem named_keep (w : Waiting) (p : Removal → Bool) (name : String) :
    (w.keep p).named name = (w.named name).filter p := by
  rw [named, keep, Std.TreeMap.getElem?_filterMap', named]
  cases w[name]? with
  | none => rfl
  | some bucket =>
      rw [Option.bind_some, Option.getD_some]
      split
      · rename_i hnil
        rw [hnil, Option.getD_none]
      · rfl

theorem Valid.keep (h : w.Valid) (p : Removal → Bool) : (w.keep p).Valid := by
  refine ⟨?_, ?_, ?_⟩
  · intro name r hr
    rw [named_keep] at hr
    exact h.own name r (List.mem_filter.mp hr).1
  · intro name
    rw [named_keep]
    exact (h.single name).sublist (List.filter_sublist.map _)
  · intro name
    rw [Waiting.keep, Std.TreeMap.getElem?_filterMap']
    cases w[name]? with
    | none => simp
    | some bucket =>
        rw [Option.bind_some]
        split
        · simp
        · rename_i hsome
          intro he
          exact hsome (Option.some.inj he)

theorem mem_keep {p : Removal → Bool} : r ∈ (w.keep p).all ↔ r ∈ w.all ∧ p r = true := by
  simp only [mem_all, named_keep, List.mem_filter]
  exact ⟨fun ⟨name, hr, hp⟩ => ⟨⟨name, hr⟩, hp⟩, fun ⟨⟨name, hr⟩, hp⟩ => ⟨name, hr, hp⟩⟩

/-- A claim takes out one removal of the name and kind that appeared. -/
theorem Valid.claim (h : w.Valid) {isDir : Bool} {digest : Option String} {signal : MoveSignal}
    (hc : w.claim path isDir digest = some (s, signal, after)) :
    after.Valid ∧ s ∈ w.named (Path.baseName path) ∧
      ∀ r, r ∈ after.all ↔ r ∈ w.all ∧ r ≠ s := by
  rw [Waiting.claim, Option.bind_eq_bind, Option.bind_eq_some_iff] at hc
  obtain ⟨⟨place, _⟩, -, hc⟩ := hc
  dsimp only at hc
  rw [Option.bind_eq_bind, Option.bind_eq_some_iff] at hc
  obtain ⟨⟨t, taken⟩, ht, hc⟩ := hc
  obtain ⟨rfl, -, rfl⟩ : t = s ∧ _ ∧ taken = after := by simpa using hc
  exact h.takeAt ht

/-- The first half of a rename is taken out from wherever it waits. -/
theorem Valid.claimHalf (h : w.Valid) {cookie : Option Nat} {now : Nat}
    (hc : w.claimHalf cookie now = some (s, after)) :
    after.Valid ∧ s ∈ w.all ∧ ∀ r, r ∈ after.all ↔ r ∈ w.all ∧ r ≠ s := by
  rw [Waiting.claimHalf, Option.bind_eq_bind, Option.bind_eq_some_iff] at hc
  obtain ⟨half, -, hc⟩ := hc
  rw [Option.bind_eq_bind, Option.bind_eq_some_iff] at hc
  obtain ⟨place, -, ht⟩ := hc
  obtain ⟨hvalid, hs, hmem⟩ := h.takeAt ht
  exact ⟨hvalid, (h.mem_named.mp hs).1, hmem⟩

theorem mem_inOrder {l : List Removal} : r ∈ inOrder l ↔ r ∈ l :=
  (List.mergeSort_perm l precedes).mem_iff

end Waiting

end LinkKeeper
