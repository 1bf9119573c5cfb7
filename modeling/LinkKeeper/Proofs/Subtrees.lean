import LinkKeeper.Proofs.Resolution

/-!
# Subtrees

What lies below a directory, and where it goes when the directory moves. A path lies
below a directory when the segments of the directory come first in its own; rebasing
takes them off and puts those of the new place in front of the rest.
-/

namespace LinkKeeper.Path

open Text

theorem below?_eq_some {dir path rest : String} :
    below? dir path = some rest ↔ path.toList = dir.toList ++ '/' :: rest.toList := by
  rw [below?]
  constructor
  · intro h
    split at h
    · rename_i more hp
      obtain rfl := Option.some.inj h
      rw [isPrefixOf?_eq_some] at hp
      rw [hp, String.toList_ofList]
    · exact absurd h (by simp)
  · intro h
    have hp : dir.toList.isPrefixOf? path.toList = some ('/' :: rest.toList) := by
      rw [isPrefixOf?_eq_some, h]
    rw [hp]
    simp

/-- What lies below a directory has more segments behind those of the directory. -/
theorem below?_join {as : List (List Char)} {rest : List (List Char)} (ha : as ≠ [])
    (hr : rest ≠ []) : below? (join as) (join (as ++ rest)) = some (join rest) := by
  rw [below?_eq_some, toList_join, toList_join, toList_join, intercalate_append ha hr]

/-- Nothing else lies below it. -/
theorem exists_of_below? {as bs : List (List Char)} (ha : Tidy as) (hb : Tidy bs)
    (hne : as ≠ []) {rest : String} (h : below? (join as) (join bs) = some rest) :
    ∃ more, more ≠ [] ∧ bs = as ++ more ∧ rest = join more := by
  rw [below?_eq_some, toList_join, toList_join] at h
  have hbne : bs ≠ [] := by
    rintro rfl
    simp [List.intercalate] at h
  have hsplit := congrArg (splitWhere isSeparator) h
  rw [splitWhere_intercalate isSeparator_slash hbne hb.plain,
    splitWhere_append_cons isSeparator_slash,
    splitWhere_intercalate isSeparator_slash hne ha.plain] at hsplit
  have hmore : splitWhere isSeparator rest.toList ≠ [] := splitWhere_ne_nil _ _
  refine ⟨_, hmore, hsplit, ?_⟩
  rw [hsplit, intercalate_append hne hmore] at h
  have := (List.cons.inj (List.append_cancel_left h)).2
  rw [join, this, String.ofList_toList]

theorem isUnder_join {as bs : List (List Char)} (ha : Tidy as) (hb : Tidy bs) :
    isUnder (join as) (join bs) = true ↔ as <+: bs := by
  by_cases hne : as = []
  · subst hne
    simp [isUnder, String.isEmpty_iff]
  · have he : (join as).isEmpty = false := by
      simpa [String.isEmpty_iff] using mt (join_eq_empty ha).mp hne
    rw [isUnder, he, Bool.false_or, Bool.or_eq_true, beq_iff_eq]
    constructor
    · rintro (h | h)
      · obtain rfl := join_injective hb ha h
        exact List.prefix_refl _
      · obtain ⟨rest, hr⟩ := Option.isSome_iff_exists.mp h
        obtain ⟨more, _, rfl, _⟩ := exists_of_below? ha hb hne hr
        exact List.prefix_append as more
    · rintro ⟨more, rfl⟩
      by_cases hm : more = []
      · subst hm
        simp
      · right
        rw [below?_join hne hm]
        rfl

theorem isUnder_iff {dir path : String} (hd : normalize dir = dir) (hp : normalize path = path) :
    isUnder dir path = true ↔ segments dir <+: segments path := by
  rw [← isUnder_join (tidy_segments dir) (tidy_segments path), join_segments hd, join_segments hp]

theorem isUnder_refl (path : String) : isUnder path path = true := by
  simp [isUnder]

/-! ## Moving a subtree -/

theorem Tidy.right {as bs : List (List Char)} (ha : ∀ s ∈ as, IsName s) (hne : as ≠ [])
    (h : Tidy (as ++ bs)) : ∀ s ∈ bs, IsName s := by
  have hh : (as ++ bs).head? ≠ some above := by
    cases as with
    | nil => exact absurd rfl hne
    | cons a as =>
        intro he
        exact (ha a (by simp)).2.2 (by simpa using he)
  exact fun s hs => h.collapsed.names hh s (List.mem_append_right _ hs)

/-- A path below the old place goes to the same place below the new one. -/
theorem rebase?_join {as bs more : List (List Char)} (ha : as ≠ []) (hb : Tidy bs)
    (hbne : bs ≠ []) (hat : Tidy as) (hmt : Tidy (as ++ more)) :
    rebase? (join (as ++ more)) (join as) (join bs) = some (join (bs ++ more)) := by
  rw [rebase?]
  by_cases hm : more = []
  · subst hm
    simp
  · have hne : join (as ++ more) ≠ join as := by
      intro he
      have := join_injective hmt hat he
      exact hm (by simpa using this)
    have hbe : (join bs).isEmpty = false := by
      simpa [String.isEmpty_iff] using mt (join_eq_empty hb).mp hbne
    rw [if_neg (by simpa using hne), below?_join ha hm]
    simp only [Option.map_some, hbe, Option.some.injEq]
    rw [← String.toList_inj]
    simp [String.toList_append, toList_join, intercalate_append hbne hm]

/-- Only what lies at or below the old place goes anywhere. -/
theorem rebase?_eq_some {path source target new : String} (hp : normalize path = path)
    (hs : Proper source) (ht : Proper target) (h : rebase? path source target = some new) :
    ∃ more, segments path = segments source ++ more ∧ segments new = segments target ++ more ∧
      Proper new := by
  have hpath := join_segments hp
  have hsource := join_segments hs.normal
  have htarget := join_segments ht.normal
  rw [rebase?] at h
  by_cases he : path = source
  · subst he
    rw [if_pos (by simp)] at h
    obtain rfl := Option.some.inj h
    exact ⟨[], by simp, by simp, ht⟩
  · rw [if_neg (by simpa using he)] at h
    obtain ⟨rest, hr, hn⟩ := Option.map_eq_some_iff.mp h
    rw [← hpath, ← hsource] at hr
    obtain ⟨more, hm, hseg, rfl⟩ :=
      exists_of_below? (tidy_segments source) (tidy_segments path) hs.segments_ne_nil hr
    have hte : target.isEmpty = false := by simpa [String.isEmpty_iff] using ht.nonempty
    have hmn : ∀ s ∈ more, IsName s :=
      Tidy.right hs.names hs.segments_ne_nil (hseg ▸ tidy_segments path)
    have hmp : ∀ s ∈ more, ∀ c ∈ s, isSeparator c = false := fun s hs' =>
      (tidy_segments path).plain s (by rw [hseg]; exact List.mem_append_right _ hs')
    have htidy : Tidy (segments target ++ more) := by
      refine tidy_names ?_ ?_ <;> intro s hs' <;> rcases List.mem_append.mp hs' with hs' | hs'
      · exact ht.names s hs'
      · exact hmn s hs'
      · exact (tidy_segments target).plain s hs'
      · exact hmp s hs'
    have hnew : new = join (segments target ++ more) := by
      rw [← hn, ← String.toList_inj]
      simp only [hte, Bool.false_eq_true, if_false, String.toList_append]
      rw [toList_join (segments target ++ more), intercalate_append ht.segments_ne_nil hm,
        ← toList_join, ← toList_join, htarget]
      simp
    refine ⟨more, hseg, by rw [hnew, segments_join htidy], ?_⟩
    rw [hnew]
    exact proper_join htidy (fun s hs' => (List.mem_append.mp hs').elim (ht.names s) (hmn s))
      (by simp [ht.segments_ne_nil])

/-- What lies at or below a proper path is proper. -/
theorem Proper.of_isUnder {dir path : String} (hd : Proper dir) (hp : normalize path = path)
    (hu : isUnder dir path = true) : Proper path := by
  obtain ⟨more, hmore⟩ := (isUnder_iff hd.normal hp).mp hu
  have ht : Tidy (segments dir ++ more) := hmore ▸ tidy_segments path
  have hright : ∀ s ∈ more, IsName s := Tidy.right hd.names hd.segments_ne_nil ht
  have hn : ∀ s ∈ segments path, IsName s := by
    intro s hs
    rw [← hmore] at hs
    exact (List.mem_append.mp hs).elim (hd.names s) (hright s)
  rw [← join_segments hp]
  refine proper_join (tidy_segments path) hn ?_
  rw [← hmore]
  simp [hd.segments_ne_nil]

/-- All that lies at or below the old place goes somewhere. -/
theorem exists_rebase? {path source : String} (hs : Proper source)
    (hu : isUnder source path = true) (target : String) :
    ∃ new, rebase? path source target = some new := by
  rw [rebase?]
  by_cases he : path = source
  · exact ⟨target, if_pos (by simpa using he)⟩
  · have hsome : (below? source path).isSome = true := by
      have hsource : source.isEmpty = false := by simpa [String.isEmpty_iff] using hs.nonempty
      rw [isUnder, hsource, Bool.false_or, Bool.or_eq_true, beq_iff_eq] at hu
      exact hu.resolve_left he
    obtain ⟨rest, hrest⟩ := Option.isSome_iff_exists.mp hsome
    rw [if_neg (by simpa using he), hrest]
    exact ⟨_, rfl⟩

theorem isUnder_of_rebase? {path source target new : String} (hp : normalize path = path)
    (hs : Proper source) (ht : Proper target) (h : rebase? path source target = some new) :
    isUnder source path = true ∧ isUnder target new = true := by
  obtain ⟨more, hold, hnew, hproper⟩ := rebase?_eq_some hp hs ht h
  rw [isUnder_iff hs.normal hp, isUnder_iff ht.normal hproper.normal, hold, hnew]
  exact ⟨List.prefix_append _ _, List.prefix_append _ _⟩

/-- What is not below the directory stays. -/
theorem rebase?_of_not_isUnder {path source target : String} (hp : normalize path = path)
    (hs : Proper source) (ht : Proper target) (h : isUnder source path = false) :
    rebase? path source target = none := by
  cases hnew : rebase? path source target with
  | none => rfl
  | some new => exact absurd (isUnder_of_rebase? hp hs ht hnew).1 (by simp [h])

end LinkKeeper.Path
