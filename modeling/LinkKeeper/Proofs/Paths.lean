import LinkKeeper.Proofs.Segments

/-!
# Paths as lists of segments

Every function on paths is described here by what it does to segments, so that proofs
about moves can forget the text. `Tidy` lists are exactly those that normal forms are
written from: `segments` and `join` go back and forth between the two.

A `Proper` path is one that names something below the root. The names along it are its
`segments`; there is at least one, and none of them is a step up.
-/

namespace LinkKeeper.Path

open Text

/-- The segments of a spelling before any of them is dropped. -/
def pieces (path : String) : List (List Char) := splitWhere isSeparator path.toList

/-- A list of segments that a normal form is written from. -/
structure Tidy (ss : List (List Char)) : Prop where
  collapsed : Collapsed ss
  plain : ∀ s ∈ ss, ∀ c ∈ s, isSeparator c = false

/-- A path in normal form that names something below the root. -/
structure Proper (path : String) : Prop where
  normal : normalize path = path
  nonempty : path ≠ ""
  inside : escapes path = false

theorem proper_iff {path : String} :
    Proper path ↔ normalize path = path ∧ path ≠ "" ∧ escapes path = false := by
  constructor
  · intro h
    exact ⟨h.normal, h.nonempty, h.inside⟩
  · intro h
    exact ⟨h.1, h.2.1, h.2.2⟩

instance decidableProper (path : String) : Decidable (Proper path) :=
  decidable_of_decidable_of_iff proper_iff.symm

theorem segments_eq (path : String) : segments path = collapse (pieces path) := rfl

theorem isSeparator_slash : isSeparator '/' = true := rfl

@[simp] theorem pieces_empty : pieces "" = [[]] := rfl

/-! ## Segments of what was joined -/

/-- A push brings nothing onto the stack but the segment itself. -/
theorem mem_push {stack : List (List Char)} {s t : List Char} (h : t ∈ push stack s) :
    t ∈ stack ∨ t = s := by
  rw [push.eq_def] at h
  split at h
  · exact Or.inl h
  · split at h
    · rename_i hs
      subst hs
      cases stack with
      | nil => exact Or.inr (List.mem_singleton.mp h)
      | cons top rest =>
          dsimp only at h
          split at h
          · exact (List.mem_cons.mp h).symm
          · exact Or.inl (List.mem_cons_of_mem _ h)
    · exact (List.mem_cons.mp h).symm

/-- Collapsing brings no segment in. -/
theorem mem_of_mem_collapse {ss : List (List Char)} {t : List Char} (h : t ∈ collapse ss) :
    t ∈ ss := by
  induction ss using List.reverseRecOn with
  | nil => exact h
  | append_singleton ss s ih =>
      rw [collapse_append_singleton, List.mem_reverse] at h
      rcases mem_push h with h | h
      · exact List.mem_append_left _ (ih (List.mem_reverse.mp h))
      · exact List.mem_append_right _ (List.mem_singleton.mpr h)

theorem tidy_collapse {ss : List (List Char)}
    (h : ∀ s ∈ ss, ∀ c ∈ s, isSeparator c = false) : Tidy (collapse ss) :=
  ⟨collapsed_collapse ss, fun s hs => h s (mem_of_mem_collapse hs)⟩

theorem tidy_segments (path : String) : Tidy (segments path) :=
  tidy_collapse fun _ hs => of_mem_splitWhere hs

theorem Tidy.nil : Tidy [] := ⟨⟨0, [], rfl, by simp⟩, by simp⟩

theorem Tidy.collapse_eq {ss : List (List Char)} (h : Tidy ss) : collapse ss = ss :=
  h.collapsed.collapse_eq

/-- Segments written out and read again are the same. -/
theorem segments_join {ss : List (List Char)} (h : Tidy ss) : segments (join ss) = ss := by
  cases ss with
  | nil => rfl
  | cons s ss =>
      rw [segments, join, String.toList_ofList,
        splitWhere_intercalate isSeparator_slash (by simp) h.plain, h.collapse_eq]

@[simp] theorem segments_normalize (path : String) :
    segments (normalize path) = segments path := segments_join (tidy_segments path)

@[simp] theorem normalize_normalize (path : String) :
    normalize (normalize path) = normalize path := by
  rw [normalize, segments_normalize, normalize]

theorem normalize_join {ss : List (List Char)} (h : Tidy ss) : normalize (join ss) = join ss := by
  rw [normalize, segments_join h]

theorem join_injective {as bs : List (List Char)} (ha : Tidy as) (hb : Tidy bs)
    (h : join as = join bs) : as = bs := by
  rw [← segments_join ha, h, segments_join hb]

/-- A path in normal form is its segments written out. -/
theorem join_segments {path : String} (h : normalize path = path) : join (segments path) = path := h

/-- Normal forms are told apart by their segments. -/
theorem eq_of_segments_eq {a b : String} (ha : normalize a = a) (hb : normalize b = b)
    (h : segments a = segments b) : a = b := by
  rw [← ha, ← hb, normalize, normalize, h]

@[simp] theorem join_nil : join [] = "" := rfl

theorem toList_join (ss : List (List Char)) : (join ss).toList = ['/'].intercalate ss :=
  String.toList_ofList

theorem join_eq_empty {ss : List (List Char)} (h : Tidy ss) : join ss = "" ↔ ss = [] := by
  constructor
  · intro he
    exact join_injective h .nil he
  · rintro rfl
    rfl

/-! ## Climbing out -/

/-- A normal form climbs out of the root when its first segment does. -/
theorem escapes_join {ss : List (List Char)} (h : Tidy ss) :
    escapes (join ss) = true ↔ ss.head? = some above := by
  cases ss with
  | nil => decide
  | cons s ss =>
      have hs : ∀ c ∈ s, isSeparator c = false := h.plain s (by simp)
      have hslash : '/' ∉ s := fun hm => by
        have := hs '/' hm
        exact absurd this (by decide)
      have htop : ".." = String.ofList above := rfl
      cases ss with
      | nil =>
          have : ¬ ['.', '.', '/'] <+: s := fun hp => hslash (hp.subset (by simp))
          have he : (join [s] = "..") ↔ s = above := by
            rw [htop, join, intercalate_singleton, String.ofList_inj]
          simp [escapes, he, toList_join, this]
      | cons t ts =>
          have hne : ¬ join (s :: t :: ts) = ".." := fun he => by
            have hmem : '/' ∈ (join (s :: t :: ts)).toList := by
              rw [toList_join, intercalate_cons (by simp)]
              simp
            rw [he] at hmem
            exact absurd hmem (by decide)
          have hp : ['.', '.', '/'] <+: (join (s :: t :: ts)).toList ↔ s = above := by
            rw [toList_join, intercalate_cons (by simp)]
            constructor
            · rintro ⟨rest, hr⟩
              have h₁ := splitWhere_append_cons (p := isSeparator) isSeparator_slash above rest
              have h₂ := splitWhere_append_cons (p := isSeparator) isSeparator_slash s
                (['/'].intercalate (t :: ts))
              rw [← hr] at h₂
              have ha : splitWhere isSeparator above = [above] := rfl
              have h₃ : above ++ '/' :: rest = ['.', '.', '/'] ++ rest := rfl
              rw [h₃, h₂, splitWhere_of_none hs, ha] at h₁
              exact (List.cons.inj h₁).1
            · rintro rfl
              exact ⟨['/'].intercalate (t :: ts), rfl⟩
          simp [escapes, hne, hp]

/-- A collapsed list that begins with no step up has none. -/
theorem Collapsed.names {ss : List (List Char)} (h : Collapsed ss) (hh : ss.head? ≠ some above) :
    ∀ s ∈ ss, IsName s := by
  obtain ⟨ups, names, rfl, hn⟩ := h
  cases ups with
  | zero => simpa using hn
  | succ ups => simp [List.replicate_succ] at hh

theorem names_of_not_escapes {path : String} (h : escapes (normalize path) = false) :
    ∀ s ∈ segments path, IsName s := by
  refine (tidy_segments path).collapsed.names fun hh => ?_
  have := (escapes_join (tidy_segments path)).mpr hh
  rw [normalize] at h
  rw [h] at this
  exact Bool.noConfusion this

theorem Proper.names {path : String} (h : Proper path) : ∀ s ∈ segments path, IsName s :=
  names_of_not_escapes (by rw [h.normal]; exact h.inside)

theorem Proper.segments_ne_nil {path : String} (h : Proper path) : segments path ≠ [] := by
  intro he
  have := h.normal
  rw [normalize, he] at this
  exact h.nonempty this.symm

theorem tidy_names {ss : List (List Char)} (hn : ∀ s ∈ ss, IsName s)
    (hp : ∀ s ∈ ss, ∀ c ∈ s, isSeparator c = false) : Tidy ss :=
  ⟨.of_names hn, hp⟩

/-- Names written out are a proper path. -/
theorem proper_join {ss : List (List Char)} (h : Tidy ss) (hn : ∀ s ∈ ss, IsName s)
    (hne : ss ≠ []) : Proper (join ss) := by
  refine ⟨normalize_join h, fun he => hne ((join_eq_empty h).mp he), ?_⟩
  rw [← Bool.not_eq_true, escapes_join h]
  intro hh
  exact (hn above (List.mem_of_mem_head? hh)).2.2 rfl

/-! ## The last segment -/

theorem slash_not_mem {s : List Char} (h : ∀ c ∈ s, isSeparator c = false) : '/' ∉ s := by
  intro hm
  exact absurd (h '/' hm) (by decide)

theorem splitLast?_join {front : List (List Char)} {last : List Char}
    (hl : ∀ c ∈ last, isSeparator c = false) :
    splitLast? '/' (join (front ++ [last])).toList =
      if front = [] then none else some ((join front).toList, last) := by
  rw [toList_join]
  by_cases hf : front = []
  · subst hf
    simpa using splitLast?_eq_none.mpr (slash_not_mem hl)
  · rw [if_neg hf, intercalate_append hf (by simp), intercalate_singleton,
      splitLast?_append_cons (slash_not_mem hl), toList_join]

theorem parent_join {front : List (List Char)} {last : List Char}
    (hl : ∀ c ∈ last, isSeparator c = false) : parent (join (front ++ [last])) = join front := by
  rw [parent, splitLast?_join hl]
  by_cases hf : front = []
  · subst hf
    rfl
  · rw [if_neg hf]
    exact String.ofList_toList

theorem baseName_join {front : List (List Char)} {last : List Char}
    (hl : ∀ c ∈ last, isSeparator c = false) :
    baseName (join (front ++ [last])) = String.ofList last := by
  rw [baseName, splitLast?_join hl]
  by_cases hf : front = []
  · subst hf
    simp [join]
  · rw [if_neg hf]

/-- A proper path is a directory and a name in it. -/
theorem Proper.exists_join {path : String} (h : Proper path) :
    ∃ front last, segments path = front ++ [last] ∧ path = join (front ++ [last]) ∧
      parent path = join front ∧ baseName path = String.ofList last := by
  obtain ⟨front, last, he⟩ : ∃ front last, segments path = front ++ [last] := by
    rcases List.eq_nil_or_concat (segments path) with he | ⟨front, last, he⟩
    · exact absurd he h.segments_ne_nil
    · exact ⟨front, last, by rw [he, List.concat_eq_append]⟩
  have hp : path = join (front ++ [last]) := by rw [← he, join_segments h.normal]
  have hl := (tidy_segments path).plain last (by rw [he]; simp)
  exact ⟨front, last, he, hp, by rw [hp, parent_join hl], by rw [hp, baseName_join hl]⟩

theorem Tidy.left {as bs : List (List Char)} (h : Tidy (as ++ bs)) : Tidy as := by
  obtain ⟨⟨ups, names, he, hn⟩, hp⟩ := h
  refine ⟨?_, fun s hs => hp s (List.mem_append_left _ hs)⟩
  rcases List.append_eq_append_iff.mp he with ⟨cs, hu, _⟩ | ⟨cs, ha, hn'⟩
  · refine ⟨as.length, [], ?_, by simp⟩
    rw [List.append_nil]
    refine List.eq_replicate_iff.mpr ⟨rfl, fun s hs => ?_⟩
    exact List.eq_of_mem_replicate (hu ▸ List.mem_append_left _ hs)
  · exact ⟨ups, cs, ha, fun s hs => hn s (hn' ▸ List.mem_append_left _ hs)⟩

theorem segments_parent {path : String} (h : Proper path) :
    segments (parent path) = (segments path).dropLast := by
  obtain ⟨front, last, hs, _, hp, _⟩ := h.exists_join
  have ht : Tidy front := by
    have := tidy_segments path
    rw [hs] at this
    exact this.left
  rw [hp, segments_join ht, hs, List.dropLast_concat]

theorem Proper.names_parent {path : String} (h : Proper path) :
    ∀ s ∈ segments (parent path), IsName s := by
  intro s hs
  rw [segments_parent h] at hs
  exact h.names s (List.dropLast_subset _ hs)

theorem normalize_parent {path : String} (h : Proper path) :
    normalize (parent path) = parent path := by
  obtain ⟨front, last, hs, _, hp, _⟩ := h.exists_join
  have ht : Tidy front := by
    have := tidy_segments path
    rw [hs] at this
    exact this.left
  rw [hp, normalize_join ht]

end LinkKeeper.Path
