import LinkKeeper.Text.Basic
import Mathlib.Data.List.Basic

/-!
# Splitting and joining

What the splitting functions do to a text that was joined, and what the joins do to
pieces that were split. Everything about paths rests on one fact: a separator in the
text is exactly a border between pieces.
-/

namespace LinkKeeper.Text

/-- What follows a beginning of a list. -/
theorem isPrefixOf?_eq_some {α : Type} [BEq α] [LawfulBEq α] {as bs rest : List α} :
    as.isPrefixOf? bs = some rest ↔ bs = as ++ rest := by
  rw [List.isPrefixOf?_eq_some_iff_append_eq, eq_comm]

/-! ## Pieces between separators -/

theorem splitWhere_ne_nil (p : Char → Bool) (cs : List Char) : splitWhere p cs ≠ [] := by
  cases cs with
  | nil => simp [splitWhere]
  | cons c cs =>
      rw [splitWhere]
      split
      · simp
      · split <;> simp

/-- A separator ends one piece and begins the next. -/
theorem splitWhere_append_cons {p : Char → Bool} {c : Char} (hc : p c = true)
    (as bs : List Char) :
    splitWhere p (as ++ c :: bs) = splitWhere p as ++ splitWhere p bs := by
  induction as with
  | nil => simp [splitWhere, hc]
  | cons a as ih =>
      rw [List.cons_append, splitWhere, splitWhere, ih]
      by_cases ha : p a = true
      · rw [if_pos ha, if_pos ha, List.cons_append]
      · rw [if_neg ha, if_neg ha]
        cases h : splitWhere p as with
        | nil => exact absurd h (splitWhere_ne_nil p as)
        | cons piece pieces => simp

theorem splitWhere_of_none {p : Char → Bool} {cs : List Char} (h : ∀ c ∈ cs, p c = false) :
    splitWhere p cs = [cs] := by
  induction cs with
  | nil => rfl
  | cons c cs ih =>
      have hc : p c = false := h c (by simp)
      rw [splitWhere, ih (fun d hd => h d (by simp [hd]))]
      simp [hc]

/-- No piece holds a separator. -/
theorem of_mem_splitWhere {p : Char → Bool} {cs piece : List Char}
    (h : piece ∈ splitWhere p cs) : ∀ c ∈ piece, p c = false := by
  induction cs generalizing piece with
  | nil =>
      simp only [splitWhere, List.mem_singleton] at h
      subst h
      simp
  | cons c cs ih =>
      rw [splitWhere] at h
      by_cases hc : p c = true
      · rw [if_pos hc] at h
        rcases List.mem_cons.mp h with rfl | h
        · simp
        · exact ih h
      · rw [if_neg hc] at h
        cases hs : splitWhere p cs with
        | nil => exact absurd hs (splitWhere_ne_nil p cs)
        | cons first rest =>
            rw [hs] at h
            rcases List.mem_cons.mp h with rfl | h
            · intro d hd
              rcases List.mem_cons.mp hd with rfl | hd
              · simpa using hc
              · exact ih (by rw [hs]; simp) d hd
            · exact ih (by rw [hs]; simp [h])

/-- The pieces hold nothing but what was split. -/
theorem mem_of_mem_splitWhere {p : Char → Bool} {cs piece : List Char} {d : Char}
    (h : piece ∈ splitWhere p cs) (hd : d ∈ piece) : d ∈ cs := by
  induction cs generalizing piece with
  | nil =>
      rw [splitWhere, List.mem_singleton] at h
      rw [h] at hd
      exact hd
  | cons c cs ih =>
      rw [splitWhere] at h
      split at h
      · rcases List.mem_cons.mp h with rfl | h
        · exact absurd hd (by simp)
        · exact List.mem_cons_of_mem _ (ih h hd)
      · cases hs : splitWhere p cs with
        | nil => exact absurd hs (splitWhere_ne_nil p cs)
        | cons first rest =>
            rw [hs] at h ih
            rcases List.mem_cons.mp h with rfl | h
            · rcases List.mem_cons.mp hd with rfl | hd
              · exact List.mem_cons_self
              · exact List.mem_cons_of_mem _ (ih List.mem_cons_self hd)
            · exact List.mem_cons_of_mem _ (ih (List.mem_cons_of_mem _ h) hd)

/-! ## Joins -/

theorem intercalate_cons {c : Char} {s : List Char} {ss : List (List Char)} (h : ss ≠ []) :
    [c].intercalate (s :: ss) = s ++ c :: [c].intercalate ss := by
  cases ss with
  | nil => exact absurd rfl h
  | cons t ts => simp [List.intercalate]

@[simp] theorem intercalate_singleton (c : Char) (s : List Char) : [c].intercalate [s] = s := by
  simp [List.intercalate]

theorem intercalate_append {c : Char} {as bs : List (List Char)} (ha : as ≠ []) (hb : bs ≠ []) :
    [c].intercalate (as ++ bs) = [c].intercalate as ++ c :: [c].intercalate bs := by
  induction as with
  | nil => exact absurd rfl ha
  | cons a as ih =>
      cases as with
      | nil => simpa using intercalate_cons hb
      | cons b as =>
          have hne : b :: as ++ bs ≠ [] := by simp
          rw [List.cons_append, intercalate_cons hne, ih (by simp),
            intercalate_cons (s := a) (List.cons_ne_nil b as), List.append_assoc]
          rfl

/-- Splitting takes a join apart again. -/
theorem splitWhere_intercalate {p : Char → Bool} {c : Char} (hc : p c = true)
    {ss : List (List Char)} (hne : ss ≠ []) (h : ∀ s ∈ ss, ∀ d ∈ s, p d = false) :
    splitWhere p ([c].intercalate ss) = ss := by
  induction ss with
  | nil => exact absurd rfl hne
  | cons s ss ih =>
      have hs : splitWhere p s = [s] := splitWhere_of_none (h s (by simp))
      cases ss with
      | nil => simpa using hs
      | cons t ts =>
          rw [intercalate_cons (by simp), splitWhere_append_cons hc, hs,
            ih (by simp) (fun u hu => h u (by simp [hu]))]
          rfl

/-- The characters of a join are those of its pieces, and separators. -/
theorem of_mem_intercalate {c d : Char} {ss : List (List Char)}
    (h : d ∈ [c].intercalate ss) : d = c ∨ ∃ s ∈ ss, d ∈ s := by
  induction ss with
  | nil => simp [List.intercalate] at h
  | cons s ss ih =>
      cases ss with
      | nil => exact Or.inr ⟨s, by simp, by simpa using h⟩
      | cons t ts =>
          rw [intercalate_cons (by simp)] at h
          rcases List.mem_append.mp h with h | h
          · exact Or.inr ⟨s, by simp, h⟩
          · rcases List.mem_cons.mp h with h | h
            · exact Or.inl h
            · rcases ih h with h | ⟨u, hu, hd⟩
              · exact Or.inl h
              · exact Or.inr ⟨u, by simp [hu], hd⟩

/-! ## The first and the last separator -/

theorem splitLast?_eq_none {c : Char} {cs : List Char} : splitLast? c cs = none ↔ c ∉ cs := by
  induction cs with
  | nil => simp [splitLast?]
  | cons d ds ih =>
      rw [splitLast?]
      cases hs : splitLast? c ds with
      | some parts =>
          have hc : c ∈ ds := Classical.byContradiction fun h => by simp [ih.mpr h] at hs
          simp [hc]
      | none =>
          have hc : c ∉ ds := ih.mp hs
          by_cases hd : d = c
          · simp [hd]
          · simp [hd, hc, Ne.symm hd]

theorem splitLast?_append_cons {c : Char} {bs : List Char} (h : c ∉ bs) (as : List Char) :
    splitLast? c (as ++ c :: bs) = some (as, bs) := by
  induction as with
  | nil => simp [splitLast?, splitLast?_eq_none.mpr h]
  | cons a as ih => rw [List.cons_append, splitLast?, ih]

/-- What stands behind the last separator holds none. -/
theorem not_mem_of_splitLast? {c : Char} {cs front back : List Char}
    (h : splitLast? c cs = some (front, back)) : c ∉ back := by
  induction cs generalizing front with
  | nil => simp [splitLast?] at h
  | cons d ds ih =>
      rw [splitLast?] at h
      cases hs : splitLast? c ds with
      | some parts =>
          rw [hs] at h
          obtain ⟨rfl, rfl⟩ := Prod.mk.inj (Option.some.inj h)
          exact ih hs
      | none =>
          rw [hs] at h
          dsimp only at h
          split at h
          · obtain ⟨rfl, rfl⟩ := Prod.mk.inj (Option.some.inj h)
            exact splitLast?_eq_none.mp hs
          · exact absurd h (by simp)

theorem splitFirst?_eq_none {c : Char} {cs : List Char} : splitFirst? c cs = none ↔ c ∉ cs := by
  induction cs with
  | nil => simp [splitFirst?]
  | cons d ds ih =>
      rw [splitFirst?]
      by_cases hd : d = c
      · simp [hd]
      · simp [hd, Ne.symm hd, ih]

theorem splitFirst?_append_cons {c : Char} {as : List Char} (h : c ∉ as) (bs : List Char) :
    splitFirst? c (as ++ c :: bs) = some (as, bs) := by
  induction as with
  | nil => simp [splitFirst?]
  | cons a as ih =>
      obtain ⟨hne, hnot⟩ := not_or.mp (mt List.mem_cons.mpr h)
      rw [List.cons_append, splitFirst?, if_neg (Ne.symm hne), ih hnot]
      rfl

theorem not_mem_of_splitFirst? {c : Char} {cs front back : List Char}
    (h : splitFirst? c cs = some (front, back)) : c ∉ front := by
  induction cs generalizing front with
  | nil => simp [splitFirst?] at h
  | cons d ds ih =>
      rw [splitFirst?] at h
      split at h
      · obtain ⟨rfl, -⟩ := Prod.mk.inj (Option.some.inj h)
        exact List.not_mem_nil
      · rename_i hne
        obtain ⟨⟨first, rest⟩, hrest, hpair⟩ := Option.map_eq_some_iff.mp h
        obtain ⟨rfl, rfl⟩ := Prod.mk.inj hpair
        rw [List.mem_cons, not_or]
        exact ⟨Ne.symm hne, ih hrest⟩

/-! ## Parts -/

theorem contains_iff {part cs : List Char} : contains part cs = true ↔ part <:+: cs := by
  induction cs with
  | nil => rw [contains, List.isEmpty_iff, List.infix_nil]
  | cons c cs ih =>
      rw [contains, Bool.or_eq_true, List.isPrefixOf_iff_prefix, ih, List.infix_cons_iff]

end LinkKeeper.Text
