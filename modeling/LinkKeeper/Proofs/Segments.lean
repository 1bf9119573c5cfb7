import Mathlib.Data.List.Induction
import LinkKeeper.Path
import LinkKeeper.Proofs.Split

/-!
# Segments in normal form

A path is read segment by segment onto a stack. Here is what that leaves: some steps up,
and then names, of which no two cancel. `Collapsed` says so, and `collapse` is shown to
produce such lists, to leave them alone, and to be insensitive to collapsing a part of
its input beforehand. The last fact is what lets a path be composed from a directory and
a link one piece at a time.
-/

namespace LinkKeeper.Path

open Text

/-- A segment that is pushed and stays: neither empty nor one of the two dots. -/
def IsName (s : List Char) : Prop := s ≠ [] ∧ s ≠ here ∧ s ≠ above

/-- Some steps up and then names. -/
def Collapsed (ss : List (List Char)) : Prop :=
  ∃ (ups : Nat) (names : List (List Char)),
    ss = List.replicate ups above ++ names ∧ ∀ s ∈ names, IsName s

theorem above_ne_nil : above ≠ [] := by decide

theorem above_ne_here : above ≠ here := by decide

theorem Collapsed.of_names {names : List (List Char)} (h : ∀ s ∈ names, IsName s) :
    Collapsed names := ⟨0, names, by simp, h⟩

/-- Nothing in a collapsed list is empty or stands for the directory itself. -/
theorem Collapsed.ne_nil_here {ss : List (List Char)} (h : Collapsed ss) :
    ∀ s ∈ ss, s ≠ [] ∧ s ≠ here := by
  obtain ⟨ups, names, rfl, hn⟩ := h
  intro s hs
  rcases List.mem_append.mp hs with hs | hs
  · rw [List.eq_of_mem_replicate hs]
    exact ⟨above_ne_nil, above_ne_here⟩
  · exact ⟨(hn s hs).1, (hn s hs).2.1⟩

/-! ## One segment -/

theorem push_skip {stack : List (List Char)} {s : List Char} (h : s = [] ∨ s = here) :
    push stack s = stack := by
  rw [push.eq_def, if_pos h]

theorem push_name {stack : List (List Char)} {s : List Char} (h : IsName s) :
    push stack s = s :: stack := by
  rw [push.eq_def, if_neg (not_or.mpr ⟨h.1, h.2.1⟩), if_neg h.2.2]

theorem push_above_name {stack : List (List Char)} {s : List Char} (h : IsName s) :
    push (s :: stack) above = stack := by
  rw [push.eq_def, if_neg (not_or.mpr ⟨above_ne_nil, above_ne_here⟩), if_pos rfl]
  simp [h.2.2]

theorem push_above_replicate (n : Nat) :
    push (List.replicate n above) above = List.replicate (n + 1) above := by
  rw [push.eq_def, if_neg (not_or.mpr ⟨above_ne_nil, above_ne_here⟩), if_pos rfl]
  cases n with
  | zero => rfl
  | succ n => simp [List.replicate_succ]

/-- Every segment is one of four kinds. -/
theorem segment_cases (s : List Char) : (s = [] ∨ s = here) ∨ s = above ∨ IsName s := by
  by_cases h₁ : s = []
  · exact Or.inl (Or.inl h₁)
  · by_cases h₂ : s = here
    · exact Or.inl (Or.inr h₂)
    · by_cases h₃ : s = above
      · exact Or.inr (Or.inl h₃)
      · exact Or.inr (Or.inr ⟨h₁, h₂, h₃⟩)

/-! ## Whole lists -/

theorem foldl_push_names {names : List (List Char)} (h : ∀ s ∈ names, IsName s)
    (stack : List (List Char)) : names.foldl push stack = names.reverse ++ stack := by
  induction names generalizing stack with
  | nil => rfl
  | cons s names ih =>
      rw [List.foldl_cons, push_name (h s (by simp)), ih (fun t ht => h t (by simp [ht]))]
      simp

theorem foldl_push_replicate (m n : Nat) :
    (List.replicate n above).foldl push (List.replicate m above) =
      List.replicate (m + n) above := by
  induction n generalizing m with
  | zero => rfl
  | succ n ih =>
      rw [List.replicate_succ, List.foldl_cons, push_above_replicate, ih]
      congr 1
      omega

/-- Steps up that find only steps up stay. -/
theorem collapse_replicate_append {ups : Nat} {names : List (List Char)}
    (h : ∀ s ∈ names, IsName s) :
    collapse (List.replicate ups above ++ names) = List.replicate ups above ++ names := by
  have hu : (List.replicate ups above).foldl push [] = List.replicate ups above := by
    simpa using foldl_push_replicate 0 ups
  rw [collapse, List.foldl_append, hu, foldl_push_names h]
  simp

/-- A collapsed list stays as it is. -/
theorem Collapsed.collapse_eq {ss : List (List Char)} (h : Collapsed ss) : collapse ss = ss := by
  obtain ⟨ups, names, rfl, hn⟩ := h
  exact collapse_replicate_append hn

theorem collapse_append_singleton (ss : List (List Char)) (s : List Char) :
    collapse (ss ++ [s]) = (push (collapse ss).reverse s).reverse := by
  simp [collapse, List.foldl_append]

/-- What is left of any segments is collapsed. -/
theorem collapsed_collapse (ss : List (List Char)) : Collapsed (collapse ss) := by
  induction ss using List.reverseRecOn with
  | nil => exact ⟨0, [], rfl, by simp⟩
  | append_singleton ss s ih =>
      obtain ⟨ups, names, he, hn⟩ := ih
      rw [collapse_append_singleton, he]
      rcases segment_cases s with hs | rfl | hs
      · rw [push_skip hs]
        exact ⟨ups, names, by simp, hn⟩
      · rcases List.eq_nil_or_concat names with rfl | ⟨front, last, rfl⟩
        · refine ⟨ups + 1, [], ?_, by simp⟩
          rw [List.append_nil, List.reverse_replicate, push_above_replicate]
          simp
        · refine ⟨ups, front, ?_, fun t ht => hn t (by simp [ht])⟩
          simp only [List.concat_eq_append, List.reverse_append, List.reverse_cons,
            List.reverse_nil, List.nil_append, List.cons_append]
          rw [push_above_name (hn last (by simp))]
          simp
      · refine ⟨ups, names ++ [s], ?_, ?_⟩
        · rw [push_name hs]
          simp
        · intro t ht
          rcases List.mem_append.mp ht with ht | ht
          · exact hn t ht
          · rw [List.mem_singleton.mp ht]
            exact hs

@[simp] theorem collapse_collapse (ss : List (List Char)) :
    collapse (collapse ss) = collapse ss := (collapsed_collapse ss).collapse_eq

@[simp] theorem collapse_nil : collapse [] = [] := rfl

/-- Collapsing the front first changes nothing. -/
theorem collapse_collapse_append (as bs : List (List Char)) :
    collapse (collapse as ++ bs) = collapse (as ++ bs) := by
  have h : (collapse as).foldl push [] = as.foldl push [] := by
    have := collapse_collapse as
    rwa [collapse, collapse, List.reverse_inj] at this
  simp only [collapse, List.foldl_append] at h ⊢
  rw [h]

/-- Collapsing the back first changes nothing, whatever the stack holds by then. -/
theorem foldl_push_collapse (stack ss : List (List Char)) :
    (collapse ss).foldl push stack = ss.foldl push stack := by
  induction ss using List.reverseRecOn with
  | nil => rfl
  | append_singleton ss s ih =>
      obtain ⟨ups, names, he, hn⟩ := collapsed_collapse ss
      rw [collapse_append_singleton, List.foldl_append, ← ih]
      rcases segment_cases s with hs | rfl | hs
      · simp [push_skip hs]
      · rw [he]
        rcases List.eq_nil_or_concat names with rfl | ⟨front, last, rfl⟩
        · rw [List.append_nil, List.reverse_replicate, push_above_replicate,
            List.reverse_replicate, List.replicate_succ', List.foldl_append]
        · have hl : IsName last := hn last (by simp)
          simp only [List.concat_eq_append, List.reverse_append, List.reverse_cons,
            List.reverse_nil, List.nil_append, List.cons_append,
            List.foldl_append, List.foldl_cons, List.foldl_nil]
          rw [push_above_name hl, push_name hl, push_above_name hl]
          simp
      · simp [push_name hs, List.foldl_append]

theorem collapse_append_collapse (as bs : List (List Char)) :
    collapse (as ++ collapse bs) = collapse (as ++ bs) := by
  have h := foldl_push_collapse (as.foldl push []) bs
  simp only [collapse, List.foldl_append] at h ⊢
  rw [h]

/-- Empty segments do not count. -/
theorem collapse_filter (ss : List (List Char)) :
    collapse (ss.filter (· ≠ [])) = collapse ss := by
  have h : ∀ stack, (ss.filter (· ≠ [])).foldl push stack = ss.foldl push stack := by
    induction ss with
    | nil => intro stack; rfl
    | cons s ss ih =>
        intro stack
        by_cases hs : s = []
        · rw [List.filter_cons_of_neg (by simpa using hs), List.foldl_cons,
            push_skip (Or.inl hs), ih]
        · rw [List.filter_cons_of_pos (by simpa using hs), List.foldl_cons, List.foldl_cons, ih]
  rw [collapse, collapse, h]

/-! ## A directory and a way from it -/

/-- Steps up take names off, and what remains is gone down from. -/
theorem collapse_up_down {dir rest : List (List Char)} (hd : ∀ s ∈ dir, IsName s)
    (hr : ∀ s ∈ rest, IsName s) {n : Nat} (hn : n ≤ dir.length) :
    collapse (dir ++ (List.replicate n above ++ rest)) = dir.take (dir.length - n) ++ rest := by
  induction n generalizing dir with
  | zero =>
      have hc : Collapsed (dir ++ rest) := .of_names fun s hs =>
        (List.mem_append.mp hs).elim (hd s) (hr s)
      simpa using hc.collapse_eq
  | succ n ih =>
      rcases List.eq_nil_or_concat dir with rfl | ⟨front, last, rfl⟩
      · simp at hn
      · have hl : IsName last := hd last (by simp)
        have hf : ∀ s ∈ front, IsName s := fun s hs => hd s (by simp [hs])
        have hstep : collapse (front ++ [last] ++ [above]) = collapse front := by
          rw [collapse_append_singleton, collapse_append_singleton, List.reverse_reverse,
            push_name hl, push_above_name hl, List.reverse_reverse]
        rw [List.concat_eq_append] at hn ⊢
        have hn' : n ≤ front.length := by simpa using hn
        calc collapse (front ++ [last] ++ (List.replicate (n + 1) above ++ rest))
            = collapse (front ++ [last] ++ [above] ++ (List.replicate n above ++ rest)) := by
              simp [List.replicate_succ]
          _ = collapse (front ++ (List.replicate n above ++ rest)) := by
              rw [← collapse_collapse_append, hstep, collapse_collapse_append]
          _ = front.take (front.length - n) ++ rest := ih hf hn'
          _ = (front ++ [last]).take ((front ++ [last]).length - (n + 1)) ++ rest := by
              rw [List.length_append, List.length_singleton, Nat.add_sub_add_right,
                List.take_append_of_le_length (Nat.sub_le _ _)]

end LinkKeeper.Path
