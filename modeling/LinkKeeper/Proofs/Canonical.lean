import Mathlib.Data.List.TakeWhile
import LinkKeeper.Proofs.Resolution

/-!
# The one form of a path

`normalize` brings every spelling of a path into one form. What this form looks like is said here
without it: `Canonical` speaks of the characters of a text and of the names between its slashes. The
texts that look so are exactly those that `normalize` leaves alone.

The form of a long spelling does not depend on whether its front has been brought into the form
before. So a link that is read from where another link leads may be read in one go, as the two
written one behind the other.
-/

namespace LinkKeeper

namespace Text

/-- What was split at a character is joined by it again. -/
theorem intercalate_splitWhere (c : Char) (cs : List Char) :
    [c].intercalate (splitWhere (· == c) cs) = cs := by
  induction cs with
  | nil => rfl
  | cons d ds ih =>
      have hne := splitWhere_ne_nil (· == c) ds
      rw [splitWhere]
      split
      · rename_i hd
        rw [intercalate_cons hne, ih, beq_iff_eq.mp hd, List.nil_append]
      · cases hs : splitWhere (· == c) ds with
        | nil => exact absurd hs hne
        | cons piece pieces =>
            rw [hs] at ih
            dsimp only
            cases pieces with
            | nil => rw [intercalate_singleton] at ih ⊢; rw [ih]
            | cons next pieces =>
                rw [intercalate_cons (List.cons_ne_nil _ _)] at ih ⊢
                rw [List.cons_append, ih]

/-- A text that begins or ends with the character that it is split at has an empty piece. -/
theorem nil_mem_splitWhere {p : Char → Bool} {c : Char} (hc : p c = true) {cs : List Char}
    (h : cs.head? = some c ∨ cs.getLast? = some c) : [] ∈ splitWhere p cs := by
  rcases h with h | h
  · obtain ⟨rest, rfl⟩ := List.head?_eq_some_iff.mp h
    rw [splitWhere, if_pos hc]
    exact List.mem_cons_self
  · obtain ⟨front, rfl⟩ := List.getLast?_eq_some_iff.mp h
    rw [splitWhere_append_cons hc]
    exact List.mem_append_right _ List.mem_cons_self

end Text

namespace Path

open Text

/-! ## What the form looks like -/

/-- The names between the slashes of a path. The root has none. -/
def written (path : String) : List (List Char) :=
  if path = "" then [] else splitWhere (· == '/') path.toList

/--
The look of a path in its one form: no backslash, no slash at either end, every name a name or a step
up, and the steps up before all names.
-/
structure Canonical (path : String) : Prop where
  forward : '\\' ∉ path.toList
  begins : path.toList.head? ≠ some '/'
  ends : path.toList.getLast? ≠ some '/'
  named : ∀ s ∈ written path, s ≠ [] ∧ s ≠ here
  upsFirst : above ∉ (written path).dropWhile (· == above)

theorem canonical_iff {path : String} :
    Canonical path ↔ '\\' ∉ path.toList ∧ path.toList.head? ≠ some '/' ∧
      path.toList.getLast? ≠ some '/' ∧ (∀ s ∈ written path, s ≠ [] ∧ s ≠ here) ∧
      above ∉ (written path).dropWhile (· == above) := by
  constructor
  · intro h
    exact ⟨h.forward, h.begins, h.ends, h.named, h.upsFirst⟩
  · intro h
    exact ⟨h.1, h.2.1, h.2.2.1, h.2.2.2.1, h.2.2.2.2⟩

instance decidableCanonical (path : String) : Decidable (Canonical path) :=
  decidable_of_decidable_of_iff canonical_iff.symm

theorem join_written (path : String) : join (written path) = path := by
  rw [written]
  split
  · rename_i h
    rw [h, join_nil]
  · rw [join, intercalate_splitWhere, String.ofList_toList]

theorem written_join {ss : List (List Char)} (h : Tidy ss) : written (join ss) = ss := by
  rw [written]
  split
  · rename_i he
    exact ((join_eq_empty h).mp he).symm
  · rename_i hne
    have hss : ss ≠ [] := mt (join_eq_empty h).mpr hne
    rw [toList_join, splitWhere_intercalate (p := (· == '/')) (beq_self_eq_true '/') hss]
    intro s hs c hc
    rw [beq_eq_false_iff_ne]
    rintro rfl
    exact absurd (h.plain s hs '/' hc) (by decide)

/-! ## Steps up come first -/

/-- A collapsed list as it looks: nothing that stands for nothing, and no step up behind a name. -/
theorem collapsed_iff {ss : List (List Char)} :
    Collapsed ss ↔ (∀ s ∈ ss, s ≠ [] ∧ s ≠ here) ∧ above ∉ ss.dropWhile (· == above) := by
  constructor
  · intro h
    refine ⟨h.ne_nil_here, ?_⟩
    obtain ⟨ups, names, rfl, hn⟩ := h
    have hups : (List.replicate ups above).dropWhile (· == above) = [] := by
      rw [List.dropWhile_eq_nil_iff]
      intro s hs
      rw [List.eq_of_mem_replicate hs, beq_self_eq_true]
    rw [List.dropWhile_append, hups, List.isEmpty_nil, if_pos rfl]
    exact fun hmem => (hn above ((List.dropWhile_sublist _).mem hmem)).2.2 rfl
  · rintro ⟨hnamed, hups⟩
    refine ⟨(ss.takeWhile (· == above)).length, ss.dropWhile (· == above), ?_, fun s hs => ?_⟩
    · have hfront : ss.takeWhile (· == above) =
          List.replicate (ss.takeWhile (· == above)).length above :=
        List.eq_replicate_iff.mpr ⟨rfl, fun s hs =>
          beq_iff_eq.mp (List.mem_takeWhile_imp (p := (· == above)) hs)⟩
      rw [← hfront, List.takeWhile_append_dropWhile]
    · obtain ⟨hne, hhere⟩ := hnamed s ((List.dropWhile_sublist _).mem hs)
      refine ⟨hne, hhere, ?_⟩
      rintro rfl
      exact hups hs

theorem canonical_join {ss : List (List Char)} (h : Tidy ss) : Canonical (join ss) := by
  obtain ⟨hnamed, hups⟩ := collapsed_iff.mp h.collapsed
  have hborder : ∀ {c : Char}, c = '/' →
      ¬ ((join ss).toList.head? = some c ∨ (join ss).toList.getLast? = some c) := by
    rintro c rfl hc
    have hne : join ss ≠ "" := by
      intro he
      rw [he] at hc
      exact absurd hc (by decide)
    have hnil := nil_mem_splitWhere (p := (· == '/')) (beq_self_eq_true '/') hc
    have hwritten := written_join h
    rw [written, if_neg hne] at hwritten
    rw [hwritten] at hnil
    exact (hnamed [] hnil).1 rfl
  constructor
  case forward =>
    rw [toList_join]
    intro hmem
    rcases of_mem_intercalate hmem with he | ⟨s, hs, hc⟩
    · exact absurd he (by decide)
    · exact absurd (h.plain s hs _ hc) (by decide)
  case begins => exact fun hc => hborder rfl (.inl hc)
  case ends => exact fun hc => hborder rfl (.inr hc)
  case named => rwa [written_join h]
  case upsFirst => rwa [written_join h]

theorem Canonical.tidy {path : String} (h : Canonical path) : Tidy (written path) := by
  refine ⟨collapsed_iff.mpr ⟨h.named, h.upsFirst⟩, fun s hs c hc => ?_⟩
  rw [written] at hs
  split at hs
  · exact absurd hs List.not_mem_nil
  · have hslash : (c == '/') = false := of_mem_splitWhere hs c hc
    have hback : c ≠ '\\' := by
      rintro rfl
      exact h.forward (mem_of_mem_splitWhere hs hc)
    rw [isSeparator, hslash, Bool.false_or, beq_eq_false_iff_ne]
    exact hback

/-- The paths that are left alone are those that look like the one form. -/
theorem normalize_eq_self_iff {path : String} : normalize path = path ↔ Canonical path := by
  constructor
  · intro h
    rw [← h]
    exact canonical_join (tidy_segments path)
  · intro h
    have hpath := normalize_join h.tidy
    rwa [join_written] at hpath

/-! ## One behind the other -/

/-- A front that has been brought into the form makes no difference. -/
theorem normalize_append_slash (a b : String) :
    normalize (a ++ "/" ++ b) = normalize (normalize a ++ "/" ++ b) := by
  rw [normalize, normalize, segments_append_slash, segments_append_slash, segments_normalize]

theorem isRootAbsolute_append {front : String} (h : front ≠ "") (back : String) :
    isRootAbsolute (front ++ back) = isRootAbsolute front := by
  rw [isRootAbsolute, isRootAbsolute, String.toList_append]
  cases hcs : front.toList with
  | nil => exact absurd (String.toList_eq_nil_iff.mp hcs) h
  | cons c cs => rfl

/-- A link is read from where another one leads as the two are read one behind the other. -/
theorem resolve_resolve (dir : String) {x y : String} (hx : x ≠ "") (hy : isRootAbsolute y = false) :
    resolve (resolve dir x) y = resolve dir (x ++ "/" ++ y) := by
  have habsolute : isRootAbsolute (x ++ "/" ++ y) = isRootAbsolute x := by
    rw [String.append_assoc]
    exact isRootAbsolute_append hx _
  rw [resolve_eq_iff (normalize_resolve _ _), hy, if_neg Bool.false_ne_true, segments_resolve,
    segments_resolve, habsolute, segments_append_slash]
  split
  · rfl
  · rw [collapse_collapse_append, collapse_append_collapse, List.append_assoc]

/--
**Every path has one form, and paths are composed in it.**

What `normalize` answers looks like the one form, and it leaves alone exactly what looks so; doing it
twice is doing it once. The front of a spelling may be brought into the form first. And so reading a
link from where another one leads is reading the two one behind the other, from any directory, whether
it is spelled in its form or not, and also where they climb out of the root. The first of the two may
be written from the root; the second may be empty.
-/
theorem normalize_canonical_composes :
    (∀ a, Canonical (normalize a)) ∧ (∀ a, normalize a = a ↔ Canonical a) ∧
    (∀ a, normalize (normalize a) = normalize a) ∧
    (∀ a b, normalize (a ++ "/" ++ b) = normalize (normalize a ++ "/" ++ b)) ∧
    ∀ dir x y, x ≠ "" → isRootAbsolute y = false →
      resolve (resolve dir x) y = resolve dir (x ++ "/" ++ y) :=
  ⟨fun a => canonical_join (tidy_segments a), fun _ => normalize_eq_self_iff, normalize_normalize,
    normalize_append_slash, fun dir _ _ => resolve_resolve dir⟩

/-- Two links that climb, the second with backslashes, from a directory with a detour. -/
theorem normalize_canonical_composes_climbing :
    ("../../up" ≠ "" ∧ isRootAbsolute "..\\.\\logo.png" = false) ∧
    resolve (resolve "docs/./api" "../../up") "..\\.\\logo.png" =
      resolve "docs/./api" ("../../up" ++ "/" ++ "..\\.\\logo.png") ∧
    resolve "docs/./api" ("../../up" ++ "/" ++ "..\\.\\logo.png") = "logo.png" := by
  have hx : "../../up" ≠ "" := by decide
  have hy : isRootAbsolute "..\\.\\logo.png" = false := by decide
  obtain ⟨-, -, -, -, hcomposes⟩ := normalize_canonical_composes
  exact ⟨⟨hx, hy⟩, hcomposes _ _ _ hx hy, by decide⟩

end Path

end LinkKeeper
