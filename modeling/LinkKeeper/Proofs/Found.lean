import LinkKeeper.Links.Format
import LinkKeeper.Proofs.Walking
import Mathlib.Data.List.Basic

/-!
# What is found in a file

Whatever the format of a file, its references say which file they stand in, and they come
in the order of their places with no two at one place. The index relies on the first when
it replaces the references of a file, and on the second when it takes a place for the
name of a reference.
-/

namespace LinkKeeper.Links

/-! ## The file of a reference -/

@[simp] theorem source_referTo (source : String) (line : Nat) (kind : ReferenceKind) (p : Text.Piece) :
    (referTo source line kind p).source = source := rfl

theorem source_of_mem_perLine {find : Nat → List Char → List Reference} {source : String}
    (h : ∀ number line, ∀ r ∈ find number line, r.source = source) {content : List Char}
    {r : Reference} (hr : r ∈ perLine find content) : r.source = source := by
  rw [perLine, List.mem_flatMap] at hr
  obtain ⟨⟨number, line⟩, _, hr⟩ := hr
  exact h number line r hr

theorem source_of_mem_map {α : Type} {source : String} {refer : α → Reference}
    {l : List α} {r : Reference} (hr : r ∈ l.map refer) (h : ∀ a, (refer a).source = source) :
    r.source = source := by
  obtain ⟨a, _, rfl⟩ := List.mem_map.mp hr
  exact h a

theorem Markdown.source_of_mem {rule : CandidateRule} {source : String} {number : Nat}
    {line : List Char} {r : Reference} (hr : r ∈ lineReferences rule source number line) :
    r.source = source := by
  rw [lineReferences] at hr
  rcases List.mem_append.mp hr with hr | hr
  · rcases List.mem_append.mp hr with hr | hr
    · exact source_of_mem_map hr fun _ => rfl
    · exact source_of_mem_map hr fun _ => rfl
  · exact source_of_mem_map hr fun _ => rfl

theorem Plain.source_of_mem {rule : CandidateRule} {source : String} {number : Nat}
    {line : List Char} {r : Reference} (hr : r ∈ lineReferences rule source number line) :
    r.source = source := by
  rw [lineReferences] at hr
  rcases List.mem_append.mp hr with hr | hr
  · rcases List.mem_append.mp hr with hr | hr
    · rcases List.mem_append.mp hr with hr | hr
      · exact source_of_mem_map hr fun _ => rfl
      · exact source_of_mem_map hr fun _ => rfl
    · exact source_of_mem_map hr fun _ => rfl
  · exact source_of_mem_map hr fun _ => rfl

theorem Format.source_of_mem {format : Format} {rule : CandidateRule} {source : String}
    {content : List Char} {references : List Reference}
    (h : format.references? rule source content = some references) {r : Reference}
    (hr : r ∈ references) : r.source = source := by
  cases format with
  | json =>
      rw [Format.references?, Json.references?_eq] at h
      obtain ⟨value, _, rfl⟩ := Option.map_eq_some_iff.mp h
      exact source_of_mem_map hr fun _ => rfl
  | markdown =>
      obtain rfl := Option.some.inj h
      exact source_of_mem_perLine (fun _ _ _ => Markdown.source_of_mem) hr
  | plain =>
      obtain rfl := Option.some.inj h
      exact source_of_mem_perLine (fun _ _ _ => Plain.source_of_mem) hr
  | yaml =>
      obtain ⟨values, _, rfl⟩ := Option.map_eq_some_iff.mp h
      exact source_of_mem_map hr fun _ => rfl

theorem distinct_sublist (references : List Reference) : (distinct references).Sublist references := by
  induction references with
  | nil => exact .slnil
  | cons r rest ih =>
      rw [distinct]
      split
      · rename_i s others hd
        rw [hd] at ih
        split
        · exact ((List.sublist_cons_self s others).trans ih).cons_cons r
        · exact ih.cons_cons r
      · rename_i hd
        exact (List.nil_sublist rest).cons_cons r

/-- **A file's references say that they stand in it.** -/
theorem source_of_mem_find {rule : CandidateRule} {source content : String} {r : Reference}
    (hr : r ∈ (find rule source content).references) : r.source = source := by
  have hsorted : ∀ references : List Reference, r ∈ distinct (references.mergeSort startsBefore) →
      r ∈ references := fun references hm =>
    (List.mergeSort_perm _ _).mem_iff.mp ((distinct_sublist _).mem hm)
  rw [find] at hr
  dsimp only at hr
  split at hr
  · rename_i references hformat
    exact Format.source_of_mem hformat (hsorted _ hr)
  · exact source_of_mem_perLine (fun _ _ _ => Plain.source_of_mem) (hsorted _ hr)

/-! ## Places -/

/-- One reference of a file starts before another. -/
def Before (a b : Reference) : Prop :=
  a.line < b.line ∨ (a.line = b.line ∧ a.columnStart < b.columnStart)

theorem startsBefore_iff {a b : Reference} : startsBefore a b = true ↔
    a.line < b.line ∨ (a.line = b.line ∧ a.columnStart ≤ b.columnStart) := by
  simp [startsBefore]

theorem pairwise_distinct {references : List Reference}
    (h : references.Pairwise fun a b => startsBefore a b = true) :
    (distinct references).Pairwise Before := by
  induction references with
  | nil => exact .nil
  | cons r rest ih =>
      have htail := ih h.of_cons
      have hhead : ∀ s ∈ distinct rest, startsBefore r s = true := fun s hs =>
        List.rel_of_pairwise_cons h ((distinct_sublist rest).mem hs)
      have hlater : ∀ s others, distinct rest = s :: others → ∀ q ∈ others, Before r q := by
        intro s others hd q hq
        rw [hd] at htail hhead
        have hrs := startsBefore_iff.mp (hhead s (List.mem_cons_self ..))
        have hsq := List.rel_of_pairwise_cons htail hq
        unfold Before at hsq ⊢
        omega
      rw [distinct]
      split
      · rename_i s others hd
        split
        · exact .cons (hlater s others hd) (hd ▸ htail).of_cons
        · rename_i hdiffer
          refine .cons ?_ (hd ▸ htail)
          intro q hq
          rcases List.mem_cons.mp hq with rfl | hq
          · have hrq := startsBefore_iff.mp (hhead q (by rw [hd]; exact List.mem_cons_self ..))
            have hne : ¬ (r.line = q.line ∧ r.columnStart = q.columnStart) := by
              simpa [startsAt] using hdiffer
            unfold Before
            omega
          · exact hlater s others hd q hq
      · exact .cons (by simp) .nil

/-- **The references of a file come in the order of their places, and no two share one.** -/
theorem pairwise_find (rule : CandidateRule) (source content : String) :
    (find rule source content).references.Pairwise Before := by
  have hsorted : ∀ references : List Reference,
      (distinct (references.mergeSort startsBefore)).Pairwise Before := by
    intro references
    refine pairwise_distinct (List.pairwise_mergeSort ?_ ?_ _)
    · intro a b c hab hbc
      rw [startsBefore_iff] at hab hbc ⊢
      omega
    · intro a b
      rw [Bool.or_eq_true, startsBefore_iff, startsBefore_iff]
      omega
  rw [find]
  dsimp only
  split <;> exact hsorted _

end LinkKeeper.Links
