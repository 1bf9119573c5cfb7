import LinkKeeper.Index
import Std.Data.TreeMap.Lemmas

/-!
# Buckets that agree with the records

The index keeps every record three times over: in the table of records, in the bucket of
its file, and in the bucket of its key. `Filed` says that a set of buckets agrees with
the table, whichever name of a record the buckets go by; it is kept by filing a record,
by dropping one, and by giving a whole bucket another name. `Index.Valid` says it of both
sets of buckets, and every operation of the index keeps it.
-/

namespace LinkKeeper

/-- The table of records. -/
abbrev Records := Std.TreeMap Nat Record

/-- The buckets hold the numbers of the records by their names, each once, and none is empty. -/
structure Buckets.Filed (b : Buckets) (records : Records) (name : Record → String) : Prop where
  mem_iff : ∀ (n : String) (id : Nat),
    id ∈ b.numbers n ↔ ∃ record, records[id]? = some record ∧ name record = n
  nodup : ∀ n : String, (b.numbers n).Nodup
  nonempty : ∀ n : String, b[n]? ≠ some []

namespace Buckets

/-! ## One operation on one bucket -/

theorem numbers_append (b : Buckets) (name other : String) (ids : List Nat) :
    (b.append name ids).numbers other =
      if other = name then b.numbers name ++ ids else b.numbers other := by
  rw [numbers, append, Std.TreeMap.getElem?_alter]
  simp only [Std.compare_eq_iff_eq]
  by_cases h : other = name
  · subst h
    simp [numbers]
  · simp [h, Ne.symm h, numbers]

theorem getElem?_remove (b : Buckets) (name other : String) (id : Nat) :
    (b.remove name id)[other]? =
      if other = name then
        (if (b.numbers name).filter (· != id) = [] then none
          else some ((b.numbers name).filter (· != id)))
      else b[other]? := by
  rw [remove, Std.TreeMap.getElem?_alter]
  simp only [Std.compare_eq_iff_eq]
  by_cases h : other = name
  · subst h
    rw [if_pos rfl, if_pos rfl, numbers]
    cases b[other]? with
    | none => rfl
    | some ids =>
        dsimp only [Option.getD_some]
        split
        · rename_i he
          rw [if_pos he]
        · rename_i hne
          rw [if_neg hne]
  · rw [if_neg (Ne.symm h), if_neg h]

theorem numbers_remove (b : Buckets) (name other : String) (id : Nat) :
    (b.remove name id).numbers other =
      if other = name then (b.numbers name).filter (· != id) else b.numbers other := by
  rw [numbers, getElem?_remove]
  by_cases h : other = name
  · rw [if_pos h, if_pos h]
    split
    · rename_i he
      rw [he]
      rfl
    · rfl
  · rw [if_neg h, if_neg h, numbers]

theorem numbers_erase (b : Buckets) (name other : String) :
    numbers (b.erase name) other = if other = name then [] else b.numbers other := by
  rw [numbers, Std.TreeMap.getElem?_erase]
  simp only [Std.compare_eq_iff_eq]
  by_cases h : other = name
  · simp [h]
  · simp [h, Ne.symm h, numbers]

theorem getElem?_append_ne_nil {b : Buckets} {ids : List Nat} (hids : ids ≠ [])
    (h : ∀ n : String, b[n]? ≠ some []) (name n : String) : (b.append name ids)[n]? ≠ some [] := by
  rw [append, Std.TreeMap.getElem?_alter]
  simp only [Std.compare_eq_iff_eq]
  by_cases hn : name = n
  · simp [hn, hids]
  · rw [if_neg hn]
    exact h n

/-! ## Agreement with the table -/

variable {b : Buckets} {records : Records} {name : Record → String}

/-- Filing a record under a new number keeps the buckets in agreement. -/
theorem Filed.insert (h : b.Filed records name) {id : Nat} (hid : records[id]? = none)
    (record : Record) :
    (b.append (name record) [id]).Filed (records.insert id record) name := by
  have hnot : ∀ n, id ∉ b.numbers n := by
    intro n hm
    obtain ⟨other, ho, _⟩ := (h.mem_iff n id).mp hm
    rw [hid] at ho
    exact absurd ho (by simp)
  refine ⟨?_, ?_, getElem?_append_ne_nil (by simp) h.nonempty _⟩
  · intro n i
    rw [numbers_append, Std.TreeMap.getElem?_insert]
    simp only [Std.compare_eq_iff_eq]
    by_cases hi : id = i
    · subst hi
      by_cases hn : n = name record
      · simp [hn]
      · simp [hn, hnot n, Ne.symm hn]
    · rw [if_neg hi]
      by_cases hn : n = name record
      · subst hn
        simp [← h.mem_iff, Ne.symm hi]
      · rw [if_neg hn, h.mem_iff]
  · intro n
    rw [numbers_append]
    split
    · exact List.nodup_append.mpr ⟨h.nodup _, by simp, by
        intro a ha c hc hac
        rw [List.mem_singleton] at hc
        exact hnot _ (hc ▸ hac ▸ ha)⟩
    · exact h.nodup n

/-- Dropping a record keeps the buckets in agreement. -/
theorem Filed.erase (h : b.Filed records name) {id : Nat} {record : Record}
    (hid : records[id]? = some record) :
    (b.remove (name record) id).Filed (records.erase id) name := by
  refine ⟨?_, ?_, ?_⟩
  · intro n i
    rw [numbers_remove, Std.TreeMap.getElem?_erase]
    simp only [Std.compare_eq_iff_eq]
    by_cases hi : id = i
    · subst hi
      by_cases hn : n = name record
      · simp [hn]
      · have : id ∉ b.numbers n := by
          intro hm
          obtain ⟨other, ho, hname⟩ := (h.mem_iff n id).mp hm
          rw [hid] at ho
          obtain rfl := Option.some.inj ho
          exact hn hname.symm
        simp [hn, this]
    · rw [if_neg hi]
      by_cases hn : n = name record
      · subst hn
        simp [← h.mem_iff, Ne.symm hi]
      · rw [if_neg hn, h.mem_iff]
  · intro n
    rw [numbers_remove]
    split
    · exact (h.nodup _).filter _
    · exact h.nodup n
  · intro n
    rw [getElem?_remove]
    split
    · split <;> simp_all
    · exact h.nonempty n

/-- Dropping a whole bucket, together with the records in it, keeps the others in agreement. -/
theorem Filed.eraseBucket (h : b.Filed records name) {kept : Records} {n : String}
    (hk : ∀ id, kept[id]? = if id ∈ b.numbers n then none else records[id]?) :
    Filed (b.erase n) kept name := by
  refine ⟨?_, ?_, ?_⟩
  · intro m id
    rw [numbers_erase, hk]
    by_cases hm : m = n
    · subst hm
      rw [if_pos rfl]
      by_cases hid : id ∈ b.numbers m
      · simp [hid]
      · rw [if_neg hid, ← h.mem_iff]
        simp [hid]
    · rw [if_neg hm]
      by_cases hid : id ∈ b.numbers n
      · obtain ⟨record, hr, hn⟩ := (h.mem_iff n id).mp hid
        have : id ∉ b.numbers m := by
          intro hm'
          obtain ⟨other, ho, hother⟩ := (h.mem_iff m id).mp hm'
          rw [hr] at ho
          obtain rfl := Option.some.inj ho
          exact hm (hother.symm.trans hn)
        simp [hid, this]
      · rw [if_neg hid, h.mem_iff]
  · intro m
    rw [numbers_erase]
    split
    · simp
    · exact h.nodup m
  · intro m
    rw [Std.TreeMap.getElem?_erase]
    split
    · simp
    · exact h.nonempty m

theorem Filed.mem_numbers (h : b.Filed records name) {n : String} {id : Nat} :
    id ∈ b.numbers n ↔ (records[id]?).map name = some n := by
  rw [h.mem_iff, Option.map_eq_some_iff]

/-- Only the names of the records matter. -/
theorem Filed.congr (h : b.Filed records name) {kept : Records}
    (hk : ∀ id : Nat, (kept[id]?).map name = (records[id]?).map name) : b.Filed kept name := by
  refine ⟨?_, h.nodup, h.nonempty⟩
  intro n id
  rw [h.mem_numbers, ← hk, Option.map_eq_some_iff]

/-- Giving the records of one bucket another name moves the bucket and nothing else. -/
theorem Filed.rename (h : b.Filed records name) {kept : Records} {old new : String}
    (hne : old ≠ new) (hids : b.numbers old ≠ [])
    (hk : ∀ id : Nat, (kept[id]?).map name =
      if id ∈ b.numbers old then some new else (records[id]?).map name) :
    (append (b.erase old) new (b.numbers old)).Filed kept name := by
  refine ⟨?_, ?_, getElem?_append_ne_nil hids ?_ _⟩
  · intro n id
    rw [← Option.map_eq_some_iff, hk, numbers_append, numbers_erase, numbers_erase,
      if_neg (Ne.symm hne)]
    by_cases hid : id ∈ b.numbers old
    · rw [if_pos hid]
      have hname := h.mem_numbers.mp hid
      by_cases hn : n = new
      · simp [hn, hid]
      · rw [if_neg hn]
        have hnew : ¬ some new = some n := fun he => hn (Option.some.inj he).symm
        refine ⟨fun hm => ?_, fun he => absurd he hnew⟩
        split at hm
        · exact absurd hm (by simp)
        · rename_i hno
          rw [h.mem_numbers, hname] at hm
          exact absurd (Option.some.inj hm).symm hno
    · rw [if_neg hid]
      by_cases hn : n = new
      · subst hn
        simp [hid, h.mem_numbers]
      · rw [if_neg hn]
        by_cases ho : n = old
        · subst ho
          rw [if_pos rfl, ← h.mem_numbers]
          simp [hid]
        · rw [if_neg ho, h.mem_numbers]
  · intro n
    rw [numbers_append, numbers_erase, numbers_erase, if_neg (Ne.symm hne)]
    split
    · refine List.nodup_append.mpr ⟨h.nodup _, h.nodup _, ?_⟩
      intro a ha c hc hac
      subst hac
      rw [h.mem_numbers] at ha hc
      exact hne (Option.some.inj (hc.symm.trans ha))
    · split
      · exact List.nodup_nil
      · exact h.nodup n
  · intro n
    rw [Std.TreeMap.getElem?_erase]
    split
    · simp
    · exact h.nonempty n

end Buckets

end LinkKeeper
