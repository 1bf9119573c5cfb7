import LinkKeeper.Proofs.Filing
import Mathlib.Data.List.Basic

/-!
# What each operation does to the index

The index is asked by file and by key, and both answers must come from the same records.
`Index.Valid` says that they do. What a reader of the index sees of an operation is then
one equation for `recordsFrom`: which file lost or gained which references, and that the
other files kept theirs.

Keys need a second look. Re-filing a bucket leaves records under a key that their text
does not say, and they stay there until their files are read again. `SettledBut` names
the files for which this may be so, and every operation says which files it adds to them
or takes off.
-/

namespace LinkKeeper

namespace Index

/-- Both sets of buckets agree with the table, and the next number is new. -/
structure Valid (ix : Index) : Prop where
  sources : ix.bySource.Filed ix.records (·.reference.source)
  targets : ix.byTarget.Filed ix.records (·.key)
  bound : ∀ (id : Nat) (record : Record), ix.records[id]? = some record → id < ix.next

/-- Except in some files, every record is filed under what its link says. -/
def SettledBut (ix : Index) (stale : String → Prop) : Prop :=
  ∀ (id : Nat) (record : Record), ix.records[id]? = some record →
    record.key = record.reference.rooted ∨ stale record.reference.source

/-- Every record is filed under what its link says. -/
def Settled (ix : Index) : Prop := ix.SettledBut fun _ => False

theorem SettledBut.mono {ix : Index} {stale more : String → Prop} (h : ix.SettledBut stale)
    (hs : ∀ s, stale s → more s) : ix.SettledBut more :=
  fun id record hr => (h id record hr).imp_right (hs _)

variable {ix : Index}

theorem Settled.key (h : ix.Settled) {id : Nat} {record : Record}
    (hr : ix.records[id]? = some record) : record.key = record.reference.rooted :=
  (h id record hr).resolve_right not_false

theorem valid_empty : empty.Valid := by
  have hfiled : ∀ name, Buckets.Filed ∅ ∅ name := by
    intro name
    refine ⟨?_, ?_, ?_⟩
    · intro n id
      simp [Buckets.numbers]
    · intro n
      simp [Buckets.numbers]
    · intro n
      simp
  exact ⟨hfiled _, hfiled _, by simp [empty]⟩

theorem settled_empty : empty.Settled := by
  intro id record h
  simp [empty] at h

/-! ## References behind numbers -/

theorem references_append (ix : Index) (as bs : List Nat) :
    ix.references (as ++ bs) = ix.references as ++ ix.references bs :=
  List.filterMap_append

theorem references_congr {other : Index} {ids : List Nat}
    (h : ∀ id ∈ ids, (ix.records[id]?).map (·.reference) = (other.records[id]?).map (·.reference)) :
    ix.references ids = other.references ids :=
  List.filterMap_congr h

theorem mem_references {ids : List Nat} {r : Reference} :
    r ∈ ix.references ids ↔ ∃ id ∈ ids, ∃ record : Record, ix.records[id]? = some record ∧
      record.reference = r := by
  simp only [references, List.mem_filterMap, Option.map_eq_some_iff]

/-- The references of a file are those of the records that name it. -/
theorem Valid.mem_recordsFrom (h : ix.Valid) {s : String} {r : Reference} :
    r ∈ ix.recordsFrom s ↔ r.source = s ∧ ∃ (id : Nat) (record : Record),
      ix.records[id]? = some record ∧ record.reference = r := by
  rw [recordsFrom, mem_references]
  constructor
  · rintro ⟨id, hid, record, hr, rfl⟩
    obtain ⟨other, ho, hs⟩ := (h.sources.mem_iff s id).mp hid
    rw [hr] at ho
    obtain rfl := Option.some.inj ho
    exact ⟨hs, id, record, hr, rfl⟩
  · rintro ⟨hs, id, record, hr, rfl⟩
    exact ⟨id, (h.sources.mem_iff s id).mpr ⟨record, hr, hs⟩, record, hr, rfl⟩

/-- A file has a bucket exactly when it has references. -/
theorem Valid.mem_keys_bySource (h : ix.Valid) {s : String} :
    s ∈ ix.bySource.keys ↔ ix.recordsFrom s ≠ [] := by
  rw [Std.TreeMap.mem_keys, Std.TreeMap.mem_iff_isSome_getElem?]
  constructor
  · intro hs
    obtain ⟨ids, hids⟩ := Option.isSome_iff_exists.mp hs
    have hnum : ix.bySource.numbers s = ids := by rw [Buckets.numbers, hids]; rfl
    obtain ⟨id, hid⟩ := List.exists_mem_of_ne_nil ids fun he =>
      h.sources.nonempty s (he ▸ hids)
    obtain ⟨record, hr, _⟩ := (h.sources.mem_iff s id).mp (hnum ▸ hid)
    have hmem : record.reference ∈ ix.recordsFrom s :=
      mem_references.mpr ⟨id, hnum ▸ hid, record, hr, rfl⟩
    exact List.ne_nil_of_mem hmem
  · intro hne
    by_contra hs
    have hnone : ix.bySource[s]? = none := by simpa using hs
    exact hne (by simp [recordsFrom, Buckets.numbers, hnone, references])

/-! ## Filing a reference -/

theorem Valid.fresh (h : ix.Valid) : ix.records[ix.next]? = none := by
  cases hr : ix.records[ix.next]? with
  | none => rfl
  | some record => exact absurd (h.bound _ _ hr) (Nat.lt_irrefl _)

theorem Valid.insert (h : ix.Valid) (r : Reference) : (ix.insert r).Valid where
  sources := h.sources.insert h.fresh ⟨r.rooted, r⟩
  targets := h.targets.insert h.fresh ⟨r.rooted, r⟩
  bound := by
    intro id record hr
    simp only [Index.insert, Std.TreeMap.getElem?_insert] at hr
    split at hr
    · rename_i he
      have : ix.next = id := Std.compare_eq_iff_eq.mp he
      simp only [Index.insert]
      omega
    · exact Nat.lt_succ_of_lt (h.bound id record hr)

theorem SettledBut.insert {stale : String → Prop} (h : ix.SettledBut stale) (r : Reference) :
    (ix.insert r).SettledBut stale := by
  intro id record hr
  simp only [Index.insert, Std.TreeMap.getElem?_insert] at hr
  split at hr
  · obtain rfl := Option.some.inj hr
    exact .inl rfl
  · exact h id record hr

theorem Valid.recordsFrom_insert (h : ix.Valid) (r : Reference) (s : String) :
    (ix.insert r).recordsFrom s =
      if r.source = s then ix.recordsFrom s ++ [r] else ix.recordsFrom s := by
  have hnum : (ix.insert r).bySource.numbers s =
      if s = r.source then ix.bySource.numbers r.source ++ [ix.next]
      else ix.bySource.numbers s := Buckets.numbers_append _ _ _ _
  have hold : (ix.insert r).references (ix.bySource.numbers s) = ix.recordsFrom s := by
    refine references_congr fun id hid => ?_
    have hne : ix.next ≠ id := by
      rintro rfl
      obtain ⟨record, hr, _⟩ := (h.sources.mem_iff s _).mp hid
      exact absurd (h.bound _ _ hr) (Nat.lt_irrefl _)
    simp [Index.insert, Std.TreeMap.getElem?_insert, hne]
  rw [recordsFrom, hnum]
  by_cases hs : r.source = s
  · subst hs
    rw [if_pos rfl, if_pos rfl, references_append, hold]
    simp [references, Index.insert]
  · rw [if_neg (Ne.symm hs), if_neg hs, hold]

/-! ## Dropping records -/

theorem foldl_drop_bySource (ids : List Nat) (ix : Index) :
    (ids.foldl drop ix).bySource = ix.bySource ∧ (ids.foldl drop ix).next = ix.next := by
  induction ids generalizing ix with
  | nil => exact ⟨rfl, rfl⟩
  | cons id ids ih =>
      have hone : (ix.drop id).bySource = ix.bySource ∧ (ix.drop id).next = ix.next := by
        rw [drop]
        split <;> exact ⟨rfl, rfl⟩
      rw [List.foldl_cons, (ih _).1, (ih _).2]
      exact hone

theorem getElem?_drop (ix : Index) (id other : Nat) :
    (ix.drop id).records[other]? = if other = id then none else ix.records[other]? := by
  rw [drop]
  split
  · rw [Std.TreeMap.getElem?_erase]
    simp only [Std.compare_eq_iff_eq]
    by_cases h : other = id
    · rw [if_pos h.symm, if_pos h]
    · rw [if_neg (Ne.symm h), if_neg h]
  · rename_i hnone
    split
    · rename_i he
      rw [he, hnone]
    · rfl

theorem getElem?_foldl_drop (ids : List Nat) (ix : Index) (other : Nat) :
    (ids.foldl drop ix).records[other]? = if other ∈ ids then none else ix.records[other]? := by
  induction ids generalizing ix with
  | nil => simp
  | cons id ids ih =>
      rw [List.foldl_cons, ih, getElem?_drop]
      by_cases h : other = id
      · simp [h]
      · simp [h]

theorem targets_drop (h : ix.byTarget.Filed ix.records (·.key)) (id : Nat) :
    (ix.drop id).byTarget.Filed (ix.drop id).records (·.key) := by
  rw [drop]
  split
  · rename_i record hr
    exact h.erase hr
  · exact h

theorem targets_foldl_drop (ids : List Nat) (h : ix.byTarget.Filed ix.records (·.key)) :
    (ids.foldl drop ix).byTarget.Filed (ids.foldl drop ix).records (·.key) := by
  induction ids generalizing ix with
  | nil => exact h
  | cons id ids ih => exact ih (targets_drop h id)

theorem getElem?_removeSource (ix : Index) (s : String) (id : Nat) :
    (ix.removeSource s).records[id]? =
      if id ∈ ix.bySource.numbers s then none else ix.records[id]? :=
  getElem?_foldl_drop _ _ _

theorem bySource_removeSource (ix : Index) (s : String) :
    (ix.removeSource s).bySource = ix.bySource.erase s :=
  (foldl_drop_bySource _ _).1

theorem Valid.removeSource (h : ix.Valid) (s : String) : (ix.removeSource s).Valid where
  sources := by
    rw [bySource_removeSource]
    exact h.sources.eraseBucket fun id => getElem?_removeSource ix s id
  targets := targets_foldl_drop _ h.targets
  bound := by
    intro id record hr
    rw [getElem?_removeSource] at hr
    split at hr
    · exact absurd hr (by simp)
    · rw [Index.removeSource, (foldl_drop_bySource _ _).2]
      exact h.bound id record hr

/-- A file whose records are dropped has none left that could be filed wrongly. -/
theorem Valid.settledBut_removeSource (h : ix.Valid) {stale : String → Prop}
    (hs : ix.SettledBut stale) (s : String) :
    (ix.removeSource s).SettledBut fun other => stale other ∧ other ≠ s := by
  intro id record hr
  rw [getElem?_removeSource] at hr
  split at hr
  · exact absurd hr (by simp)
  · rename_i hid
    refine (hs id record hr).imp_right fun hst => ⟨hst, ?_⟩
    rintro rfl
    exact hid ((h.sources.mem_iff _ _).mpr ⟨record, hr, rfl⟩)

theorem Valid.recordsFrom_removeSource (h : ix.Valid) (s other : String) :
    (ix.removeSource s).recordsFrom other = if other = s then [] else ix.recordsFrom other := by
  rw [recordsFrom, bySource_removeSource, Buckets.numbers_erase]
  by_cases hs : other = s
  · rw [if_pos hs, if_pos hs]
    rfl
  · rw [if_neg hs, if_neg hs]
    refine references_congr fun id hid => ?_
    have hnot : id ∉ ix.bySource.numbers s := by
      intro hm
      rw [h.sources.mem_numbers] at hid hm
      exact hs (Option.some.inj (hid.symm.trans hm))
    rw [getElem?_removeSource, if_neg hnot]

/-! ## Putting references in place of others -/

theorem Valid.foldl_insert {references : List Reference} (h : ix.Valid) :
    (references.foldl Index.insert ix).Valid := by
  induction references generalizing ix with
  | nil => exact h
  | cons r rest ih => exact ih (h.insert r)

theorem SettledBut.foldl_insert {stale : String → Prop} {references : List Reference}
    (h : ix.SettledBut stale) : (references.foldl Index.insert ix).SettledBut stale := by
  induction references generalizing ix with
  | nil => exact h
  | cons r rest ih => exact ih (h.insert r)

theorem Valid.recordsFrom_foldl_insert (h : ix.Valid) {s : String} {references : List Reference}
    (hs : ∀ r ∈ references, r.source = s) (other : String) :
    (references.foldl Index.insert ix).recordsFrom other =
      if other = s then ix.recordsFrom other ++ references else ix.recordsFrom other := by
  induction references generalizing ix with
  | nil => simp
  | cons r rest ih =>
      have hr : r.source = s := hs r (List.mem_cons_self ..)
      rw [List.foldl_cons, ih (h.insert r) fun q hq => hs q (List.mem_cons_of_mem _ hq),
        h.recordsFrom_insert, hr]
      by_cases ho : other = s
      · simp [ho]
      · simp [ho, Ne.symm ho]

theorem Valid.replaceSource (h : ix.Valid) (s : String) (references : List Reference) :
    (ix.replaceSource s references).Valid :=
  (h.removeSource s).foldl_insert

theorem Valid.settledBut_replaceSource (h : ix.Valid) {stale : String → Prop}
    (hs : ix.SettledBut stale) (s : String) (references : List Reference) :
    (ix.replaceSource s references).SettledBut fun other => stale other ∧ other ≠ s :=
  (h.settledBut_removeSource hs s).foldl_insert

/-- **Reading a file anew puts its references in place of what was there.** Other files keep theirs. -/
theorem Valid.recordsFrom_replaceSource (h : ix.Valid) {s : String} {references : List Reference}
    (hs : ∀ r ∈ references, r.source = s) (other : String) :
    (ix.replaceSource s references).recordsFrom other =
      if other = s then references.filter (·.isInside) else ix.recordsFrom other := by
  have hkept : ∀ r ∈ references.filter (·.isInside), r.source = s :=
    fun r hr => hs r (List.mem_filter.mp hr).1
  rw [Index.replaceSource, (h.removeSource s).recordsFrom_foldl_insert hkept,
    h.recordsFrom_removeSource]
  by_cases ho : other = s
  · simp [ho]
  · simp [ho]

/-! ## Another key for a bucket -/

theorem getElem?_foldl_modify (ids : List Nat) (records : Records) (f : Record → Record)
    (hf : ∀ record, f (f record) = f record) (other : Nat) :
    (ids.foldl (fun records id => records.modify id f) records)[other]? =
      if other ∈ ids then (records[other]?).map f else records[other]? := by
  induction ids generalizing records with
  | nil => simp
  | cons id ids ih =>
      rw [List.foldl_cons, ih, Std.TreeMap.getElem?_modify]
      simp only [Std.compare_eq_iff_eq]
      by_cases h : id = other
      · subst h
        have hff : f ∘ f = f := funext hf
        by_cases hm : id ∈ ids
        · simp [hm, hff]
        · simp [hm]
      · simp [h, Ne.symm h]

/-- What re-filing answers: nothing is done, or the bucket moves and its files are named. -/
theorem rekey_cases (ix : Index) (old new : String) :
    (ix.rekey old new = (ix, []) ∧
      (Path.normalize old = Path.normalize new ∨ ix.byTarget.numbers (Path.normalize old) = [])) ∨
    (Path.normalize old ≠ Path.normalize new ∧ ix.byTarget.numbers (Path.normalize old) ≠ [] ∧
      ix.rekey old new =
        ({ ix with
            byTarget := Buckets.append (ix.byTarget.erase (Path.normalize old))
              (Path.normalize new) (ix.byTarget.numbers (Path.normalize old))
            records := (ix.byTarget.numbers (Path.normalize old)).foldl
              (fun records id => records.modify id fun record =>
                { record with key := Path.normalize new }) ix.records },
          ix.sourcesOf (ix.byTarget.numbers (Path.normalize old)))) := by
  rw [rekey]
  by_cases h : Path.normalize old = Path.normalize new ∨
      (ix.byTarget.numbers (Path.normalize old)).isEmpty
  · refine .inl ⟨if_pos h, h.imp_right fun he => List.isEmpty_iff.mp he⟩
  · refine .inr ⟨fun he => h (.inl he), fun he => h (.inr (List.isEmpty_iff.mpr he)), if_neg h⟩

theorem mem_sourcesOf {ids : List Nat} {s : String} :
    s ∈ ix.sourcesOf ids ↔ ∃ id ∈ ids, ∃ record : Record, ix.records[id]? = some record ∧
      record.reference.source = s := by
  rw [sourcesOf, Std.TreeSet.mem_toList, Std.TreeSet.mem_ofList, List.contains_iff_mem,
    List.mem_map]
  constructor
  · rintro ⟨r, hr, rfl⟩
    obtain ⟨id, hid, record, hrec, rfl⟩ := mem_references.mp hr
    exact ⟨id, hid, record, hrec, rfl⟩
  · rintro ⟨id, hid, record, hrec, rfl⟩
    exact ⟨record.reference, mem_references.mpr ⟨id, hid, record, hrec, rfl⟩, rfl⟩

/-- **Re-filing a bucket changes keys and nothing else.** The files it answers are those whose keys may now be wrong. -/
theorem Valid.rekey (h : ix.Valid) (old new : String) :
    (ix.rekey old new).1.Valid ∧
    (∀ s, (ix.rekey old new).1.recordsFrom s = ix.recordsFrom s) ∧
    ∀ stale, ix.SettledBut stale →
      (ix.rekey old new).1.SettledBut fun s => stale s ∨ s ∈ (ix.rekey old new).2 := by
  rcases ix.rekey_cases old new with ⟨hsame, _⟩ | ⟨hne, hids, hmoved⟩
  · rw [hsame]
    exact ⟨h, fun s => rfl, fun stale hs => hs.mono fun s hst => .inl hst⟩
  · rw [hmoved]
    have hget := getElem?_foldl_modify (ix.byTarget.numbers (Path.normalize old)) ix.records
      (fun record => { record with key := Path.normalize new }) fun record => rfl
    have hreference := fun id : Nat => congrArg (Option.map (·.reference)) (hget id)
    simp only [apply_ite (Option.map Record.reference), Option.map_map, Function.comp_def,
      ite_self] at hreference
    refine ⟨⟨?_, ?_, ?_⟩, ?_, ?_⟩
    · refine h.sources.congr fun id => ?_
      have := congrArg (Option.map Reference.source) (hreference id)
      simpa [Option.map_map, Function.comp_def] using this
    · refine h.targets.rename hne hids fun id => ?_
      rw [hget id]
      split
      · rename_i hid
        obtain ⟨record, hr, _⟩ := (h.targets.mem_iff _ _).mp hid
        rw [hr]
        rfl
      · rfl
    · intro id record hr
      rw [hget id] at hr
      split at hr
      · obtain ⟨before, hb, _⟩ := Option.map_eq_some_iff.mp hr
        exact h.bound id before hb
      · exact h.bound id record hr
    · intro s
      exact references_congr fun id _ => hreference id
    · intro stale hs id record hr
      rw [hget id] at hr
      split at hr
      · rename_i hid
        obtain ⟨before, hb, rfl⟩ := Option.map_eq_some_iff.mp hr
        exact .inr (.inr (mem_sourcesOf.mpr ⟨id, hid, before, hb, rfl⟩))
      · exact (hs id record hr).imp_right .inl

/-! ## One answer from the other -/

theorem count_references (ids : List Nat) (r : Reference) :
    (ix.references ids).count r =
      (ids.filter fun id => (ix.records[id]?).map (·.reference) == some r).length := by
  rw [references, List.count_filterMap, List.countP_eq_length_filter]

/-- A reference stands in the bucket of its key as often as in its file. -/
theorem Valid.count_bucket (h : ix.Valid) (hs : ix.Settled) (key : String) (r : Reference) :
    (ix.references (ix.byTarget.numbers key)).count r =
      if r.rooted = key then (ix.recordsFrom r.source).count r else 0 := by
  by_cases hr : r.rooted = key
  · rw [if_pos hr, recordsFrom, count_references, count_references]
    refine List.Perm.length_eq ((List.perm_ext_iff_of_nodup ((h.targets.nodup _).filter _)
      ((h.sources.nodup _).filter _)).mpr fun id => ?_)
    rw [List.mem_filter, List.mem_filter, h.targets.mem_iff, h.sources.mem_iff]
    refine and_congr_left fun hid => ?_
    obtain ⟨record, hrec, href⟩ := Option.map_eq_some_iff.mp (beq_iff_eq.mp hid)
    have hrooted : record.key = key := by rw [hs.key hrec, href, hr]
    exact ⟨fun _ => ⟨record, hrec, by rw [href]⟩, fun _ => ⟨record, hrec, hrooted⟩⟩
  · rw [if_neg hr, List.count_eq_zero, mem_references]
    rintro ⟨id, hid, record, hrec, rfl⟩
    obtain ⟨other, ho, hother⟩ := (h.targets.mem_iff key id).mp hid
    rw [hrec] at ho
    obtain rfl := Option.some.inj ho
    exact hr ((hs.key hrec).symm.trans hother)

/--
**Two settled indexes that agree file by file agree key by key.**

The buckets of keys are never compared with each other when an operation is answered: it
is enough that each file is in step, and that no record is left under an old key.
-/
theorem Valid.bucket_perm {other : Index} (h : ix.Valid) (hs : ix.Settled) (h' : other.Valid)
    (hs' : other.Settled) (heq : ∀ s, ix.recordsFrom s = other.recordsFrom s) (key : String) :
    (ix.references (ix.byTarget.numbers key)).Perm
      (other.references (other.byTarget.numbers key)) := by
  rw [List.perm_iff_count]
  intro r
  rw [h.count_bucket hs, h'.count_bucket hs', heq]

end Index

end LinkKeeper
