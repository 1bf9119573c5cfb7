import LinkKeeper.Proofs.Indexing
import LinkKeeper.Proofs.Planning
import Mathlib.Data.Finset.Sort
import Mathlib.Data.String.Basic

/-!
# The index is a list of records

The index keeps every record three times over and each operation has to bring the three
into line again. What it is for can be said without any of that: a `Ledger` is one list of
records, every operation on it is a filter or an append, and every question is answered by
going through it.

Each operation of the index is the one of the ledger (`Denotes`), and whatever operations
have been run, in whatever order, both give the same answers (`Answers`). The order of the
ledger is the order in which records came under their key: records that are given another
key go to its end. The records of a file are asked for in the order in which they were
filed, which their numbers say.
-/

namespace LinkKeeper

/-- A line of the ledger: a record and its number. -/
structure Ledger.Line extends Record where
  number : Nat
  deriving DecidableEq

/-- The records of a tree as one list. -/
structure Ledger where
  /-- The number of the next record. -/
  next : Nat
  lines : List Ledger.Line

/-- What can be done to an index. -/
inductive IndexOperation where
  | replaceSource (source : String) (references : List Reference)
  | removeSource (source : String)
  | rekey (old new : String)

/-- The index after an operation. -/
def Index.perform (ix : Index) : IndexOperation → Index
  | .replaceSource source references => ix.replaceSource source references
  | .removeSource source => ix.removeSource source
  | .rekey old new => (ix.rekey old new).1

namespace Ledger

/-- The ledger of an empty tree. -/
def empty : Ledger := ⟨0, []⟩

/-- The lines of a file. -/
def ofSource (l : Ledger) (source : String) : List Line :=
  l.lines.filter (·.reference.source = source)

/-- The lines under a key. -/
def underKey (l : Ledger) (key : String) : List Line := l.lines.filter (·.key = key)

/-! ## Operations -/

/-- Adds a line for a reference. -/
def insert (l : Ledger) (r : Reference) : Ledger where
  next := l.next + 1
  lines := l.lines ++ [⟨⟨r.rooted, r⟩, l.next⟩]

/-- Strikes out the lines of a file. -/
def removeSource (l : Ledger) (source : String) : Ledger :=
  { l with lines := l.lines.filter (·.reference.source ≠ source) }

/-- Strikes out the lines of a file and adds lines for references, unless they lead out of the tree. -/
def replaceSource (l : Ledger) (source : String) (references : List Reference) : Ledger :=
  (references.filter (·.isInside)).foldl insert (l.removeSource source)

/-- Gives the lines under one key another, as the last ones there. Answers the files they stand in. -/
def rekey (l : Ledger) (old new : String) : Ledger × List String :=
  let oldKey := Path.normalize old
  let newKey := Path.normalize new
  if oldKey = newKey then (l, [])
  else
    let moved := l.underKey oldKey
    ({ l with
        lines := l.lines.filter (·.key ≠ oldKey) ++
          moved.map fun e => { e with key := newKey } },
      (moved.map (·.reference.source)).toFinset.sort (· ≤ ·))

/-- The ledger after an operation. -/
def perform (l : Ledger) : IndexOperation → Ledger
  | .replaceSource source references => l.replaceSource source references
  | .removeSource source => l.removeSource source
  | .rekey old new => (l.rekey old new).1

/-! ## Questions -/

/-- The keys in use, in order. -/
def keys (l : Ledger) : List String := (l.lines.map (·.key)).toFinset.sort (· ≤ ·)

/-- The files with lines, in order. -/
def sources (l : Ledger) : List String :=
  (l.lines.map (·.reference.source)).toFinset.sort (· ≤ ·)

/-- The references in a file, oldest first. -/
def recordsFrom (l : Ledger) (source : String) : List Reference :=
  ((l.ofSource source).mergeSort fun e f => e.number ≤ f.number).map (·.reference)

/-- Every reference, grouped by key. -/
def snapshot (l : Ledger) : List (String × List Reference) :=
  l.keys.map fun key => (key, (l.underKey key).map (·.reference))

/-- The paths at or below a directory that some line may mean, in order. -/
def targetsUnder (l : Ledger) (dir : String) : List String :=
  ((l.lines.flatMap fun e => [e.key, e.reference.resolved]).filter
    (Path.isUnder dir)).toFinset.sort (· ≤ ·)

/-- How much the ledger holds. -/
def size (l : Ledger) : IndexSize := ⟨l.lines.length, l.sources.length, l.keys.length⟩

variable {l : Ledger}

theorem mem_underKey {key : String} {e : Line} :
    e ∈ l.underKey key ↔ e ∈ l.lines ∧ e.key = key := by
  simp [underKey]

/-! ## Another key for some lines -/

/-- Where there is nothing to move, the ledger stays as it is. -/
theorem rekey_of_nil {old new : String}
    (h : l.underKey (Path.normalize old) = []) : l.rekey old new = (l, []) := by
  rw [rekey]
  split
  · rfl
  · have hkept : l.lines.filter (·.key ≠ Path.normalize old) = l.lines := by
      refine List.filter_eq_self.mpr fun e he => decide_eq_true fun hk => ?_
      exact List.ne_nil_of_mem (mem_underKey.mpr ⟨he, hk⟩) h
    rw [h, hkept]
    simp

/-- Re-keying reorders the lines and changes keys. -/
theorem perm_rekeyed (l : Ledger) (key : String) :
    (l.lines.filter (·.key ≠ key) ++ l.underKey key).Perm l.lines := by
  refine List.perm_append_comm.trans ?_
  simpa [underKey] using List.filter_append_perm (fun e : Line => decide (e.key = key)) l.lines

/-- **The lines that are given a key come after those that have it.** -/
theorem underKey_rekey {old new : String} (hne : Path.normalize old ≠ Path.normalize new)
    (key : String) : (l.rekey old new).1.underKey key =
      if key = Path.normalize new then
        l.underKey key ++ (l.underKey (Path.normalize old)).map fun e => { e with key := key }
      else if key = Path.normalize old then [] else l.underKey key := by
  have hkept : (l.lines.filter (·.key ≠ Path.normalize old)).filter (·.key = key) =
      if key = Path.normalize old then [] else l.underKey key := by
    rw [List.filter_filter, underKey]
    split
    · rename_i he
      simp [he]
    · rename_i hk
      refine List.filter_congr fun e _ => ?_
      by_cases he : e.key = key
      · simp [he, hk]
      · simp [he]
  have hmoved : ((l.underKey (Path.normalize old)).map fun e =>
      ({ e with key := Path.normalize new } : Line)).filter (·.key = key) =
      if key = Path.normalize new then
        (l.underKey (Path.normalize old)).map fun e => { e with key := key }
      else [] := by
    rw [List.filter_map]
    split
    · rename_i he
      simp [he, Function.comp_def]
    · rename_i hk
      simp [Ne.symm hk, Function.comp_def]
  rw [rekey, if_neg hne]
  simp only [underKey, List.filter_append] at hkept hmoved ⊢
  rw [hkept, hmoved]
  by_cases hk : key = Path.normalize new
  · rw [if_pos hk, if_pos hk, if_neg (hk ▸ Ne.symm hne)]
  · rw [if_neg hk, if_neg hk, List.append_nil]

end Ledger

namespace Buckets

/-- A bucket is there exactly if it holds something. -/
theorem Filed.mem_keys {b : Buckets} {records : Records} {name : Record → String}
    (h : b.Filed records name) {n : String} : n ∈ b.keys ↔ ∃ id, id ∈ b.numbers n := by
  rw [Std.TreeMap.mem_keys, Std.TreeMap.mem_iff_isSome_getElem?, numbers]
  cases hn : b[n]? with
  | none => simp
  | some ids =>
      have hne : ids ≠ [] := fun he => h.nonempty n (he ▸ hn)
      simpa using List.exists_mem_of_ne_nil ids hne

theorem toList_eq_map (b : Buckets) : b.toList = b.keys.map fun key => (key, b.numbers key) := by
  rw [← Std.TreeMap.map_fst_toList_eq_keys, List.map_map]
  refine Eq.symm ((List.map_congr_left fun pair hpair => ?_).trans (List.map_id _))
  obtain ⟨key, ids⟩ := pair
  rw [Std.TreeMap.mem_toList_iff_getElem?_eq_some] at hpair
  rw [Function.comp_apply, numbers, hpair]
  rfl

end Buckets

namespace Index

/-- The index holds the lines of the ledger, under each key in the same order. -/
structure Denotes (ix : Index) (l : Ledger) : Prop where
  next : ix.next = l.next
  distinct : (l.lines.map (·.number)).Nodup
  records : ∀ (id : Nat) (record : Record),
    ix.records[id]? = some record ↔ (⟨record, id⟩ : Ledger.Line) ∈ l.lines
  targets : ∀ key, ix.byTarget.numbers key = (l.underKey key).map (·.number)
  sources : ∀ source, (ix.bySource.numbers source).Pairwise (· < ·)

/-- The index and the ledger answer the same. -/
structure Answers (ix : Index) (l : Ledger) : Prop where
  recordsFrom : ∀ source, ix.recordsFrom source = l.recordsFrom source
  snapshot : ix.snapshot = l.snapshot
  keysUnder : ∀ dir, ix.keysUnder dir = l.keys.filter (Path.isUnder dir)
  sourcesUnder : ∀ dir, ix.sourcesUnder dir = l.sources.filter (Path.isUnder dir)
  targetsUnder : ∀ dir, ix.targetsUnder dir = l.targetsUnder dir
  size : ix.size = l.size
  /-- How many records go with a file. -/
  countFrom : ∀ source, ix.countFrom source = (l.ofSource source).length
  /-- Which files are answered when a key is given up. -/
  rekeyed : ∀ old new, (ix.rekey old new).2 = (l.rekey old new).2

variable {ix : Index} {l : Ledger}

theorem Denotes.empty : Index.empty.Denotes Ledger.empty where
  next := rfl
  distinct := List.nodup_nil
  records := by
    intro id record
    simp [Index.empty, Ledger.empty]
  targets := by
    intro key
    simp [Index.empty, Ledger.empty, Ledger.underKey, Buckets.numbers]
  sources := by
    intro source
    simp [Index.empty, Buckets.numbers]

/-! ## Reading the ledger off the index -/

theorem Denotes.getElem? (h : ix.Denotes l) {e : Ledger.Line} (he : e ∈ l.lines) :
    ix.records[e.number]? = some e.toRecord := (h.records _ _).mpr he

/-- A line is found among the numbers of its file. -/
theorem Denotes.mem_numbers_source (h : ix.Denotes l) (hv : ix.Valid) {e : Ledger.Line}
    (he : e ∈ l.lines) {source : String} :
    e.number ∈ ix.bySource.numbers source ↔ e.reference.source = source := by
  rw [hv.sources.mem_numbers, h.getElem? he, Option.map_some, Option.some_inj]

/-- The lines of a file are what its bucket numbers. -/
theorem Denotes.mem_map_number (h : ix.Denotes l) (hv : ix.Valid) {source : String} {id : Nat} :
    id ∈ (l.ofSource source).map (·.number) ↔ id ∈ ix.bySource.numbers source := by
  rw [List.mem_map]
  constructor
  · rintro ⟨e, he, rfl⟩
    obtain ⟨hmem, hs⟩ := List.mem_filter.mp he
    exact (h.mem_numbers_source hv hmem).mpr (of_decide_eq_true hs)
  · intro hid
    obtain ⟨record, hr, hs⟩ := (hv.sources.mem_iff source id).mp hid
    exact ⟨⟨record, id⟩, List.mem_filter.mpr ⟨(h.records id record).mp hr, decide_eq_true hs⟩, rfl⟩

theorem Denotes.references_map (h : ix.Denotes l) {es : List Ledger.Line}
    (hes : ∀ e ∈ es, e ∈ l.lines) :
    ix.references (es.map (·.number)) = es.map (·.reference) := by
  rw [references, List.filterMap_map, List.filterMap_eq_map_iff_forall_eq_some]
  intro e he
  simp [h.getElem? (hes e he)]

/-! ## Operations -/

theorem Denotes.insert (h : ix.Denotes l) (hv : ix.Valid) (r : Reference) :
    (ix.insert r).Denotes (l.insert r) := by
  have hold : ∀ e ∈ l.lines, e.number < ix.next := fun e he => hv.bound _ _ (h.getElem? he)
  refine ⟨?_, ?_, ?_, ?_, ?_⟩
  · simp only [Index.insert, Ledger.insert, h.next]
  · -- the next number is above all that are given out
    rw [Ledger.insert, List.map_append, List.nodup_append]
    refine ⟨h.distinct, by simp, ?_⟩
    intro a ha b hb
    obtain ⟨e, he, rfl⟩ := List.mem_map.mp ha
    have hlt := hold e he
    obtain rfl : b = l.next := by simpa using hb
    have := h.next
    omega
  · intro id record
    simp only [Index.insert, Ledger.insert, Std.TreeMap.getElem?_insert, Std.compare_eq_iff_eq,
      List.mem_append, List.mem_singleton, Ledger.Line.mk.injEq, ← h.next]
    by_cases hid : ix.next = id
    · subst hid
      have hnot : (⟨record, ix.next⟩ : Ledger.Line) ∉ l.lines :=
        fun he => Nat.lt_irrefl _ (hold _ he)
      simp [hnot, eq_comm]
    · rw [if_neg hid, h.records]
      simp [Ne.symm hid]
  · intro key
    simp only [Index.insert, Ledger.insert, Ledger.underKey, Buckets.numbers_append, h.targets,
      List.filter_append, List.map_append, h.next]
    by_cases hk : r.rooted = key
    · subst hk
      simp
    · simp [hk, Ne.symm hk]
  · intro source
    have hnum : (ix.insert r).bySource.numbers source =
        if source = r.source then ix.bySource.numbers r.source ++ [ix.next]
        else ix.bySource.numbers source := Buckets.numbers_append _ _ _ _
    rw [hnum]
    split
    · -- and so it may stand at the end of its bucket
      refine List.pairwise_append.mpr ⟨h.sources _, List.pairwise_singleton _ _, ?_⟩
      intro a ha b hb
      obtain ⟨record, hr, _⟩ := (hv.sources.mem_iff _ _).mp ha
      rw [List.mem_singleton] at hb
      exact hb ▸ hv.bound a record hr
    · exact h.sources source

theorem Denotes.foldl_insert {references : List Reference} (h : ix.Denotes l) (hv : ix.Valid) :
    (references.foldl Index.insert ix).Denotes (references.foldl Ledger.insert l) := by
  induction references generalizing ix l with
  | nil => exact h
  | cons r rest ih => exact ih (h.insert hv r) (hv.insert r)

/-- A dropped record leaves the bucket it is in, and no other has it. -/
theorem numbers_drop (h : ix.byTarget.Filed ix.records (·.key)) (id : Nat) (key : String) :
    (ix.drop id).byTarget.numbers key = (ix.byTarget.numbers key).filter (· != id) := by
  have habsent : id ∉ ix.byTarget.numbers key →
      (ix.byTarget.numbers key).filter (· != id) = ix.byTarget.numbers key := by
    intro hid
    refine List.filter_eq_self.mpr fun other ho => ?_
    rw [bne_iff_ne]
    exact fun he => hid (he ▸ ho)
  rw [drop]
  split
  · -- a record that is there is filed under its own key and under no other
    rename_i record hr
    rw [Buckets.numbers_remove]
    by_cases hk : key = record.key
    · rw [if_pos hk, hk]
    · rw [if_neg hk, habsent]
      rw [h.mem_numbers, hr, Option.map_some, Option.some_inj]
      exact Ne.symm hk
  · rename_i hnone
    rw [habsent]
    rw [h.mem_numbers, hnone]
    simp

theorem numbers_foldl_drop (ix : Index) (ids : List Nat)
    (h : ix.byTarget.Filed ix.records (·.key)) (key : String) :
    (ids.foldl drop ix).byTarget.numbers key =
      (ix.byTarget.numbers key).filter (· ∉ ids) := by
  induction ids generalizing ix with
  | nil => simp
  | cons id ids ih =>
      rw [List.foldl_cons, ih _ (targets_drop h id), numbers_drop h, List.filter_filter]
      refine List.filter_congr fun other _ => ?_
      by_cases hid : other = id
      · simp [hid]
      · simp [hid]

theorem Denotes.removeSource (h : ix.Denotes l) (hv : ix.Valid) (source : String) :
    (ix.removeSource source).Denotes (l.removeSource source) := by
  refine ⟨?_, ?_, ?_, ?_, ?_⟩
  · exact (foldl_drop_bySource _ _).2.trans h.next
  · exact h.distinct.sublist (List.filter_sublist.map _)
  · intro id record
    rw [getElem?_removeSource, Ledger.removeSource, List.mem_filter, ← h.records]
    by_cases hid : id ∈ ix.bySource.numbers source
    · obtain ⟨other, ho, hs⟩ := (hv.sources.mem_iff source id).mp hid
      rw [if_pos hid, ho]
      simp only [reduceCtorEq, Option.some_inj, false_iff, not_and]
      rintro rfl
      simpa using hs
    · rw [if_neg hid]
      refine ⟨fun hr => ⟨hr, ?_⟩, And.left⟩
      have hs : record.reference.source ≠ source :=
        fun he => hid ((hv.sources.mem_iff source id).mpr ⟨record, hr, he⟩)
      exact decide_eq_true hs
  · -- `drop` reads the key off each record, so the buckets of all keys lose the file's numbers
    intro key
    have hnum : (ix.removeSource source).byTarget.numbers key =
        (ix.byTarget.numbers key).filter (· ∉ ix.bySource.numbers source) :=
      numbers_foldl_drop { ix with bySource := ix.bySource.erase source } _ hv.targets key
    rw [hnum, h.targets, List.filter_map, Ledger.underKey, Ledger.underKey, Ledger.removeSource,
      List.filter_filter, List.filter_filter]
    refine congrArg _ (List.filter_congr fun e he => ?_)
    simp only [Function.comp_apply, h.mem_numbers_source hv he, Bool.and_comm, ne_eq]
  · intro other
    rw [bySource_removeSource, Buckets.numbers_erase]
    split
    · exact List.Pairwise.nil
    · exact h.sources other

theorem Denotes.replaceSource (h : ix.Denotes l) (hv : ix.Valid) (source : String)
    (references : List Reference) :
    (ix.replaceSource source references).Denotes (l.replaceSource source references) :=
  (h.removeSource hv source).foldl_insert (hv.removeSource source)

/-- The lines that are given another key are the records that had the old one. -/
theorem Denotes.mem_moved (h : ix.Denotes l) {old new : String} {id : Nat} {record : Record} :
    (∃ e ∈ l.underKey old, ({ e with key := new } : Ledger.Line) = ⟨record, id⟩) ↔
      ∃ before : Record, ix.records[id]? = some before ∧ before.key = old ∧
        ({ before with key := new } : Record) = record := by
  constructor
  · rintro ⟨e, he, heq⟩
    obtain ⟨hmem, hk⟩ := Ledger.mem_underKey.mp he
    obtain ⟨rfl, rfl⟩ := (Ledger.Line.mk.injEq ..).mp heq
    exact ⟨e.toRecord, h.getElem? hmem, hk, rfl⟩
  · rintro ⟨before, hb, hk, rfl⟩
    exact ⟨⟨before, id⟩, Ledger.mem_underKey.mpr ⟨(h.records _ _).mp hb, hk⟩, rfl⟩

/-- Records whose number is in a bucket get another key, and so do the lines. -/
theorem Denotes.records_rekeyed (h : ix.Denotes l) (hv : ix.Valid) (old new : String) (id : Nat)
    (record : Record) :
    (if id ∈ ix.byTarget.numbers old then
      (ix.records[id]?).map fun before => { before with key := new } else ix.records[id]?) =
        some record ↔
      (⟨record, id⟩ : Ledger.Line) ∈ l.lines.filter (·.key ≠ old) ++
        (l.underKey old).map fun e => { e with key := new } := by
  rw [List.mem_append, List.mem_filter, ← h.records, List.mem_map, h.mem_moved]
  have hold : id ∈ ix.byTarget.numbers old ↔ (ix.records[id]?).map (·.key) = some old :=
    hv.targets.mem_numbers
  cases hr : ix.records[id]? with
  | none => simp
  | some before =>
      rw [hr, Option.map_some, Option.some_inj] at hold
      by_cases hk : before.key = old
      · simp only [hold.mpr hk, if_pos, Option.map_some, Option.some_inj, hk, true_and,
          exists_eq_left']
        refine ⟨.inr, ?_⟩
        -- a line that is kept has another key than this record
        rintro (⟨rfl, hne⟩ | he)
        · simp [hk] at hne
        · exact he
      · simp only [mt hold.mp hk, if_neg, not_false_eq_true, Option.some_inj, exists_eq_left',
          hk, false_and, or_false, decide_eq_true_eq, ne_eq]
        exact ⟨fun he => ⟨he, he ▸ hk⟩, And.left⟩

theorem Denotes.rekey (h : ix.Denotes l) (hv : ix.Valid) (old new : String) :
    (ix.rekey old new).1.Denotes (l.rekey old new).1 := by
  rcases ix.rekey_cases old new with ⟨hsame, hnone⟩ | ⟨hne, hids, hmoved⟩
  · -- nothing is moved, by the index or in the ledger
    rw [hsame]
    rcases hnone with he | he
    · rw [Ledger.rekey, if_pos he]
      exact h
    · rw [h.targets, List.map_eq_nil_iff] at he
      rw [Ledger.rekey_of_nil he]
      exact h
  · have hget := getElem?_foldl_modify (ix.byTarget.numbers (Path.normalize old)) ix.records
      (fun record => { record with key := Path.normalize new }) fun record => rfl
    have hlines : (l.rekey old new).1.lines = l.lines.filter (·.key ≠ Path.normalize old) ++
        (l.underKey (Path.normalize old)).map fun e => { e with key := Path.normalize new } := by
      rw [Ledger.rekey, if_neg hne]
    have hnext : (l.rekey old new).1.next = l.next := by
      rw [Ledger.rekey, if_neg hne]
    rw [hmoved]
    refine ⟨h.next.trans hnext.symm, ?_, ?_, ?_, h.sources⟩
    · -- the lines are reordered, and none gets another number
      rw [hlines, List.map_append, List.map_map]
      have := ((l.perm_rekeyed (Path.normalize old)).map (·.number)).nodup_iff.mpr h.distinct
      rwa [List.map_append] at this
    · intro id record
      rw [hget id, hlines]
      exact h.records_rekeyed hv (Path.normalize old) (Path.normalize new) id record
    · intro key
      rw [Ledger.underKey_rekey hne, Buckets.numbers_append, Buckets.numbers_erase,
        Buckets.numbers_erase, if_neg (Ne.symm hne), h.targets, h.targets, h.targets]
      by_cases hk : key = Path.normalize new
      · rw [if_pos hk, if_pos hk, List.map_append, List.map_map, hk]
        rfl
      · rw [if_neg hk, if_neg hk, apply_ite (List.map _), List.map_nil]

theorem Valid.perform (hv : ix.Valid) (op : IndexOperation) : (ix.perform op).Valid := by
  cases op with
  | replaceSource source references => exact hv.replaceSource source references
  | removeSource source => exact hv.removeSource source
  | rekey old new => exact (hv.rekey old new).1

/-- **Each operation of the index is that of the ledger.** -/
theorem Denotes.perform (h : ix.Denotes l) (hv : ix.Valid) (op : IndexOperation) :
    (ix.perform op).Denotes (l.perform op) := by
  cases op with
  | replaceSource source references => exact h.replaceSource hv source references
  | removeSource source => exact h.removeSource hv source
  | rekey old new => exact h.rekey hv old new

/-- What is run on both keeps them the same, by the step above. -/
theorem Denotes.run (h : ix.Denotes l) (hv : ix.Valid) (operations : List IndexOperation) :
    (operations.foldl Index.perform ix).Valid ∧
    (operations.foldl Index.perform ix).Denotes (operations.foldl Ledger.perform l) := by
  induction operations generalizing ix l with
  | nil => exact ⟨hv, h⟩
  | cons op rest ih => exact ih (h.perform hv op) (hv.perform op)

/-! ## Answers -/

/-- Sorted names are equal if they are the same names. -/
theorem eq_sort {names : List String} (hn : names.Pairwise (compare · · = .lt)) {s : Finset String}
    (hs : ∀ name, name ∈ names ↔ name ∈ s) : names = s.sort (· ≤ ·) := by
  refine List.SortedLT.eq_of_mem_iff ?_ s.sortedLT_sort fun name => ?_
  · exact List.Pairwise.sortedLT (hn.imp compare_lt_iff_lt.mp)
  · rw [hs, Finset.mem_sort]

theorem Denotes.keys_byTarget (h : ix.Denotes l) (hv : ix.Valid) : ix.byTarget.keys = l.keys := by
  refine eq_sort Std.TreeMap.ordered_keys fun key => ?_
  rw [hv.targets.mem_keys, h.targets, List.mem_toFinset]
  simp [Ledger.mem_underKey]

theorem Denotes.keys_bySource (h : ix.Denotes l) (hv : ix.Valid) :
    ix.bySource.keys = l.sources := by
  refine eq_sort Std.TreeMap.ordered_keys fun source => ?_
  rw [hv.sources.mem_keys, List.mem_toFinset]
  simp [← h.mem_map_number hv, Ledger.ofSource]

/-- The bucket of a file numbers its lines, oldest first. -/
theorem Denotes.numbers_bySource (h : ix.Denotes l) (hv : ix.Valid) (source : String) :
    ix.bySource.numbers source =
      ((l.ofSource source).mergeSort fun e f => e.number ≤ f.number).map (·.number) := by
  have hperm := (l.ofSource source).mergeSort_perm fun e f => decide (e.number ≤ f.number)
  refine List.Pairwise.eq_of_mem_iff (h.sources source) ?_ fun id => ?_
  · have hle : ((l.ofSource source).mergeSort fun e f => e.number ≤ f.number).Pairwise
        fun e f => decide (e.number ≤ f.number) = true :=
      List.pairwise_mergeSort (by simp; omega) (by simp; omega) _
    have hdistinct : ((l.ofSource source).map (·.number)).Nodup :=
      h.distinct.sublist (List.filter_sublist.map _)
    rw [← (hperm.map (·.number)).nodup_iff] at hdistinct
    -- sorted and without repetitions is strictly sorted
    refine (List.pairwise_map.mpr (hle.imp of_decide_eq_true)).and hdistinct |>.imp ?_
    rintro a b ⟨hab, hne⟩
    exact Nat.lt_of_le_of_ne hab hne
  · rw [← h.mem_map_number hv, (hperm.map (·.number)).mem_iff]

theorem Denotes.recordsFrom (h : ix.Denotes l) (hv : ix.Valid) (source : String) :
    ix.recordsFrom source = l.recordsFrom source := by
  rw [Index.recordsFrom, h.numbers_bySource hv, h.references_map, Ledger.recordsFrom]
  intro e he
  rw [List.mem_mergeSort] at he
  exact (List.mem_filter.mp he).1

theorem Denotes.snapshot (h : ix.Denotes l) (hv : ix.Valid) : ix.snapshot = l.snapshot := by
  rw [Index.snapshot, Buckets.toList_eq_map, List.map_map, h.keys_byTarget hv, Ledger.snapshot]
  refine List.map_congr_left fun key _ => ?_
  simp only [Function.comp_apply, h.targets,
    h.references_map fun e he => (Ledger.mem_underKey.mp he).1]

/-- There are as many records as lines. -/
theorem Denotes.size_records (h : ix.Denotes l) : ix.records.size = l.lines.length := by
  -- both lists are without repetitions, so that it is enough to compare what they hold
  have hperm : ix.records.keys.Perm (l.lines.map (·.number)) := by
    refine (List.perm_ext_iff_of_nodup Std.TreeMap.nodup_keys h.distinct).mpr fun id => ?_
    rw [Std.TreeMap.mem_keys, Std.TreeMap.mem_iff_isSome_getElem?, Option.isSome_iff_exists,
      List.mem_map]
    constructor
    · rintro ⟨record, hr⟩
      exact ⟨_, (h.records _ _).mp hr, rfl⟩
    · rintro ⟨e, he, rfl⟩
      exact ⟨_, h.getElem? he⟩
  rw [← Std.TreeMap.length_keys, hperm.length_eq, List.length_map]

theorem Denotes.targetsUnder (h : ix.Denotes l) (dir : String) :
    ix.targetsUnder dir = l.targetsUnder dir := by
  refine eq_sort Std.TreeSet.ordered_toList fun path => ?_
  rw [← Index.targetsUnder, mem_targetsUnder, List.mem_toFinset, List.mem_filter, and_comm]
  refine and_congr_left fun _ => ?_
  rw [List.mem_flatMap]
  constructor
  · rintro ⟨id, record, hr, hp⟩
    exact ⟨_, (h.records _ _).mp hr, by simpa using hp⟩
  · rintro ⟨e, he, hp⟩
    exact ⟨_, _, h.getElem? he, by simpa using hp⟩

theorem Denotes.rekeyed (h : ix.Denotes l) (old new : String) :
    (ix.rekey old new).2 = (l.rekey old new).2 := by
  rcases ix.rekey_cases old new with ⟨hsame, hnone⟩ | ⟨hne, _, hmoved⟩
  · rw [hsame]
    rcases hnone with he | he
    · rw [Ledger.rekey, if_pos he]
    · rw [h.targets, List.map_eq_nil_iff] at he
      rw [Ledger.rekey_of_nil he]
  · rw [hmoved, Ledger.rekey, if_neg hne]
    dsimp only
    rw [sourcesOf]
    refine eq_sort Std.TreeSet.ordered_toList fun source => ?_
    rw [Std.TreeSet.mem_toList, Std.TreeSet.mem_ofList,
      List.contains_iff_mem, h.targets, h.references_map fun e he => (Ledger.mem_underKey.mp he).1,
      List.mem_toFinset, List.map_map]
    rfl

theorem Denotes.answers (h : ix.Denotes l) (hv : ix.Valid) : ix.Answers l where
  recordsFrom := h.recordsFrom hv
  snapshot := h.snapshot hv
  keysUnder := by
    intro dir
    rw [Index.keysUnder, h.keys_byTarget hv]
  sourcesUnder := by
    intro dir
    rw [Index.sourcesUnder, h.keys_bySource hv]
  targetsUnder := h.targetsUnder
  size := by
    rw [Index.size, Ledger.size, h.size_records, ← h.keys_byTarget hv, ← h.keys_bySource hv,
      Std.TreeMap.length_keys, Std.TreeMap.length_keys]
  countFrom := by
    intro source
    rw [Index.countFrom, h.numbers_bySource hv, List.length_map, List.length_mergeSort]
  rekeyed := h.rekeyed

/--
**The index is a list of records, whatever has been done to it.**

From the empty index, any operations with any arguments: each record is in the table, in
the bucket of its file and in the bucket of its key, once in each, and no bucket is empty;
the records are the lines of the ledger after the same operations, and every question is
answered as the ledger answers it.
-/
theorem refines_ledger (operations : List IndexOperation) :
    (operations.foldl Index.perform .empty).Valid ∧
    (operations.foldl Index.perform .empty).Denotes (operations.foldl Ledger.perform .empty) ∧
    (operations.foldl Index.perform .empty).Answers (operations.foldl Ledger.perform .empty) := by
  obtain ⟨hv, h⟩ := Denotes.empty.run valid_empty operations
  exact ⟨hv, h, h.answers hv⟩

end Index

end LinkKeeper
