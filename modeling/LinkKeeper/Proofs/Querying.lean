import LinkKeeper.Proofs.Exhaustive

/-!
# What a lookup answers

A lookup goes through the buckets of the index, three times and by three rules. What it answers
is one pass through the table of records: each record that refers to the path, once, in the
order of their numbers.

One kind of record is left out. The third rule asks first whether the key of a record ends in the
name of the path, and a link that does nothing but climb has a key that ends in `..`. Such a link
is not found under the directory that it leads to, unless it is found there by one of the other
rules.
-/

namespace LinkKeeper

open Path (normalize baseName parent)

namespace Record

/-- Whether a record names a path: it is filed under the path, or under its last segment by a file beside it. -/
def names (record : Record) (path : String) : Bool :=
  record.key == path
    || (record.key == baseName path && parent record.reference.source == parent path)

/-- Whether a record refers to a path: it names the path, or leads there from its own directory. -/
def refersTo (record : Record) (path : String) : Bool :=
  record.names path || record.reference.resolved == path

/-- Whether a record refers to a path in a way that a lookup goes by. -/
def answersTo (record : Record) (path : String) : Bool :=
  record.refersTo path && (record.names path || !record.reference.climbs)

theorem names_iff {record : Record} {path : String} : record.names path = true ↔
    record.key = path ∨
      (record.key = baseName path ∧ parent record.reference.source = parent path) := by
  rw [names, Bool.or_eq_true, Bool.and_eq_true, beq_iff_eq, beq_iff_eq, beq_iff_eq]

theorem answersTo_iff {record : Record} {path : String} : record.answersTo path = true ↔
    record.names path = true ∨
      (record.reference.resolved = path ∧ record.reference.climbs = false) := by
  rw [answersTo, refersTo, ← Bool.or_and_distrib_left, Bool.or_eq_true, Bool.and_eq_true,
    beq_iff_eq, Bool.not_eq_true']

end Record

namespace IndexOperation

/-- Whether an operation re-files records under another key. -/
def refiles : IndexOperation → Bool
  | rekey _ _ => true
  | _ => false

end IndexOperation

namespace Index

variable {ix : Index}

/-- As long as nothing is re-filed, every record is filed under what its link says. -/
theorem settled_of_not_refiles {operations : List IndexOperation}
    (h : ∀ op ∈ operations, op.refiles = false) : (operations.foldl perform .empty).Settled := by
  have hrun : ∀ (operations : List IndexOperation) (ix : Index), ix.Valid → ix.Settled →
      (∀ op ∈ operations, op.refiles = false) → (operations.foldl perform ix).Settled := by
    intro operations
    induction operations with
    | nil => exact fun ix _ hs _ => hs
    | cons op rest ih =>
        intro ix hv hs hops
        refine ih _ (hv.perform op) ?_ fun later hl => hops later (List.mem_cons_of_mem _ hl)
        cases op with
        | replaceSource source references =>
            exact (hv.settledBut_replaceSource hs source references).mono fun _ hst => hst.1
        | removeSource source =>
            exact (hv.settledBut_removeSource hs source).mono fun _ hst => hst.1
        | rekey old new =>
            exact absurd (hops _ List.mem_cons_self) (by simp [IndexOperation.refiles])
  exact hrun operations .empty valid_empty settled_empty h

/-! ## By number and by row -/

/-- Records that are picked by their numbers in order are the rows with these numbers. -/
theorem references_eq_filter {ids : List Nat} {p : Record → Bool} (hsorted : ids.Pairwise (· < ·))
    (hids : ∀ id, id ∈ ids ↔ ∃ record, ix.records[id]? = some record ∧ p record = true) :
    ix.references ids = (ix.records.values.filter p).map (·.reference) := by
  let rows := ix.records.toList.filter fun row => p row.2
  have hrow : ∀ row ∈ rows, ix.records[row.1]? = some row.2 := fun row hrow =>
    Std.TreeMap.mem_toList_iff_getElem?_eq_some.mp (List.mem_filter.mp hrow).1
  have hnumbers : ids = rows.map (·.1) := by
    refine List.Pairwise.eq_of_mem_iff hsorted ?_ fun id => ?_
    · have hrows : ix.records.toList.Pairwise fun a b => compare a.1 b.1 = .lt :=
        Std.TreeMap.ordered_keys_toList
      exact List.pairwise_map.mpr ((hrows.filter _).imp compare_lt_iff_lt.mp)
    · rw [hids, List.mem_map]
      constructor
      · rintro ⟨record, hr, hp⟩
        exact ⟨(id, record), List.mem_filter.mpr
          ⟨Std.TreeMap.mem_toList_iff_getElem?_eq_some.mpr hr, hp⟩, rfl⟩
      · rintro ⟨row, hmem, rfl⟩
        exact ⟨row.2, hrow row hmem, (List.mem_filter.mp hmem).2⟩
  have hvalues : ix.records.values.filter p = rows.map (·.2) := by
    rw [values_eq_map, List.filter_map]
    rfl
  rw [hvalues, List.map_map, hnumbers, references, List.filterMap_map,
    List.filterMap_eq_map_iff_forall_eq_some]
  intro row hmem
  simp [hrow row hmem]

theorem sorted_matching (ix : Index) (target : String) : (ix.matching target).Pairwise (· < ·) :=
  Std.TreeSet.ordered_toList.imp compare_lt_iff_lt.mp

/-- What the three rules come to. -/
theorem Valid.mem_matching_iff (h : ix.Valid) (hs : ix.Settled)
    (hin : ∀ r, ix.Has r → r.isInside = true) {target : String} {id : Nat} :
    id ∈ ix.matching target ↔ ∃ record, ix.records[id]? = some record ∧
      record.answersTo (normalize target) = true := by
  rw [mem_matching h]
  refine exists_congr fun record => and_congr_right fun hr => ?_
  have hinside : record.reference.isInside = true := hin _ ⟨id, record, hr, rfl⟩
  rw [Record.answersTo_iff, Record.names_iff]
  constructor
  · rintro (hkey | ⟨-, hkey, hbeside⟩ | ⟨-, hbase, hres⟩)
    · exact .inl (.inl hkey)
    · exact .inl (.inr ⟨hkey, hbeside⟩)
    · right
      refine ⟨hres, ?_⟩
      by_contra hc
      rw [Bool.not_eq_false] at hc
      -- what ends in a step up on either reading lies nowhere in the tree
      refine Reference.baseName_ne_above hinside hc ?_
      rw [hres, ← hbase, hs.key hr]
      exact beq_iff_eq.mp hc
  · rintro ((hkey | ⟨hkey, hbeside⟩) | ⟨hres, hc⟩)
    · exact .inl hkey
    · by_cases hname : baseName (normalize target) = normalize target
      · exact .inl (hkey.trans hname)
      · exact .inr (.inl ⟨hname, hkey, hbeside⟩)
    · by_cases hkey : record.key = normalize target
      · exact .inl hkey
      · refine .inr (.inr ⟨hkey, ?_, hres⟩)
        rw [hs.key hr, Reference.baseName_resolved hinside hc, hres]

/--
**A lookup answers with the records that refer to the path**, each of them once and in the order of
their numbers, but for those that only climb there.
-/
theorem lookup_eq_filter (hix : ix.Reachable) (hs : ix.Settled) (target : String) :
    ix.lookup target = (ix.records.values.filter fun record =>
      record.refersTo (normalize target) &&
        (record.names (normalize target) || !record.reference.climbs)).map (·.reference) :=
  references_eq_filter (ix.sorted_matching target) fun _ =>
    hix.valid.mem_matching_iff hs fun _ hr => hix.inside hr

/-- Files are read, one is read again and one goes. -/
def filings : List IndexOperation :=
  [.replaceSource "b.md" [⟨some "g", 17, 4, .markdownInline, 1, "b.md", "docs/guide.md"⟩],
   .replaceSource "docs/a.md" [⟨some "n", 11, 4, .markdownInline, 1, "docs/a.md", "news.md"⟩],
   .replaceSource "c/d.md"
     [⟨some "t", 24, 4, .markdownInline, 1, "c/d.md", "../docs/guide.md#top"⟩],
   .removeSource "b.md",
   .replaceSource "docs/a.md"
     [⟨some "g", 12, 4, .markdownInline, 1, "docs/a.md", "guide.md"⟩,
      ⟨some "n", 11, 4, .markdownInline, 2, "docs/a.md", "news.md"⟩,
      ⟨some "g", 18, 4, .markdownInline, 3, "docs/a.md", "/docs/guide.md"⟩]]

/-- A link from elsewhere, a bare name and a link from the root are found, each by a rule of its own. -/
theorem lookup_eq_filter_filings :
    (filings.foldl perform .empty).Reachable ∧ (filings.foldl perform .empty).Settled ∧
    (filings.foldl perform .empty).lookup "docs/./guide.md" =
      [⟨some "t", 24, 4, .markdownInline, 1, "c/d.md", "../docs/guide.md#top"⟩,
       ⟨some "g", 12, 4, .markdownInline, 1, "docs/a.md", "guide.md"⟩,
       ⟨some "g", 18, 4, .markdownInline, 3, "docs/a.md", "/docs/guide.md"⟩] := by
  have hreachable : (filings.foldl perform .empty).Reachable := ⟨filings, rfl⟩
  have hsettled : (filings.foldl perform .empty).Settled := settled_of_not_refiles (by decide)
  refine ⟨hreachable, hsettled, (lookup_eq_filter hreachable hsettled _).trans ?_⟩
  decide +kernel

/-- A link that climbs to `x` refers to `x`, lies among what a move of `x` asks for, and is not found. -/
theorem lookup_misses_upLink :
    (Keeper.indexHolding Keeper.upLink).Reachable ∧ (Keeper.indexHolding Keeper.upLink).Settled ∧
    ((Keeper.indexHolding Keeper.upLink).records.values.filter
      (·.refersTo (normalize "x"))).map (·.reference) = [Keeper.upLink] ∧
    "x" ∈ (Keeper.indexHolding Keeper.upLink).targetsUnder "x" ∧
    (Keeper.indexHolding Keeper.upLink).lookup "x" = [] :=
  ⟨Keeper.reachable_holding _, Keeper.settled_holding _, by decide +kernel, by decide +kernel,
    by decide +kernel⟩

end Index

end LinkKeeper
