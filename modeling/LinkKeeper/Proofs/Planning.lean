import LinkKeeper.Proofs.Indexing
import LinkKeeper.Proofs.Maps
import LinkKeeper.Proofs.Retargeting
import LinkKeeper.Upkeep

/-!
# Where the edits of a plan come from

A plan is gathered by going through lists of references and adding, for each, an edit to
the file that holds it. Here it is said for each plan which edits a file gets: one for
every reference that the index finds for something that has moved, and one for every
relative link in a file that has moved itself. Nothing is in a plan that does not come
from a record of the index.
-/

namespace LinkKeeper

open Path (Proper)

namespace EditPlan

/-- The edits of a file. -/
def edits (plan : EditPlan) (file : String) : List Edit := (plan[file]?).getD []

/-- No file is named without an edit. -/
def Full (plan : EditPlan) : Prop := ∀ file : String, plan[file]? ≠ some []

theorem edits_empty (file : String) : edits ∅ file = [] := by
  simp [edits]

theorem full_empty : Full ∅ := by
  intro file
  simp

theorem edits_add (plan : EditPlan) (file : String) (edit : Option Edit) (other : String) :
    (plan.add file edit).edits other =
      plan.edits other ++ (if other = file then edit.toList else []) := by
  cases edit with
  | none => simp [add]
  | some e =>
      rw [edits, add, Std.TreeMap.getElem?_alter]
      simp only [Std.compare_eq_iff_eq]
      by_cases h : file = other
      · subst h
        simp [edits]
      · rw [if_neg h, if_neg (Ne.symm h), List.append_nil]
        rfl

theorem Full.add {plan : EditPlan} (h : plan.Full) (file : String) (edit : Option Edit) :
    (plan.add file edit).Full := by
  cases edit with
  | none => exact h
  | some e =>
      intro other
      rw [EditPlan.add, Std.TreeMap.getElem?_alter]
      simp only [Std.compare_eq_iff_eq]
      split
      · simp
      · exact h other

/-- Of a plan that names no file in vain, the files are those with an edit. -/
theorem Full.edits_ne_nil {plan : EditPlan} (h : plan.Full) {file : String} {es : List Edit}
    (he : (file, es) ∈ plan.toList) : plan.edits file = es ∧ es ≠ [] := by
  rw [Std.TreeMap.mem_toList_iff_getElem?_eq_some] at he
  refine ⟨by rw [edits, he]; rfl, fun hnil => h file ?_⟩
  rw [he, hnil]

/-! ## Plans gathered from a list -/

/-- Steps that each add the edits of one thing. -/
structure Adds {α : Type} (step : EditPlan → α → EditPlan) (found : α → String → List Edit) :
    Prop where
  edits_eq : ∀ plan a file, (step plan a).edits file = plan.edits file ++ found a file
  full : ∀ plan a, plan.Full → (step plan a).Full

/-- Going through a list adds the edits of everything in it, in order. -/
theorem Adds.foldl {α : Type} {step : EditPlan → α → EditPlan} {found : α → String → List Edit}
    (h : Adds step found) (l : List α) (plan : EditPlan) (file : String) :
    (l.foldl step plan).edits file = plan.edits file ++ l.flatMap fun a => found a file := by
  induction l generalizing plan with
  | nil => simp
  | cons a l ih => rw [List.foldl_cons, ih, h.edits_eq, List.flatMap_cons, List.append_assoc]

theorem Adds.foldl_full {α : Type} {step : EditPlan → α → EditPlan}
    {found : α → String → List Edit} (h : Adds step found) (l : List α) {plan : EditPlan}
    (hp : plan.Full) : (l.foldl step plan).Full := by
  induction l generalizing plan with
  | nil => exact hp
  | cons a l ih => exact ih (h.full plan a hp)

end EditPlan

/-! ## What the index finds -/

namespace Index

variable {ix : Index}

/-- Whether some record is about a reference. -/
def Has (ix : Index) (r : Reference) : Prop :=
  ∃ (id : Nat) (record : Record), ix.records[id]? = some record ∧ record.reference = r

theorem Valid.mem_recordsFrom_iff (h : ix.Valid) {s : String} {r : Reference} :
    r ∈ ix.recordsFrom s ↔ r.source = s ∧ ix.Has r := h.mem_recordsFrom

theorem Valid.has (h : ix.Valid) {s : String} {r : Reference} (hr : r ∈ ix.recordsFrom s) :
    ix.Has r := (h.mem_recordsFrom_iff.mp hr).2

theorem holds_iff {p : Reference → Bool} {id : Nat} : ix.holds p id = true ↔
    ∃ record : Record, ix.records[id]? = some record ∧ p record.reference = true := by
  rw [holds, Option.any_eq_true]

theorem mem_matching {target : String} {id : Nat} (h : ix.Valid) :
    id ∈ ix.matching target ↔ ∃ record : Record, ix.records[id]? = some record ∧
      (record.key = Path.normalize target ∨
      (Path.baseName (Path.normalize target) ≠ Path.normalize target ∧
        record.key = Path.baseName (Path.normalize target) ∧
        Path.parent record.reference.source = Path.parent (Path.normalize target)) ∨
      (record.key ≠ Path.normalize target ∧
        Path.baseName record.key = Path.baseName (Path.normalize target) ∧
        record.reference.resolved = Path.normalize target)) := by
  rw [matching, Std.TreeSet.mem_toList, Std.TreeSet.mem_ofList, List.contains_iff_mem,
    List.mem_append, List.mem_append, or_assoc]
  have hsibling : id ∈ (if Path.baseName (Path.normalize target) = Path.normalize target then []
      else (ix.byTarget.numbers (Path.baseName (Path.normalize target))).filter
        (ix.holds fun r => Path.parent r.source == Path.parent (Path.normalize target))) ↔
      ∃ record : Record, ix.records[id]? = some record ∧
        (Path.baseName (Path.normalize target) ≠ Path.normalize target ∧
          record.key = Path.baseName (Path.normalize target) ∧
          Path.parent record.reference.source = Path.parent (Path.normalize target)) := by
    split
    · rename_i he
      simp [he]
    · rename_i hne
      rw [List.mem_filter, h.targets.mem_iff, holds_iff]
      constructor
      · rintro ⟨⟨record, hr, hk⟩, other, ho, hp⟩
        rw [hr] at ho
        obtain rfl := Option.some.inj ho
        exact ⟨record, hr, hne, hk, beq_iff_eq.mp hp⟩
      · rintro ⟨record, hr, -, hk, hp⟩
        exact ⟨⟨record, hr, hk⟩, record, hr, beq_iff_eq.mpr hp⟩
  have hrelative : id ∈ (ix.byTarget.toList.flatMap fun entry =>
      if entry.1 = Path.normalize target ∨
          Path.baseName entry.1 ≠ Path.baseName (Path.normalize target) then []
      else entry.2.filter (ix.holds fun r => r.resolved == Path.normalize target)) ↔
      ∃ record : Record, ix.records[id]? = some record ∧
        (record.key ≠ Path.normalize target ∧
          Path.baseName record.key = Path.baseName (Path.normalize target) ∧
          record.reference.resolved = Path.normalize target) := by
    rw [List.mem_flatMap]
    constructor
    · rintro ⟨⟨key, ids⟩, hmem, hid⟩
      rw [Std.TreeMap.mem_toList_iff_getElem?_eq_some] at hmem
      dsimp only at hid
      split at hid
      · exact absurd hid (by simp)
      · rename_i hne
        obtain ⟨hkey, hbase⟩ := not_or.mp hne
        rw [List.mem_filter, holds_iff] at hid
        obtain ⟨hin, record, hr, hp⟩ := hid
        have hnum : id ∈ ix.byTarget.numbers key := by
          rw [Buckets.numbers, hmem]
          exact hin
        obtain ⟨other, ho, rfl⟩ := (h.targets.mem_iff key id).mp hnum
        rw [hr] at ho
        obtain rfl := Option.some.inj ho
        exact ⟨record, hr, hkey, Classical.not_not.mp hbase, beq_iff_eq.mp hp⟩
    · rintro ⟨record, hr, hkey, hbase, hp⟩
      have hnum := (h.targets.mem_iff record.key id).mpr ⟨record, hr, rfl⟩
      rw [Buckets.numbers] at hnum
      cases hb : ix.byTarget[record.key]? with
      | none =>
          rw [hb] at hnum
          exact absurd hnum (by simp)
      | some ids =>
          rw [hb] at hnum
          refine ⟨(record.key, ids), Std.TreeMap.mem_toList_iff_getElem?_eq_some.mpr hb, ?_⟩
          dsimp only
          rw [if_neg (not_or.mpr ⟨hkey, Classical.not_not.mpr hbase⟩), List.mem_filter, holds_iff]
          exact ⟨hnum, record, hr, beq_iff_eq.mpr hp⟩
  refine (or_congr (h.targets.mem_iff _ id) (or_congr hsibling hrelative)).trans ?_
  rw [← exists_or, ← exists_or]
  refine exists_congr fun record => ?_
  rw [and_or_left, and_or_left]

/-- **What is found for a path.** The references filed under it, under its name in its own directory, or under its name and leading there. -/
theorem mem_lookup {target : String} {r : Reference} (h : ix.Valid) (hs : ix.Settled)
    (ht : Path.normalize target = target) :
    r ∈ ix.lookup target ↔ ix.Has r ∧ (r.rooted = target ∨
      (Path.baseName target ≠ target ∧ r.rooted = Path.baseName target ∧
        Path.parent r.source = Path.parent target) ∨
      (r.rooted ≠ target ∧ Path.baseName r.rooted = Path.baseName target ∧
        r.resolved = target)) := by
  rw [lookup, mem_references]
  constructor
  · rintro ⟨id, hid, record, hr, rfl⟩
    obtain ⟨other, ho, hmeans⟩ := (mem_matching h).mp hid
    rw [hr] at ho
    obtain rfl := Option.some.inj ho
    rw [ht, hs.key hr] at hmeans
    exact ⟨⟨id, record, hr, rfl⟩, hmeans⟩
  · rintro ⟨⟨id, record, hr, rfl⟩, hmeans⟩
    rw [← hs.key hr] at hmeans
    refine ⟨id, (mem_matching h).mpr ⟨record, hr, ?_⟩, record, hr, rfl⟩
    rw [ht]
    exact hmeans

theorem has_of_mem_lookup {target : String} {r : Reference} (h : r ∈ ix.lookup target) :
    ix.Has r := by
  obtain ⟨id, _, record, hr, rfl⟩ := mem_references.mp h
  exact ⟨id, record, hr, rfl⟩

/-- The paths below a directory that are looked up when it moves. -/
theorem mem_targetsUnder {dir path : String} : path ∈ ix.targetsUnder dir ↔
    Path.isUnder dir path = true ∧ ∃ (id : Nat) (record : Record),
      ix.records[id]? = some record ∧ (path = record.key ∨ path = record.reference.resolved) := by
  rw [targetsUnder, Std.TreeSet.mem_toList, Std.TreeSet.mem_ofList, List.contains_iff_mem,
    List.mem_filter, List.mem_flatMap, and_comm]
  refine and_congr_right fun _ => ⟨?_, ?_⟩
  · rintro ⟨record, hr, hp⟩
    obtain ⟨⟨id, _⟩, hid, rfl⟩ := List.mem_map.mp (values_eq_map ix.records ▸ hr)
    rw [Std.TreeMap.mem_toList_iff_getElem?_eq_some] at hid
    exact ⟨id, _, hid, by simpa using hp⟩
  · rintro ⟨id, record, hr, hp⟩
    refine ⟨record, ?_, by simpa using hp⟩
    rw [values_eq_map]
    exact List.mem_map.mpr ⟨(id, record), Std.TreeMap.mem_toList_iff_getElem?_eq_some.mpr hr, rfl⟩

theorem Valid.mem_sourcesUnder (h : ix.Valid) {dir path : String} :
    path ∈ ix.sourcesUnder dir ↔ ix.recordsFrom path ≠ [] ∧ Path.isUnder dir path = true := by
  rw [sourcesUnder, List.mem_filter, h.mem_keys_bySource]

end Index

namespace Keeper

variable {k : Keeper}

/-! ## A file that has moved -/

theorem firstAtPlaces_sublist (references : List Reference) :
    (firstAtPlaces references).Sublist references := by
  induction references with
  | nil => exact .slnil
  | cons r rest ih =>
      rw [firstAtPlaces]
      exact (List.filter_sublist.trans ih).cons_cons r

theorem has_of_mem_candidates {path : String} {r : Reference} (h : r ∈ k.candidates path) :
    k.index.Has r := by
  have hmem := (firstAtPlaces_sublist _).mem h
  obtain ⟨spelling, _, hr⟩ := List.mem_flatMap.mp ((List.mergeSort_perm _ _).mem_iff.mp hmem)
  exact Index.has_of_mem_lookup hr

/-- Where no two references share a place, the first at each place is all there is. -/
theorem mem_firstAtPlaces {references : List Reference} {r : Reference} (h : r ∈ references)
    (hplace : ∀ s ∈ references, s.place = r.place → s = r) : r ∈ firstAtPlaces references := by
  induction references with
  | nil => exact h
  | cons s rest ih =>
      rw [firstAtPlaces]
      by_cases hs : s = r
      · rw [hs]
        exact List.mem_cons_self ..
      · have hrest : r ∈ rest := (List.mem_cons.mp h).resolve_left (Ne.symm hs)
        refine List.mem_cons_of_mem _ (List.mem_filter.mpr ⟨?_, ?_⟩)
        · exact ih hrest fun q hq => hplace q (List.mem_cons_of_mem _ hq)
        · rw [bne_iff_ne]
          exact fun he => hs (hplace s (List.mem_cons_self ..) he.symm)

theorem mem_candidates {path : String} {r : Reference}
    (hplace : ∀ s, k.index.Has s → s.place = r.place → s = r) :
    r ∈ k.candidates path ↔ ∃ spelling ∈ spellings path, r ∈ k.index.lookup spelling := by
  have hsorted : ∀ q, q ∈ ((spellings path).flatMap k.index.lookup).mergeSort Reference.precedes ↔
      ∃ spelling ∈ spellings path, q ∈ k.index.lookup spelling := fun q => by
    rw [(List.mergeSort_perm _ _).mem_iff, List.mem_flatMap]
  rw [candidates]
  constructor
  · exact fun h => (hsorted r).mp ((firstAtPlaces_sublist _).mem h)
  · intro h
    refine mem_firstAtPlaces ((hsorted r).mpr h) fun s hs he => hplace s ?_ he
    obtain ⟨spelling, _, hl⟩ := (hsorted s).mp hs
    exact Index.has_of_mem_lookup hl

/-- What a moved file means for a link in some file. -/
def fileMove (source target holder : String) : Move :=
  ⟨if holder = source then target else holder, source, target⟩

/-- What a moved directory means for a link to something that was in it. -/
def subtreeMove (source target old new holder : String) : Move :=
  ⟨(Path.rebase? holder source target).getD holder, old, new⟩

/-- The edit of one reference, as far as it is for a file. -/
def inboundIn (m : String → Move) (r : Reference) (file : String) : List Edit :=
  if file = (m r.source).host then (Edit.inbound? r (m r.source)).toList else []

/-- Whether something is there, asked by path. -/
def hasPath (k : Keeper) (path : String) : Bool := k.tree.isThere (k.locate path)

/-- The edit of one relative link in a moved file, as far as it is for a file. -/
def outboundIn (k : Keeper) (source target : String) (r : Reference) (file : String) : List Edit :=
  if file = target then (Edit.outbound? k.hasPath r source target).toList else []

theorem adds_planInbound (m : String → Move) : EditPlan.Adds (planInbound m) (inboundIn m) where
  edits_eq plan r file := by
    unfold planInbound inboundIn
    exact EditPlan.edits_add plan (m r.source).host (Edit.inbound? r (m r.source)) file
  full plan r h := by
    unfold planInbound
    exact h.add (m r.source).host (Edit.inbound? r (m r.source))

theorem adds_planOutbound (k : Keeper) (source target : String) :
    EditPlan.Adds (k.planOutbound source target) (k.outboundIn source target) where
  edits_eq plan _ file := EditPlan.edits_add plan target _ file
  full _ _ h := h.add target _

theorem mem_inboundIn {m : String → Move} {r : Reference} {file : String} {e : Edit} :
    e ∈ inboundIn m r file ↔
      file = (m r.source).host ∧ Edit.inbound? r (m r.source) = some e := by
  unfold inboundIn
  split
  · rename_i h
    simp [h]
  · rename_i h
    simp [h]

theorem mem_outboundIn {source target : String} {r : Reference} {file : String} {e : Edit} :
    e ∈ k.outboundIn source target r file ↔
      file = target ∧ Edit.outbound? k.hasPath r source target = some e := by
  unfold outboundIn
  split
  · rename_i h
    simp [h]
  · rename_i h
    simp [h]

/-- **The edits for a moved file.** First the links to it, then the relative links in it. -/
theorem edits_planFileMove (k : Keeper) (source target file : String) :
    (k.planFileMove source target).edits file =
      ((k.candidates source).flatMap fun r => inboundIn (fileMove source target) r file) ++
      (if k.project.monitors target && k.project.settings.updatesMovedFiles then
        (k.index.recordsFrom source).flatMap fun r => k.outboundIn source target r file
      else []) := by
  have hin := (adds_planInbound (fileMove source target)).foldl (k.candidates source) ∅ file
  rw [EditPlan.edits_empty, List.nil_append] at hin
  rw [planFileMove]
  split
  · rw [(adds_planOutbound k source target).foldl]
    exact congrArg (· ++ _) hin
  · rw [List.append_nil]
    exact hin

theorem full_planFileMove (k : Keeper) (source target : String) :
    (k.planFileMove source target).Full := by
  have hin := (adds_planInbound (fileMove source target)).foldl_full (k.candidates source)
    EditPlan.full_empty
  rw [planFileMove]
  split
  · exact (adds_planOutbound k source target).foldl_full _ hin
  · exact hin

/-! ## A directory that has moved -/

/-- The edits of the references to one path in a moved directory, as far as they are for a file. -/
def movedTargetIn (k : Keeper) (source target old file : String) : List Edit :=
  match Path.rebase? old source target with
  | none => []
  | some new =>
      (k.index.lookup old).flatMap fun r => inboundIn (subtreeMove source target old new) r file

/-- The edits of the links that lead out of one file of a moved directory, as far as they are for a file. -/
def movedSourceIn (k : Keeper) (source target moved file : String) : List Edit :=
  match Path.rebase? moved source target with
  | none => []
  | some new =>
      ((k.index.recordsFrom moved).filter fun r => !Path.isUnder source r.resolved).flatMap
        fun r => k.outboundIn moved new r file

theorem adds_planMovedTarget (k : Keeper) (source target : String) :
    EditPlan.Adds (k.planMovedTarget source target) (k.movedTargetIn source target) := by
  refine ⟨fun plan old file => ?_, fun plan old h => ?_⟩
  · unfold planMovedTarget movedTargetIn
    cases Path.rebase? old source target with
    | none => simp
    | some new => exact (adds_planInbound (subtreeMove source target old new)).foldl _ plan file
  · unfold planMovedTarget
    cases Path.rebase? old source target with
    | none => exact h
    | some new => exact (adds_planInbound (subtreeMove source target old new)).foldl_full _ h

theorem adds_planMovedSource (k : Keeper) (source target : String) :
    EditPlan.Adds (k.planMovedSource source target) (k.movedSourceIn source target) := by
  refine ⟨fun plan moved file => ?_, fun plan moved h => ?_⟩
  · unfold planMovedSource movedSourceIn
    cases Path.rebase? moved source target with
    | none => simp
    | some new => exact (adds_planOutbound k moved new).foldl _ plan file
  · unfold planMovedSource
    cases Path.rebase? moved source target with
    | none => exact h
    | some new => exact (adds_planOutbound k moved new).foldl_full _ h

/-- **The edits for a moved directory.** First the links to what was in it, then the links that lead out of it. -/
theorem edits_planDirectoryMove (k : Keeper) (source target file : String) :
    (k.planDirectoryMove source target).edits file =
      ((k.index.targetsUnder source).flatMap fun old => k.movedTargetIn source target old file) ++
      (if k.project.settings.updatesMovedFiles then
        (k.index.sourcesUnder source).flatMap fun moved => k.movedSourceIn source target moved file
      else []) := by
  have hin := (adds_planMovedTarget k source target).foldl (k.index.targetsUnder source) ∅ file
  rw [EditPlan.edits_empty, List.nil_append] at hin
  rw [planDirectoryMove]
  split
  · rw [(adds_planMovedSource k source target).foldl]
    exact congrArg (· ++ _) hin
  · rw [List.append_nil]
    exact hin

theorem full_planDirectoryMove (k : Keeper) (source target : String) :
    (k.planDirectoryMove source target).Full := by
  have hin := (adds_planMovedTarget k source target).foldl_full (k.index.targetsUnder source)
    EditPlan.full_empty
  rw [planDirectoryMove]
  split
  · exact (adds_planMovedSource k source target).foldl_full _ hin
  · exact hin

/-! ## What an edit of a plan is about -/

/-- An edit for a moved file comes from a link to it, or from a relative link in it. -/
theorem mem_edits_planFileMove {source target file : String} {e : Edit} :
    e ∈ (k.planFileMove source target).edits file ↔
      (∃ r ∈ k.candidates source, file = (fileMove source target r.source).host ∧
        Edit.inbound? r (fileMove source target r.source) = some e) ∨
      ((k.project.monitors target && k.project.settings.updatesMovedFiles) = true ∧
        file = target ∧ ∃ r ∈ k.index.recordsFrom source,
          Edit.outbound? k.hasPath r source target = some e) := by
  rw [edits_planFileMove, List.mem_append, List.mem_flatMap]
  refine or_congr (exists_congr fun r => and_congr_right fun _ => mem_inboundIn) ?_
  split
  · rename_i h
    rw [List.mem_flatMap]
    constructor
    · rintro ⟨r, hr, he⟩
      obtain ⟨hfile, he⟩ := mem_outboundIn.mp he
      exact ⟨h, hfile, r, hr, he⟩
    · rintro ⟨_, hfile, r, hr, he⟩
      exact ⟨r, hr, mem_outboundIn.mpr ⟨hfile, he⟩⟩
  · rename_i h
    simp [h]

/-- An edit for a moved directory comes from a link to something in it, or from one that leads out of it. -/
theorem mem_edits_planDirectoryMove {source target file : String} {e : Edit} :
    e ∈ (k.planDirectoryMove source target).edits file ↔
      (∃ old ∈ k.index.targetsUnder source, ∃ new, Path.rebase? old source target = some new ∧
        ∃ r ∈ k.index.lookup old, file = (subtreeMove source target old new r.source).host ∧
          Edit.inbound? r (subtreeMove source target old new r.source) = some e) ∨
      (k.project.settings.updatesMovedFiles = true ∧ ∃ moved ∈ k.index.sourcesUnder source,
        Path.rebase? moved source target = some file ∧ ∃ r ∈ k.index.recordsFrom moved,
          Path.isUnder source r.resolved = false ∧
            Edit.outbound? k.hasPath r moved file = some e) := by
  have htarget : ∀ old, e ∈ k.movedTargetIn source target old file ↔
      ∃ new, Path.rebase? old source target = some new ∧ ∃ r ∈ k.index.lookup old,
        file = (subtreeMove source target old new r.source).host ∧
          Edit.inbound? r (subtreeMove source target old new r.source) = some e := by
    intro old
    unfold movedTargetIn
    cases Path.rebase? old source target with
    | none => simp
    | some new => simp [List.mem_flatMap, mem_inboundIn]
  have hsource : ∀ moved, e ∈ k.movedSourceIn source target moved file ↔
      Path.rebase? moved source target = some file ∧ ∃ r ∈ k.index.recordsFrom moved,
        Path.isUnder source r.resolved = false ∧
          Edit.outbound? k.hasPath r moved file = some e := by
    intro moved
    unfold movedSourceIn
    cases Path.rebase? moved source target with
    | none => simp
    | some new =>
        dsimp only
        rw [List.mem_flatMap, Option.some.injEq]
        constructor
        · rintro ⟨r, hr, he⟩
          obtain ⟨rfl, he⟩ := mem_outboundIn.mp he
          obtain ⟨hr, hout⟩ := List.mem_filter.mp hr
          exact ⟨rfl, r, hr, by simpa using hout, he⟩
        · rintro ⟨rfl, r, hr, hout, he⟩
          exact ⟨r, List.mem_filter.mpr ⟨hr, by simpa using hout⟩, mem_outboundIn.mpr ⟨rfl, he⟩⟩
  rw [edits_planDirectoryMove, List.mem_append, List.mem_flatMap]
  refine or_congr (exists_congr fun old => and_congr_right fun _ => htarget old) ?_
  split
  · rename_i h
    rw [List.mem_flatMap]
    simp [h, hsource]
  · rename_i h
    simp [h]

end Keeper

end LinkKeeper
