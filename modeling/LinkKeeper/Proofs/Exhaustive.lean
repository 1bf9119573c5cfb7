import LinkKeeper.Proofs.Ledger
import LinkKeeper.Proofs.Readings
import Mathlib.Data.Multiset.Bind

/-!
# A plan leaves nothing out

Before a link is edited it has to be found. A lookup goes by the key of a record, by a bare
name, or by the last segment of the key, and only then asks where the link leads; an edit is
made by asking that alone. So a plan could miss links that an edit would repair. It does
not: every plan is the one that is got by trying an edit on every record of the index.

One kind of link is looked up by its key only: one whose normal form ends in `..`, which
does nothing but climb. From its own directory it leads to a directory above its file, whose
last segment the key does not have. No file lies there, and where a directory has moved, the
file of the link has moved with it.
-/

namespace LinkKeeper

open Path (normalize baseName segments resolve parent)

namespace Path

/-! ## Last segments -/

/-- What is left of a tidy list without its first segment is tidy. -/
theorem Tidy.tail {s : List Char} {ss : List (List Char)} (h : Tidy (s :: ss)) : Tidy ss := by
  obtain ⟨⟨ups, names, he, hn⟩, hp⟩ := h
  refine ⟨?_, fun t ht => hp t (List.mem_cons_of_mem _ ht)⟩
  cases ups with
  | zero =>
      rw [List.replicate_zero, List.nil_append] at he
      exact .of_names fun t ht => hn t (he ▸ List.mem_cons_of_mem _ ht)
  | succ ups =>
      rw [List.replicate_succ, List.cons_append, List.cons.injEq] at he
      exact ⟨ups, names, he.2, hn⟩

/-- The last segment of a tidy list is tidy by itself. -/
theorem Tidy.last {front : List (List Char)} {last : List Char} (h : Tidy (front ++ [last])) :
    Tidy [last] := by
  induction front with
  | nil => exact h
  | cons s front ih => exact ih h.tail

/-- A path in normal form is the root, or a directory and a name in it. -/
theorem normal_cases {path : String} (h : normalize path = path) :
    path = "" ∨ ∃ front last, Tidy (front ++ [last]) ∧ path = join (front ++ [last]) ∧
      parent path = join front ∧ baseName path = String.ofList last := by
  rcases List.eq_nil_or_concat (segments path) with he | ⟨front, last, he⟩
  · left
    rw [← h, normalize, he, join_nil]
  · right
    rw [List.concat_eq_append] at he
    have htidy : Tidy (front ++ [last]) := he ▸ tidy_segments path
    have hlast : ∀ c ∈ last, isSeparator c = false := htidy.plain last (by simp)
    have hpath : path = join (front ++ [last]) := by rw [← he, join_segments h]
    refine ⟨front, last, htidy, hpath, ?_, ?_⟩
    · rw [hpath, parent_join hlast]
    · rw [hpath, baseName_join hlast]

theorem ofList_eq_join (s : List Char) : String.ofList s = join [s] := by
  rw [join, Text.intercalate_singleton]

/-- A name in the directory of a path reads as that path. -/
theorem resolve_parent_name {path : String} (h : normalize path = path) :
    resolve (parent path) (baseName path) = path := by
  rcases normal_cases h with rfl | ⟨front, last, htidy, hpath, hparent, hname⟩
  · decide
  · rw [resolve_eq_iff h, hparent, hname, ofList_eq_join, isRootAbsolute_join htidy.last,
      if_neg (by simp), segments_join htidy.left, segments_join htidy.last, htidy.collapse_eq,
      hpath, segments_join htidy]

/-- The last segment of a path in normal form reads as itself. -/
theorem normalize_baseName {path : String} (h : normalize path = path) :
    normalize (baseName path) = baseName path := by
  rcases normal_cases h with rfl | ⟨front, last, htidy, -, -, hname⟩
  · decide
  · rw [hname, ofList_eq_join, normalize_join htidy.last]

theorem baseName_baseName (path : String) : baseName (baseName path) = baseName path := by
  have hnone : ∀ name : List Char, '/' ∉ name →
      baseName (String.ofList name) = String.ofList name := by
    intro name hn
    rw [baseName, String.toList_ofList, Text.splitLast?_eq_none.mpr hn]
  rw [baseName.eq_def path]
  split
  · rename_i hsplit
    exact hnone _ (Text.not_mem_of_splitLast? hsplit)
  · rename_i hsplit
    rw [baseName, hsplit]

/-- A path whose last segment is a step up does nothing but climb. -/
theorem escapes_of_baseName {path : String} (h : normalize path = path)
    (hb : baseName path = "..") : escapes path = true := by
  rcases normal_cases h with rfl | ⟨front, last, htidy, hpath, -, hname⟩
  · exact absurd hb (by decide)
  · have hlast : last = above := String.ofList_injective (hname.symm.trans hb)
    obtain ⟨ups, names, he, hn⟩ := htidy.collapsed
    rw [hpath, escapes_join htidy, he]
    -- were there a name among the segments, the last one would be a name
    have hnil : names = [] := by
      rcases List.eq_nil_or_concat names with hnil | ⟨more, name, rfl⟩
      · exact hnil
      · rw [List.concat_eq_append, ← List.append_assoc] at he
        have hsame : last = name := by simpa using (List.append_inj_right' he rfl)
        exact absurd (hsame ▸ hlast) (hn name (by simp)).2.2
    rw [hnil, List.append_nil] at he ⊢
    cases ups with
    | zero => exact absurd he (by simp)
    | succ ups => rfl

end Path

namespace Reference

/-- Whether the normal form of a link ends in `..`. -/
def climbs (r : Reference) : Bool := baseName r.rooted == ".."

/-- A reference that is filed and climbs has only one reading inside the tree. -/
theorem baseName_ne_above {r : Reference} (hin : r.isInside = true) (hc : r.climbs = true) :
    baseName r.resolved ≠ ".." := by
  intro hb
  have hrooted : Path.escapes r.rooted = true :=
    Path.escapes_of_baseName (Path.normalize_normalize _) (beq_iff_eq.mp hc)
  have hresolved : Path.escapes r.resolved = true :=
    Path.escapes_of_baseName (Path.normalize_resolve _ _) hb
  rw [isInside, hrooted, hresolved] at hin
  simp at hin

/-- Both readings of any other reference have one last segment. -/
theorem baseName_resolved {r : Reference} (hin : r.isInside = true) (hc : r.climbs = false) :
    baseName r.rooted = baseName r.resolved := by
  cases ha : Path.isRootAbsolute r.targetPath with
  | true =>
      have hsame : r.resolved = r.rooted := by
        rw [resolved, Path.resolve, ha]
        rfl
      rw [hsame]
  | false =>
      refine (Path.baseName_resolve ha).resolve_right ?_
      intro hups
      obtain ⟨n, hn⟩ := hups
      have hrooted : r.rooted = Path.join (List.replicate n Path.above) := by
        rw [rooted, Path.normalize, hn]
      cases n with
      | zero =>
          rw [isInside, hrooted] at hin
          simp at hin
      | succ n =>
          have habove : ∀ c ∈ Path.above, Path.isSeparator c = false := by
            simp [Path.above, Path.isSeparator]
          rw [climbs, hrooted, List.replicate_succ', Path.baseName_join habove] at hc
          exact absurd hc (by decide)

end Reference

namespace Edit

/-- Whether a reference means a path by what it says: read from the root, or as a name beside its file. -/
def spells (r : Reference) (path : String) : Bool :=
  r.rooted == path
    || (isBare r.targetPath && r.targetPath == baseName path && parent path == parent r.source)

theorem means_eq (r : Reference) (path : String) :
    means r path = (spells r path || r.resolved == path) := rfl

/-- A path in normal form is meant by a reference if it is one of its readings. -/
theorem means_iff_of_normal {r : Reference} {path : String} (h : normalize path = path) :
    means r path = true ↔ path = r.rooted ∨ path = r.resolved := by
  rw [means_eq, spells, Bool.or_eq_true, Bool.or_eq_true, Bool.and_eq_true, Bool.and_eq_true,
    beq_iff_eq, beq_iff_eq, beq_iff_eq, beq_iff_eq]
  constructor
  · intro hm
    rcases hm with (hr | ⟨⟨_, hb⟩, hd⟩) | hr
    · exact .inl hr.symm
    · right
      rw [Reference.resolved, hb, ← hd, Path.resolve_parent_name h]
    · exact .inr hr.symm
  · intro hm
    rcases hm with hr | hr
    · exact .inl (.inl hr.symm)
    · exact .inr hr.symm

end Edit

namespace Ledger

theorem inside_foldl_insert {l : Ledger} {references : List Reference}
    (h : ∀ e ∈ l.lines, e.reference.isInside = true) (hr : ∀ r ∈ references, r.isInside = true) :
    ∀ e ∈ (references.foldl insert l).lines, e.reference.isInside = true := by
  induction references generalizing l with
  | nil => exact h
  | cons r rest ih =>
      rw [List.foldl_cons]
      refine ih (l := l.insert r) (fun e he => ?_) fun q hq => hr q (List.mem_cons_of_mem _ hq)
      rcases List.mem_append.mp he with he | he
      · exact h e he
      · rw [List.mem_singleton.mp he]
        exact hr r List.mem_cons_self

/-- No operation files a reference that leads out of the tree. -/
theorem inside_perform {l : Ledger} (h : ∀ e ∈ l.lines, e.reference.isInside = true)
    (op : IndexOperation) : ∀ e ∈ (l.perform op).lines, e.reference.isInside = true := by
  have hremoved : ∀ source, ∀ e ∈ (l.removeSource source).lines, e.reference.isInside = true :=
    fun source e he => h e (List.mem_filter.mp he).1
  cases op with
  | replaceSource source references =>
      exact inside_foldl_insert (hremoved source) fun r hr => (List.mem_filter.mp hr).2
  | removeSource source => exact hremoved source
  | rekey old new =>
      -- the key is not part of the reference
      intro e he
      rw [perform, rekey] at he
      split at he
      · exact h e he
      · rcases List.mem_append.mp he with he | he
        · exact h e (List.mem_filter.mp he).1
        · obtain ⟨before, hb, rfl⟩ := List.mem_map.mp he
          exact h before (List.mem_filter.mp hb).1

end Ledger

namespace Index

variable {ix : Index}

/-- An index that operations have led to. -/
def Reachable (ix : Index) : Prop :=
  ∃ operations : List IndexOperation, ix = operations.foldl perform .empty

/-- No two records stand at one place. -/
def DistinctPlaces (ix : Index) : Prop :=
  ∀ (a b : Nat) (r s : Record), ix.records[a]? = some r → ix.records[b]? = some s →
    r.reference.place = s.reference.place → a = b

theorem Reachable.valid (h : ix.Reachable) : ix.Valid := by
  obtain ⟨operations, rfl⟩ := h
  exact (Denotes.empty.run valid_empty operations).1

/-- Whatever is filed may mean something inside the tree. -/
theorem Reachable.inside (h : ix.Reachable) {r : Reference} (hr : ix.Has r) :
    r.isInside = true := by
  obtain ⟨operations, rfl⟩ := h
  have hlines : ∀ (operations : List IndexOperation) (l : Ledger),
      (∀ e ∈ l.lines, e.reference.isInside = true) →
      ∀ e ∈ (operations.foldl Ledger.perform l).lines, e.reference.isInside = true := by
    intro operations
    induction operations with
    | nil => exact fun l hl => hl
    | cons op rest ih => exact fun l hl => ih _ (Ledger.inside_perform hl op)
  obtain ⟨id, record, hid, rfl⟩ := hr
  have hmem := ((Denotes.empty.run valid_empty operations).2.records id record).mp hid
  exact hlines operations .empty (by simp [Ledger.empty]) ⟨record, id⟩ hmem

/-! ## What a lookup finds -/

/-- What is looked up by its key is found. -/
theorem Valid.mem_lookup_of_rooted (h : ix.Valid) (hs : ix.Settled) {r : Reference}
    (hr : ix.Has r) {target : String} (ht : r.rooted = normalize target) :
    r ∈ ix.lookup target := by
  obtain ⟨id, record, hid, rfl⟩ := hr
  refine mem_references.mpr ⟨id, (mem_matching h).mpr ⟨record, hid, .inl ?_⟩, record, hid, rfl⟩
  rw [hs.key hid, ht]

/-- What is looked up by where it leads is found, unless it does nothing but climb. -/
theorem Valid.mem_lookup_of_resolved (h : ix.Valid) (hs : ix.Settled) {r : Reference}
    (hr : ix.Has r) (hin : r.isInside = true) (hc : r.climbs = false) :
    r ∈ ix.lookup r.resolved := by
  by_cases hkey : r.rooted = r.resolved
  · refine h.mem_lookup_of_rooted hs hr ?_
    rw [hkey]
    exact (Path.normalize_resolve _ _).symm
  · refine (mem_lookup h hs (Path.normalize_resolve _ _)).mpr ⟨hr, .inr (.inr ⟨hkey, ?_, rfl⟩)⟩
    exact Reference.baseName_resolved hin hc

/-- A reference that does nothing but climb is found under a step up only. -/
theorem Valid.baseName_of_mem_lookup (h : ix.Valid) (hs : ix.Settled) {r : Reference}
    {target : String} (hr : r ∈ ix.lookup target) (hc : r.climbs = true) :
    baseName (normalize target) = ".." := by
  obtain ⟨id, hid, record, hrecord, rfl⟩ := mem_references.mp hr
  obtain ⟨other, ho, hfound⟩ := (mem_matching h).mp hid
  rw [hrecord] at ho
  obtain rfl := Option.some.inj ho
  rw [hs.key hrecord] at hfound
  have hbase : baseName record.reference.rooted = ".." := beq_iff_eq.mp hc
  rcases hfound with hkey | ⟨_, hkey, _⟩ | ⟨_, hkey, _⟩
  · rw [← hkey, hbase]
  · rw [hkey, Path.baseName_baseName] at hbase
    exact hbase
  · rw [← hkey, hbase]

/-- What is looked up under the last segment of where it leads does not do that. -/
theorem Valid.climbs_of_mem_lookup (h : ix.Valid) (hs : ix.Settled) {r : Reference}
    (hin : r.isInside = true) {target : String} (hr : r ∈ ix.lookup target)
    (hbase : baseName (normalize target) = baseName r.resolved) : r.climbs = false := by
  by_contra hc
  rw [Bool.not_eq_false] at hc
  have hup := h.baseName_of_mem_lookup hs hr hc
  rw [hbase] at hup
  -- then both readings would lead out of the tree
  exact Reference.baseName_ne_above hin hc hup

/-! ## Each record once -/

theorem DistinctPlaces.eq_of_place (hd : ix.DistinctPlaces) {r s : Reference} (hr : ix.Has r)
    (hs : ix.Has s) (h : r.place = s.place) : r = s := by
  obtain ⟨a, record, ha, rfl⟩ := hr
  obtain ⟨b, other, hb, rfl⟩ := hs
  obtain rfl := hd a b record other ha hb h
  rw [ha] at hb
  rw [Option.some.inj hb]

/-- Nothing is listed twice of what a set holds. -/
theorem nodup_toList {α : Type} [Ord α] [Std.TransOrd α] [Std.LawfulEqOrd α]
    (names : Std.TreeSet α) : names.toList.Nodup :=
  Std.TreeSet.distinct_toList.imp fun hne he => hne (Std.compare_eq_iff_eq.mpr he)

theorem DistinctPlaces.nodup_references (hd : ix.DistinctPlaces) {ids : List Nat}
    (hids : ids.Nodup) : (ix.references ids).Nodup := by
  refine hids.filterMap fun a b r ha hb => ?_
  obtain ⟨record, hrecord, rfl⟩ := Option.map_eq_some_iff.mp ha
  obtain ⟨other, hother, he⟩ := Option.map_eq_some_iff.mp hb
  exact hd a b record other hrecord hother (by rw [he])

theorem DistinctPlaces.nodup_lookup (hd : ix.DistinctPlaces) (target : String) :
    (ix.lookup target).Nodup :=
  hd.nodup_references (nodup_toList _)

/-- The numbers in all buckets together. -/
theorem snapshot_flatMap (ix : Index) :
    ix.snapshot.flatMap (·.2) = ix.references (ix.byTarget.keys.flatMap ix.byTarget.numbers) := by
  rw [snapshot, Buckets.toList_eq_map, List.map_map, List.flatMap_map]
  induction ix.byTarget.keys with
  | nil => rfl
  | cons key keys ih =>
      rw [List.flatMap_cons, List.flatMap_cons, references_append, ih]
      rfl

theorem Valid.nodup_numbers (h : ix.Valid) :
    (ix.byTarget.keys.flatMap ix.byTarget.numbers).Nodup := by
  refine List.nodup_flatMap.mpr ⟨fun key _ => h.targets.nodup key, ?_⟩
  -- a record is filed under its key, and so it is in no other bucket
  refine Std.TreeMap.nodup_keys.imp fun {a b} hne => ?_
  intro id ha hb
  rw [h.targets.mem_numbers] at ha hb
  exact hne (Option.some.inj (ha.symm.trans hb))

/-- Every reference is among all of them. -/
theorem Valid.mem_all (h : ix.Valid) {r : Reference} : r ∈ ix.all ↔ ix.Has r := by
  rw [all, (List.mergeSort_perm _ _).mem_iff, snapshot_flatMap, mem_references]
  constructor
  · intro hr
    obtain ⟨id, _, record, hid, he⟩ := hr
    exact ⟨id, record, hid, he⟩
  · intro hr
    obtain ⟨id, record, hid, he⟩ := hr
    have hnum : id ∈ ix.byTarget.numbers record.key :=
      (h.targets.mem_iff _ _).mpr ⟨record, hid, rfl⟩
    refine ⟨id, List.mem_flatMap.mpr ⟨record.key, ?_, hnum⟩, record, hid, he⟩
    exact h.targets.mem_keys.mpr ⟨id, hnum⟩

theorem DistinctPlaces.nodup_all (hd : ix.DistinctPlaces) (h : ix.Valid) : ix.all.Nodup := by
  rw [all, (List.mergeSort_perm _ _).nodup_iff, snapshot_flatMap]
  exact hd.nodup_references h.nodup_numbers

end Index

/-! ## Going through lists -/

section

variable {α β γ : Type}

/-- What nothing is gathered from may be left out. -/
theorem perm_flatMap_of_mem {l m : List α} {f : α → List β} (hl : l.Nodup) (hm : m.Nodup)
    (h : ∀ a, f a ≠ [] → (a ∈ l ↔ a ∈ m)) : (l.flatMap f).Perm (m.flatMap f) := by
  have hdrop : ∀ l : List α, l.flatMap f = (l.filter fun a => !(f a).isEmpty).flatMap f := by
    intro l
    induction l with
    | nil => rfl
    | cons a l ih =>
        rw [List.flatMap_cons, List.filter_cons]
        split
        · rw [List.flatMap_cons, ih]
        · rename_i ha
          have hnil : f a = [] := by simpa using ha
          rw [hnil, List.nil_append, ih]
  rw [hdrop l, hdrop m]
  refine List.Perm.flatMap_right f ((List.perm_ext_iff_of_nodup (hl.filter _) (hm.filter _)).mpr ?_)
  intro a
  rw [List.mem_filter, List.mem_filter]
  refine and_congr_left fun ha => h a ?_
  simpa using ha

/-- Two lists may be gone through in either order. -/
theorem perm_flatMap_swap (l : List α) (m : List β) (f : α → β → List γ) :
    (l.flatMap fun a => m.flatMap fun b => f a b).Perm
      (m.flatMap fun b => l.flatMap fun a => f a b) := by
  -- as bags, the lists are gone through by `bind`
  have h := Multiset.bind_bind (l : Multiset α) (m : Multiset β)
    (f := fun a b => (f a b : Multiset γ))
  simp only [Multiset.coe_bind] at h
  exact Multiset.coe_eq_coe.mp h

end

namespace Keeper

open Edit (spells means)

variable {k : Keeper} {source target : String}

/-! ## A file that has moved -/

theorem nodup_firstAtPlaces (references : List Reference) : (firstAtPlaces references).Nodup := by
  induction references with
  | nil => exact List.nodup_nil
  | cons r rest ih =>
      rw [firstAtPlaces]
      refine List.nodup_cons.mpr ⟨fun hr => ?_, ih.filter _⟩
      simpa using (List.mem_filter.mp hr).2

/-- Every spelling of a path has the last segment of the path. -/
theorem baseName_of_mem_spellings {path spelling : String} (h : normalize path = path)
    (hs : spelling ∈ spellings path) : baseName (normalize spelling) = baseName path := by
  have hbase : baseName (normalize (baseName path)) = baseName path := by
    rw [Path.normalize_baseName h, Path.baseName_baseName]
  rw [spellings, List.cons_append, List.mem_cons, List.mem_append, List.mem_singleton] at hs
  rcases hs with rfl | hstripped | rfl
  · rw [h]
  · -- without its first segment, a path that has others ends as before
    rcases Path.normal_cases h with rfl | ⟨front, last, htidy, hpath, -, hname⟩
    · exact absurd hstripped (by simp [Text.splitFirst?])
    · cases front with
      | nil =>
          have hslash : '/' ∉ path.toList := by
            rw [hpath, List.nil_append, Path.toList_join, Text.intercalate_singleton]
            exact Path.slash_not_mem (htidy.plain last (by simp))
          rw [Text.splitFirst?_eq_none.mpr hslash] at hstripped
          exact absurd hstripped (by simp)
      | cons s front =>
          have hlist : path.toList = s ++ '/' :: (Path.join (front ++ [last])).toList := by
            rw [hpath, List.cons_append, Path.toList_join, Path.toList_join,
              Text.intercalate_cons (by simp)]
          have hs : '/' ∉ s := Path.slash_not_mem (htidy.plain s (by simp))
          rw [hlist, Text.splitFirst?_append_cons hs, List.mem_singleton, String.ofList_toList]
            at hstripped
          have htail : Path.Tidy (front ++ [last]) := htidy.tail
          rw [hstripped, Path.normalize_join htail, hname]
          exact Path.baseName_join (htidy.plain last (by simp))
  · exact hbase

/-- Whether a reference is found if it leads to a file that has moved. -/
def isFound (source : String) (r : Reference) : Bool := spells r source || !r.climbs

/-- **The lookups for a moved file miss nothing and add nothing.** -/
theorem mem_candidates_iff (hv : k.index.Valid) (hs : k.index.Settled) (hd : k.index.DistinctPlaces)
    {r : Reference} (hin : k.index.Has r → r.isInside = true) (hm : means r source = true) :
    r ∈ k.candidates source ↔ k.index.Has r ∧ isFound source r = true := by
  by_cases hr : k.index.Has r
  · rw [mem_candidates fun s hs he => hd.eq_of_place hs hr he, isFound, Bool.or_eq_true,
      Bool.not_eq_true', and_iff_right hr]
    constructor
    · intro hfound
      obtain ⟨spelling, hspelling, hlookup⟩ := hfound
      by_cases hsp : spells r source = true
      · exact .inl hsp
      · right
        rw [Edit.means_eq, Bool.or_eq_true, beq_iff_eq] at hm
        have hres : r.resolved = source := hm.resolve_left hsp
        have hnormal : normalize source = source := by
          rw [← hres]
          exact Path.normalize_resolve _ _
        refine hv.climbs_of_mem_lookup hs (hin hr) hlookup ?_
        rw [baseName_of_mem_spellings hnormal hspelling, hres]
    · intro hfound
      by_cases hsp : spells r source = true
      · rw [spells, Bool.or_eq_true, Bool.and_eq_true, Bool.and_eq_true, beq_iff_eq, beq_iff_eq,
          beq_iff_eq] at hsp
        rcases hsp with hkey | ⟨⟨_, hname⟩, _⟩
        · refine ⟨source, by simp [spellings], hv.mem_lookup_of_rooted hs hr ?_⟩
          rw [← hkey]
          exact (Path.normalize_normalize _).symm
        · refine ⟨baseName source, by simp [spellings], hv.mem_lookup_of_rooted hs hr ?_⟩
          rw [Reference.rooted, hname]
      · rw [Edit.means_eq, Bool.or_eq_true, beq_iff_eq] at hm
        have hres : r.resolved = source := hm.resolve_left hsp
        refine ⟨source, by simp [spellings], ?_⟩
        rw [← hres]
        exact hv.mem_lookup_of_resolved hs hr (hin hr) (hfound.resolve_left hsp)
  · exact iff_of_false (fun hc => hr (has_of_mem_candidates hc)) fun h => hr h.1

theorem means_of_inboundIn (m : String → Move) {r : Reference} {file : String}
    (h : inboundIn m r file ≠ []) : means r (m r.source).source = true := by
  obtain ⟨e, he⟩ := List.exists_mem_of_ne_nil _ h
  by_contra hm
  rw [mem_inboundIn, Edit.inbound?_of_not_means (by simpa using hm)] at he
  exact absurd he.2 (by simp)

/-- The edits of the links to a moved file are those that trying every record gives. -/
theorem perm_candidates (hix : k.index.Reachable) (hs : k.index.Settled)
    (hd : k.index.DistinctPlaces) (source target file : String) :
    ((k.candidates source).flatMap fun r => inboundIn (fileMove source target) r file).Perm
      ((k.index.all.filter (isFound source)).flatMap
        fun r => inboundIn (fileMove source target) r file) := by
  refine perm_flatMap_of_mem (nodup_firstAtPlaces _) ((hd.nodup_all hix.valid).filter _)
    fun r hr => ?_
  have hm : means r source = true := means_of_inboundIn (fileMove source target) hr
  rw [mem_candidates_iff hix.valid hs hd hix.inside hm, List.mem_filter, hix.valid.mem_all]

/-! ## A directory that has moved -/

/-- The edit of a reference to a path in a moved directory, as far as it is for a file. -/
def movedIn (source target : String) (r : Reference) (old file : String) : List Edit :=
  match Path.rebase? old source target with
  | none => []
  | some new => inboundIn (subtreeMove source target old new) r file

theorem movedTargetIn_eq (k : Keeper) (source target old file : String) :
    k.movedTargetIn source target old file =
      (k.index.lookup old).flatMap fun r => movedIn source target r old file := by
  unfold movedTargetIn movedIn
  cases Path.rebase? old source target with
  | none => simp
  | some new => rfl

theorem means_of_movedIn {r : Reference} {old file : String}
    (h : movedIn source target r old file ≠ []) : means r old = true := by
  rw [movedIn] at h
  split at h
  · exact absurd rfl h
  · rename_i new _
    exact means_of_inboundIn (subtreeMove source target old new) h

end Keeper

/-- The paths under which a reference is found: its readings, and of one that does nothing but climb its key. -/
def Reference.readings (r : Reference) : List String :=
  if r.climbs || r.resolved == r.rooted then [r.rooted] else [r.rooted, r.resolved]

theorem Reference.nodup_readings (r : Reference) : r.readings.Nodup := by
  rw [readings]
  split
  · exact List.nodup_singleton _
  · rename_i h
    rw [Bool.or_eq_true, not_or, beq_iff_eq] at h
    simpa using Ne.symm h.2

theorem Reference.mem_readings {r : Reference} {path : String} :
    path ∈ r.readings ↔ path = r.rooted ∨ (path = r.resolved ∧ r.climbs = false) := by
  rw [readings]
  cases r.climbs with
  | true => simp
  | false =>
      by_cases h : r.resolved = r.rooted
      · simp [h]
      · simp [h]

theorem Reference.means_of_mem_readings {r : Reference} {path : String} (h : path ∈ r.readings) :
    Edit.means r path = true := by
  rw [mem_readings] at h
  rw [Edit.means_eq, Edit.spells]
  rcases h with rfl | ⟨rfl, _⟩
  · simp
  · simp

namespace Keeper

open Edit (spells means)

variable {k : Keeper} {source target : String}

/-- Under its readings a reference is looked up when a directory has moved, and under nothing else that it means. -/
theorem mem_targetsUnder_iff (hv : k.index.Valid) (hs : k.index.Settled) {r : Reference}
    (hr : k.index.Has r) (hin : r.isInside = true) {old : String} (hm : means r old = true) :
    (old ∈ k.index.targetsUnder source ∧ r ∈ k.index.lookup old) ↔
      old ∈ r.readings.filter (Path.isUnder source) := by
  obtain ⟨id, record, hid, rfl⟩ := hr
  have hr : k.index.Has record.reference := ⟨id, record, hid, rfl⟩
  rw [Index.mem_targetsUnder, List.mem_filter, Reference.mem_readings]
  constructor
  · intro h
    obtain ⟨⟨hunder, other, record', hother, hpath⟩, hlookup⟩ := h
    refine ⟨?_, hunder⟩
    -- whatever is looked up is a reading of some record, if not of this one
    have hnormal : normalize old = old := by
      rcases hpath with rfl | rfl
      · rw [hs.key hother]
        exact Path.normalize_normalize _
      · exact Path.normalize_resolve _ _
    rcases (Edit.means_iff_of_normal hnormal).mp hm with hkey | hres
    · exact .inl hkey
    · refine .inr ⟨hres, hv.climbs_of_mem_lookup hs hin hlookup ?_⟩
      rw [hnormal, hres]
  · intro h
    obtain ⟨hreading, hunder⟩ := h
    rcases hreading with hkey | ⟨hres, hc⟩
    · refine ⟨⟨hunder, id, record, hid, .inl ?_⟩, hv.mem_lookup_of_rooted hs hr ?_⟩
      · rw [hkey, hs.key hid]
      · rw [hkey]
        exact (Path.normalize_normalize _).symm
    · refine ⟨⟨hunder, id, record, hid, .inr hres⟩, ?_⟩
      rw [hres]
      exact hv.mem_lookup_of_resolved hs hr hin hc

/-- The edits of the links into a moved directory are those that trying every record under each of its readings gives. -/
theorem perm_targetsUnder (hix : k.index.Reachable) (hs : k.index.Settled)
    (hd : k.index.DistinctPlaces) (source target file : String) :
    ((k.index.targetsUnder source).flatMap fun old => k.movedTargetIn source target old file).Perm
      (k.index.all.flatMap fun r => (r.readings.filter (Path.isUnder source)).flatMap
        fun old => movedIn source target r old file) := by
  let found (old : String) (r : Reference) : List Edit :=
    if r ∈ k.index.lookup old then movedIn source target r old file else []
  -- every lookup is a pass through all records
  have hlookup : ∀ old ∈ k.index.targetsUnder source,
      (k.movedTargetIn source target old file).Perm (k.index.all.flatMap (found old)) := by
    intro old _
    have hfound : (k.index.lookup old).flatMap (found old) =
        (k.index.lookup old).flatMap fun r => movedIn source target r old file :=
      List.flatMap_congr fun r hr => if_pos hr
    rw [movedTargetIn_eq, ← hfound]
    refine perm_flatMap_of_mem (hd.nodup_lookup old) (hd.nodup_all hix.valid) fun r hr => ?_
    have hmem : r ∈ k.index.lookup old := by
      by_contra hno
      exact hr (if_neg hno)
    exact iff_of_true hmem (hix.valid.mem_all.mpr (Index.has_of_mem_lookup hmem))
  -- and each record is found under its readings
  have hrecord : ∀ r ∈ k.index.all,
      ((k.index.targetsUnder source).flatMap fun old => found old r).Perm
      ((r.readings.filter (Path.isUnder source)).flatMap
        fun old => movedIn source target r old file) := by
    intro r hr
    have hhas : k.index.Has r := hix.valid.mem_all.mp hr
    have hreading : ∀ old ∈ r.readings.filter (Path.isUnder source),
        found old r = movedIn source target r old file := by
      intro old hold
      have hm := Reference.means_of_mem_readings (List.mem_filter.mp hold).1
      exact if_pos ((mem_targetsUnder_iff hix.valid hs hhas (hix.inside hhas) hm).mpr hold).2
    rw [← List.flatMap_congr hreading]
    refine perm_flatMap_of_mem ?_ (r.nodup_readings.filter _) fun old hold => ?_
    · exact Index.nodup_toList _
    · have hmem : r ∈ k.index.lookup old := by
        by_contra hno
        exact hold (if_neg hno)
      have hmoved : movedIn source target r old file ≠ [] := fun he => hold ((if_pos hmem).trans he)
      rw [← mem_targetsUnder_iff hix.valid hs hhas (hix.inside hhas) (means_of_movedIn hmoved),
        and_iff_left hmem]
  exact (List.Perm.flatMap_left _ hlookup).trans
    ((perm_flatMap_swap _ _ _).trans (List.Perm.flatMap_left _ hrecord))

/--
**The plan is what trying every record gives.**

For a moved file, every record is tried as a link to the file. For a moved directory, every
record is tried under each of its readings that lies in the directory. Only the links that
do nothing but climb are not tried as what they lead to from their own directory. The edits
of relative links in what has moved follow in either plan.
-/
theorem plan_exhaustive (hix : k.index.Reachable) (hs : k.index.Settled)
    (hd : k.index.DistinctPlaces) (source target file : String) :
    ((k.planFileMove source target).edits file).Perm
      (((k.index.all.filter (isFound source)).flatMap
          fun r => inboundIn (fileMove source target) r file) ++
        (if k.project.monitors target && k.project.settings.updatesMovedFiles then
          (k.index.recordsFrom source).flatMap fun r => k.outboundIn source target r file
        else [])) ∧
    ((k.planDirectoryMove source target).edits file).Perm
      ((k.index.all.flatMap fun r => (r.readings.filter (Path.isUnder source)).flatMap
          fun old => movedIn source target r old file) ++
        (if k.project.settings.updatesMovedFiles then
          (k.index.sourcesUnder source).flatMap fun moved => k.movedSourceIn source target moved file
        else [])) := by
  constructor
  · rw [edits_planFileMove]
    exact (perm_candidates hix hs hd source target file).append_right _
  · rw [edits_planDirectoryMove]
    exact (perm_targetsUnder hix hs hd source target file).append_right _

/-! ## One record -/

/-- An index with one record. -/
def indexHolding (r : Reference) : Index := Index.empty.replaceSource r.source [r]

/-- A keeper of an empty tree with some index. -/
def keeperWith (ix : Index) : Keeper :=
  ⟨.make "/w" { Settings.defaults with pathExtensions := ["md"] }, ⟨∅⟩, ix, []⟩

theorem index_keeperWith (ix : Index) : (keeperWith ix).index = ix := rfl

theorem reachable_holding (r : Reference) : (indexHolding r).Reachable := by
  refine ⟨[.replaceSource r.source [r]], ?_⟩
  rw [List.foldl_cons, List.foldl_nil, Index.perform, indexHolding]

theorem settled_holding (r : Reference) : (indexHolding r).Settled := by
  have h : (indexHolding r).SettledBut fun other => False ∧ other ≠ r.source :=
    Index.valid_empty.settledBut_replaceSource Index.settled_empty r.source [r]
  exact h.mono fun _ hstale => hstale.1

theorem distinctPlaces_holding (r : Reference) : (indexHolding r).DistinctPlaces := by
  -- records are numbered from zero, and there is one at most
  have hzero : ∀ (id : Nat) (record : Record), (indexHolding r).records[id]? = some record →
      id = 0 := by
    intro id record hid
    have hlt := (reachable_holding r).valid.bound id record hid
    have hnext : (indexHolding r).next ≤ 1 := by
      rw [indexHolding, Index.replaceSource, List.filter_cons]
      split
      · exact Nat.le_refl 1
      · exact Nat.zero_le 1
    omega
  intro a b q s ha hb _
  rw [hzero a q ha, hzero b s hb]

/-- A link in `s` that reads as something in `s` from either directory. -/
def nestedLink : Reference := ⟨some "t", 10, 4, .markdownInline, 1, "s/h.md", "s/t.md"⟩

/-- Tried under both of its readings, the link is given one edit. -/
theorem plan_exhaustive_nestedLink :
    (keeperWith (indexHolding nestedLink)).index.Reachable ∧
    (keeperWith (indexHolding nestedLink)).index.Settled ∧
    (keeperWith (indexHolding nestedLink)).index.DistinctPlaces ∧
    nestedLink.readings.filter (Path.isUnder "s") = ["s/t.md", "s/s/t.md"] ∧
    ((keeperWith (indexHolding nestedLink)).planDirectoryMove "s" "n").edits "n/h.md" =
      [⟨10, 4, 1, "s/t.md", "n/t.md"⟩] := by
  have hreachable := reachable_holding nestedLink
  have hsettled := settled_holding nestedLink
  have hdistinct := distinctPlaces_holding nestedLink
  rw [← index_keeperWith (indexHolding nestedLink)] at hreachable hsettled hdistinct
  have hplan := (plan_exhaustive hreachable hsettled hdistinct "s" "n" "n/h.md").2
  refine ⟨hreachable, hsettled, hdistinct, by decide +kernel,
    List.perm_singleton.mp (hplan.trans (.of_eq ?_))⟩
  decide +kernel

/-- A link to the directory above that of its file. -/
def upLink : Reference := ⟨some "up", 7, 5, .markdownInline, 1, "x/y/a.md", ".."⟩

/--
A link that climbs to `x` is taken for one to `x` when an edit is made, and is not found when
`x` moves as a file.
-/
theorem plan_passes_over_upLink :
    (keeperWith (indexHolding upLink)).index.Reachable ∧
    (keeperWith (indexHolding upLink)).index.Settled ∧
    (keeperWith (indexHolding upLink)).index.DistinctPlaces ∧
    upLink ∈ (keeperWith (indexHolding upLink)).index.all ∧
    Edit.inbound? upLink (fileMove "x" "z" upLink.source) = some ⟨7, 5, 1, "..", "../../z"⟩ ∧
    ((keeperWith (indexHolding upLink)).planFileMove "x" "z").edits upLink.source = [] := by
  rw [index_keeperWith]
  exact ⟨reachable_holding upLink, settled_holding upLink, distinctPlaces_holding upLink,
    by decide +kernel, by decide +kernel, by decide +kernel⟩

end Keeper

end LinkKeeper
