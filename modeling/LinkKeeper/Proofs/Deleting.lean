import LinkKeeper.Proofs.Querying
import LinkKeeper.Proofs.Refreshing

/-!
# What a deletion leaves

A deletion strikes the records of the files that were in the place, and no others. Then it looks
up the place, and every path in it that a record left over may mean, and reports what it finds:
each of the remaining references that leads into the place, once.

Two kinds of references stand apart. A link that does nothing but climb is not found under where
it leads; but what it leads to is a directory above its own file, and with the directory the file
is gone. And a link from the root to a file of the root is reported when a file of the same name
goes that lies beside the file of the link: it is filed under the bare name, and a lookup takes
it for a link to the file beside it.
-/

namespace LinkKeeper

open Path (normalize baseName parent resolve segments escapes isRootAbsolute isUnder)

namespace Path

/-! ## Into a directory and out of it -/

/-- What has its parent in a directory lies in the directory. -/
theorem isUnder_of_parent {dir path : String} (h : isUnder dir (parent path) = true) :
    isUnder dir path = true := by
  rw [isUnder, Bool.or_eq_true, Bool.or_eq_true, beq_iff_eq] at h
  have hbelow : ∀ rest, below? dir path = some rest → isUnder dir path = true := by
    intro rest hrest
    rw [isUnder, hrest, Option.isSome_some, Bool.or_true]
  rcases h with (hempty | hparent) | hunder
  · rw [isUnder, hempty, Bool.true_or, Bool.true_or]
  · rw [parent] at hparent
    split at hparent
    · rename_i front last hsplit
      refine hbelow (String.ofList last) (below?_eq_some.mpr ?_)
      rw [← Text.append_of_splitLast? hsplit, ← hparent, String.toList_ofList, String.toList_ofList]
    · rw [isUnder, ← hparent]
      rfl
  · obtain ⟨rest, hrest⟩ := Option.isSome_iff_exists.mp hunder
    rw [below?_eq_some, parent] at hrest
    split at hrest
    · rename_i front last hsplit
      rw [String.toList_ofList] at hrest
      refine hbelow (String.ofList (rest.toList ++ '/' :: last)) (below?_eq_some.mpr ?_)
      rw [← Text.append_of_splitLast? hsplit, hrest, String.toList_ofList, List.append_assoc,
        List.cons_append]
    · exact absurd hrest (by simp)

/-- The directory of a path in normal form. -/
theorem parent_of_normal {path : String} (hp : normalize path = path) :
    normalize (parent path) = parent path ∧
      (path = "" ∨ ∃ last, segments path = segments (parent path) ++ [last]) := by
  rcases normal_cases hp with rfl | ⟨front, last, htidy, hpath, hparent, -⟩
  · exact ⟨by decide, .inl rfl⟩
  · have hfront : segments (parent path) = front := by rw [hparent, segments_join htidy.left]
    refine ⟨by rw [hparent, normalize_join htidy.left], .inr ⟨last, ?_⟩⟩
    rw [hfront, hpath, segments_join htidy]

/-- What lies below a directory, but is not the directory itself, has its parent there. -/
theorem isUnder_parent {dir path : String} (hd : normalize dir = dir) (hp : normalize path = path)
    (h : isUnder dir path = true) (hne : path ≠ dir) : isUnder dir (parent path) = true := by
  obtain ⟨hnormal, rfl | ⟨last, hsegments⟩⟩ := parent_of_normal hp
  · exact h
  · rw [isUnder_iff hd hp, hsegments, List.prefix_concat_iff, ← hsegments] at h
    rw [isUnder_iff hd hnormal]
    exact h.resolve_left fun he => hne (eq_of_segments_eq hp hd he.symm)

/-- A way that does nothing but climb leads to a directory that its beginning lies in. -/
theorem isUnder_of_ups {source raw path : String} (hs : normalize source = source)
    (hp : normalize path = path) (ha : isRootAbsolute raw = false) {n : Nat}
    (hraw : segments raw = List.replicate n above)
    (hin : escapes (resolve (parent source) raw) = false)
    (h : isUnder path (resolve (parent source) raw) = true) : isUnder path source = true := by
  have hnormal := normalize_resolve (parent source) raw
  have hresolved : segments (resolve (parent source) raw) =
      collapse (segments (parent source) ++ List.replicate n above) := by
    rw [segments_resolve, ha, if_neg Bool.false_ne_true, hraw]
  have hnames : ∀ s ∈ collapse (segments (parent source) ++ List.replicate n above), IsName s := by
    rw [← hresolved]
    exact names_of_not_escapes (hnormal.symm ▸ hin)
  have hdir := Edit.names_of_collapse_append (tidy_segments _).collapsed hnames
  -- climbing takes names off the end, so what is left stands in front
  have hprefix : segments (resolve (parent source) raw) <+: segments (parent source) := by
    rw [hresolved, (collapse_ups hdir hnames).2]
    exact List.take_prefix _ _
  refine isUnder_of_parent ((isUnder_iff hp (parent_of_normal hs).1).mpr ?_)
  exact ((isUnder_iff hp hnormal).mp h).trans hprefix

/-- A link beside a path that has its name, and is not written from the root, leads to the path. -/
theorem resolve_of_normalize_eq_baseName {path raw : String} (hp : normalize path = path)
    (ha : isRootAbsolute raw = false) (hraw : normalize raw = baseName path) :
    resolve (parent path) raw = path := by
  have hname : normalize (baseName path) = baseName path := normalize_baseName hp
  have hbeside := resolve_parent_name hp
  rw [resolve_eq_iff hp, isRootAbsolute_of_normal hname, if_neg Bool.false_ne_true] at hbeside
  rw [resolve_eq_iff hp, ha, if_neg Bool.false_ne_true,
    (normalize_eq_iff hname).mp hraw, hbeside]

end Path

namespace Reference

/-- Whether a reference leads from the root to what has the name of a path, from a file beside the path. -/
def isNamesake (r : Reference) (path : String) : Bool :=
  isRootAbsolute r.targetPath && r.rooted == baseName path && parent r.source == parent path

theorem isNamesake_iff {r : Reference} {path : String} : r.isNamesake path = true ↔
    isRootAbsolute r.targetPath = true ∧ r.rooted = baseName path ∧
      parent r.source = parent path := by
  rw [isNamesake, Bool.and_eq_true, Bool.and_eq_true, beq_iff_eq, beq_iff_eq, and_assoc]

/-- A reference that does nothing but climb lies in every directory that it leads into. -/
theorem isUnder_of_climbs {r : Reference} (hin : r.isInside = true) (hc : r.climbs = true)
    (hs : normalize r.source = r.source) {path : String} (hp : normalize path = path)
    (h : isUnder path r.resolved = true) : isUnder path r.source = true := by
  have hbase : baseName r.rooted = ".." := beq_iff_eq.mp hc
  have hrooted : escapes r.rooted = true :=
    Path.escapes_of_baseName (Path.normalize_normalize _) hbase
  have hresolved : escapes r.resolved = false := by
    rw [isInside, hrooted, Bool.true_and, Bool.and_eq_true, Bool.not_eq_true'] at hin
    simpa using hin.2
  have ha : isRootAbsolute r.targetPath = false := by
    by_contra ha
    rw [Bool.not_eq_false] at ha
    have hsame : r.resolved = r.rooted := Edit.resolve_of_isRootAbsolute ha _
    rw [hsame, hrooted] at hresolved
    exact absurd hresolved (by simp)
  rcases Path.baseName_resolve ha with hsame | ⟨n, hn⟩
  · exact absurd (hsame.symm.trans hbase) (baseName_ne_above hin hc)
  · exact Path.isUnder_of_ups hs hp ha hn hresolved h

end Reference

namespace Index

variable {ix after : Index}

/-! ## Strokes -/

/-- An index holds no records but those of another, under their numbers and keys. -/
def Within (after ix : Index) : Prop :=
  ∀ (id : Nat) (record : Record), after.records[id]? = some record → ix.records[id]? = some record

theorem Within.has (h : after.Within ix) {r : Reference} (hr : after.Has r) : ix.Has r := by
  obtain ⟨id, record, hid, he⟩ := hr
  exact ⟨id, record, h id record hid, he⟩

theorem Within.settled (h : after.Within ix) (hs : ix.Settled) : after.Settled :=
  fun id record hid => hs id record (h id record hid)

theorem Within.distinctPlaces (h : after.Within ix) (hd : ix.DistinctPlaces) :
    after.DistinctPlaces :=
  fun a b r s ha hb => hd a b r s (h a r ha) (h b s hb)

/-- Rows that stand at places of their own. -/
theorem distinctPlaces_of_nodup
    (h : (ix.records.toList.map fun row => row.2.reference.place).Nodup) : ix.DistinctPlaces := by
  intro a b r s ha hb he
  have hmem : ∀ {id : Nat} {record : Record}, ix.records[id]? = some record →
      (id, record) ∈ ix.records.toList := Std.TreeMap.mem_toList_iff_getElem?_eq_some.mpr
  exact congrArg Prod.fst (List.inj_on_of_nodup_map h (hmem ha) (hmem hb) he)

/-- Dropping the records of some files strikes their rows. -/
theorem Valid.foldl_removeSource (h : ix.Valid) (sources : List String) :
    (sources.foldl Index.removeSource ix).Valid ∧
    ∀ id : Nat, (sources.foldl Index.removeSource ix).records[id]? =
      (ix.records[id]?).filter fun record => !sources.contains record.reference.source := by
  induction sources generalizing ix with
  | nil =>
      refine ⟨h, fun id => ?_⟩
      rw [List.foldl_nil]
      cases ix.records[id]? <;> rfl
  | cons source rest ih =>
      obtain ⟨hvalid, hrows⟩ := ih (h.removeSource source)
      refine ⟨hvalid, fun id => ?_⟩
      rw [List.foldl_cons, hrows, h.getElem?_removeSource_eq_filter, Option.filter_filter]
      refine congrArg (Option.filter · _) (funext fun record => ?_)
      rw [List.contains_cons, Bool.not_or]
      rfl

/-- The files that a deletion forgets. -/
def goneFrom (ix : Index) (path : String) : List String :=
  path :: (ix.removeSource path).sourcesUnder path

/-- Of the files with records, those in the place are forgotten. -/
theorem Valid.mem_goneFrom (h : ix.Valid) {path : String} {r : Reference} (hr : ix.Has r) :
    r.source ∈ ix.goneFrom path ↔ isUnder path r.source = true := by
  rw [goneFrom, List.mem_cons, (h.removeSource path).mem_sourcesUnder, h.recordsFrom_removeSource]
  by_cases he : r.source = path
  · rw [he]
    exact iff_of_true (.inl rfl) (Path.isUnder_refl path)
  · have hsome : ix.recordsFrom r.source ≠ [] :=
      List.ne_nil_of_mem (h.mem_recordsFrom_iff.mpr ⟨rfl, hr⟩)
    simp [he, hsome]

/-- **A deletion strikes the records of what was in the place.** -/
theorem Valid.records_goneFrom (h : ix.Valid) (path : String) (id : Nat) :
    ((ix.goneFrom path).foldl Index.removeSource ix).records[id]? =
      (ix.records[id]?).filter fun record => !isUnder path record.reference.source := by
  rw [(h.foldl_removeSource _).2]
  cases hid : ix.records[id]? with
  | none => rfl
  | some record =>
      have hgone : record.reference.source ∈ ix.goneFrom path ↔
          isUnder path record.reference.source = true := h.mem_goneFrom ⟨id, record, hid, rfl⟩
      have hsame : (ix.goneFrom path).contains record.reference.source =
          isUnder path record.reference.source := by
        rw [Bool.eq_iff_iff, List.contains_iff_mem, hgone]
      rw [Option.filter_some, Option.filter_some, hsame]

theorem within_of_filter {p : Record → Bool}
    (h : ∀ id : Nat, after.records[id]? = (ix.records[id]?).filter p) : after.Within ix := by
  intro id record hid
  rw [h, Option.filter_eq_some_iff] at hid
  exact hid.1

end Index

namespace Keeper

variable {k : Keeper} {path : String} {r : Reference}

/-! ## What is reported -/

theorem nodup_dangling (k : Keeper) (path : String) : (k.dangling path).Nodup :=
  nodup_firstAtPlaces _

theorem mem_dangling (hd : k.index.DistinctPlaces) : r ∈ k.dangling path ↔
    ∃ old ∈ path :: k.index.targetsUnder path, r ∈ k.index.lookup old := by
  rw [dangling, ← List.mem_flatMap]
  refine ⟨(firstAtPlaces_sublist _).mem, fun hr => mem_firstAtPlaces hr fun s hs he => ?_⟩
  have hhas : ∀ {q : Reference}, q ∈ (path :: k.index.targetsUnder path).flatMap k.index.lookup →
      k.index.Has q := by
    intro q hq
    obtain ⟨old, -, hlookup⟩ := List.mem_flatMap.mp hq
    exact Index.has_of_mem_lookup hlookup
  exact hd.eq_of_place (hhas hs) (hhas hr) he

/-- Whether a reference of a file that is left leads into a deleted place, as far as a lookup goes. -/
def Dangles (path : String) (r : Reference) : Prop :=
  isUnder path r.rooted = true ∨
    (isUnder path r.resolved = true ∧ (r.climbs = true → normalize r.source = r.source)) ∨
    r.isNamesake path = true

/-- What is looked up for a deleted place and found leads into the place. -/
theorem dangles_of_mem_lookup (hv : k.index.Valid) (hs : k.index.Settled)
    (hin : r.isInside = true) (hleft : isUnder path r.source = false)
    (hp : normalize path = path) {old : String} (hold : old ∈ path :: k.index.targetsUnder path)
    (hr : r ∈ k.index.lookup old) : Dangles path r := by
  have hread : normalize old = old ∧ isUnder path old = true := by
    rcases List.mem_cons.mp hold with rfl | hold
    · exact ⟨hp, Path.isUnder_refl _⟩
    · obtain ⟨hunder, id, record, hid, rfl | rfl⟩ := Index.mem_targetsUnder.mp hold
      · rw [hs.key hid]
        exact ⟨Path.normalize_normalize _, hs.key hid ▸ hunder⟩
      · exact ⟨Path.normalize_resolve _ _, hunder⟩
  obtain ⟨hnormal, hunder⟩ := hread
  have hresolved : r.resolved = old → Dangles path r := by
    intro hres
    refine .inr (.inl ⟨hres ▸ hunder, fun hc => ?_⟩)
    rw [hv.climbs_of_mem_lookup hs hin hr (by rw [hnormal, hres])] at hc
    exact absurd hc (by simp)
  obtain ⟨-, hkey | ⟨-, hkey, hbeside⟩ | ⟨-, hbase, hres⟩⟩ :=
    (Index.mem_lookup hv hs hnormal).mp hr
  · exact .inl (hkey ▸ hunder)
  · by_cases hplace : old = path
    · subst hplace
      cases ha : isRootAbsolute r.targetPath with
      | true => exact .inr (.inr (Reference.isNamesake_iff.mpr ⟨ha, hkey, hbeside⟩))
      | false =>
          refine hresolved ?_
          rw [Reference.resolved, hbeside]
          exact Path.resolve_of_normalize_eq_baseName hp ha hkey
    · have hparent := Path.isUnder_parent hp hnormal hunder hplace
      rw [← hbeside] at hparent
      rw [Path.isUnder_of_parent hparent] at hleft
      exact absurd hleft (by simp)
  · exact hresolved hres

/-- What leads into a deleted place is looked up and found. -/
theorem mem_lookup_of_dangles (hv : k.index.Valid) (hs : k.index.Settled) (hr : k.index.Has r)
    (hin : r.isInside = true) (hleft : isUnder path r.source = false)
    (hp : normalize path = path) (h : Dangles path r) :
    ∃ old ∈ path :: k.index.targetsUnder path, r ∈ k.index.lookup old := by
  obtain ⟨id, record, hid, rfl⟩ := hr
  have hr : k.index.Has record.reference := ⟨id, record, hid, rfl⟩
  rcases h with hrooted | ⟨hresolved, hc⟩ | hnamesake
  · refine ⟨record.reference.rooted, List.mem_cons_of_mem _ (Index.mem_targetsUnder.mpr
      ⟨hrooted, id, record, hid, .inl (hs.key hid).symm⟩), ?_⟩
    exact hv.mem_lookup_of_rooted hs hr (Path.normalize_normalize _).symm
  · refine ⟨record.reference.resolved, List.mem_cons_of_mem _ (Index.mem_targetsUnder.mpr
      ⟨hresolved, id, record, hid, .inr rfl⟩), hv.mem_lookup_of_resolved hs hr hin ?_⟩
    by_contra hclimbs
    rw [Bool.not_eq_false] at hclimbs
    rw [Reference.isUnder_of_climbs hin hclimbs (hc hclimbs) hp hresolved] at hleft
    exact absurd hleft (by simp)
  · obtain ⟨-, hkey, hbeside⟩ := Reference.isNamesake_iff.mp hnamesake
    refine ⟨path, List.mem_cons_self, ?_⟩
    by_cases hname : baseName path = path
    · exact hv.mem_lookup_of_rooted hs hr (by rw [hkey, hname, hp])
    · exact (Index.mem_lookup hv hs hp).mpr ⟨hr, .inr (.inl ⟨hname, hkey, hbeside⟩)⟩

/-! ## The whole answer -/

theorem index_foldl_forget (k : Keeper) (paths : List String) :
    (paths.foldl forget k).index = paths.foldl Index.removeSource k.index := by
  induction paths generalizing k with
  | nil => rfl
  | cons path rest ih =>
      rw [List.foldl_cons, List.foldl_cons, ih]
      rfl

theorem onDeleted_eq (k : Keeper) (path : String) :
    (k.onDeleted path).1.index = ((k.index.goneFrom path).foldl forget k).index ∧
      (k.onDeleted path).2.broken = ((k.index.goneFrom path).foldl forget k).dangling path := by
  unfold onDeleted Index.goneFrom
  dsimp only
  refine ⟨?_, rfl⟩
  rw [index_note]
  split
  · rfl
  · rfl

/--
**A deletion forgets what was in the place, and reports what leads there.**

The index loses the records of the files that were in the place and keeps all others as they are.
Each of these that leads into the place, from the root or from its own directory, is reported
once; of those that do nothing but climb, in a file whose path is in normal form, none is left.
What is reported beyond that leads from the root to another file of the name. The tree stays as
it is.
-/
theorem apply_deleted (hix : k.index.Reachable) (hs : k.index.Settled)
    (hd : k.index.DistinctPlaces) (hp : normalize path = path) :
    ((k.apply (.deleted path)).1.index.Valid ∧
      ∀ id : Nat, (k.apply (.deleted path)).1.index.records[id]? =
        (k.index.records[id]?).filter fun record => !isUnder path record.reference.source) ∧
    ((k.apply (.deleted path)).2.broken.Nodup ∧
      ∀ r, r ∈ (k.apply (.deleted path)).2.broken ↔
        (k.apply (.deleted path)).1.index.Has r ∧
          (isUnder path r.rooted = true ∨
            (isUnder path r.resolved = true ∧ (r.climbs = true → normalize r.source = r.source)) ∨
            r.isNamesake path = true)) ∧
    (k.apply (.deleted path)).1.tree = k.tree := by
  -- the log of the answer is the only thing that its beginning changes
  let start : Keeper := { k with log := [] }
  let left : Keeper := (k.index.goneFrom path).foldl forget start
  have hindex : (k.apply (.deleted path)).1.index = left.index :=
    (sameTree_apply k _).2.trans (start.onDeleted_eq path).1
  have hbroken : (k.apply (.deleted path)).2.broken = left.dangling path :=
    (start.onDeleted_eq path).2
  have htree : (k.apply (.deleted path)).1.tree = k.tree :=
    (sameTree_apply k _).1.tree.trans (start.onDeleted_writes path).1
  have hleft : left.index = (k.index.goneFrom path).foldl Index.removeSource k.index :=
    start.index_foldl_forget _
  have hrows : ∀ id : Nat, left.index.records[id]? =
      (k.index.records[id]?).filter fun record => !isUnder path record.reference.source := by
    rw [hleft]
    exact hix.valid.records_goneFrom path
  have hvalid : left.index.Valid := by
    rw [hleft]
    exact (hix.valid.foldl_removeSource _).1
  have hwithin := Index.within_of_filter hrows
  have hsettled := hwithin.settled hs
  have hdistinct := hwithin.distinctPlaces hd
  have houtside : ∀ {r}, left.index.Has r → isUnder path r.source = false := by
    rintro _ ⟨id, record, hid, rfl⟩
    rw [hrows, Option.filter_eq_some_iff, Bool.not_eq_true'] at hid
    exact hid.2
  rw [hindex, hbroken]
  refine ⟨⟨hvalid, hrows⟩, ⟨left.nodup_dangling path, fun r => ?_⟩, htree⟩
  rw [mem_dangling hdistinct]
  constructor
  · rintro ⟨old, hold, hr⟩
    have hhas := Index.has_of_mem_lookup hr
    exact ⟨hhas, dangles_of_mem_lookup hvalid hsettled (hix.inside (hwithin.has hhas))
      (houtside hhas) hp hold hr⟩
  · rintro ⟨hhas, hr⟩
    exact mem_lookup_of_dangles hvalid hsettled hhas (hix.inside (hwithin.has hhas))
      (houtside hhas) hp hr

/-- A link into `docs`, from the root. -/
def linkIn : Reference := ⟨some "g", 18, 4, .markdownInline, 1, "a.md", "docs/guide.md#top"⟩

/-- A way into `docs`, from a directory beside it. -/
def wayIn : Reference := ⟨some "g", 20, 4, .markdownInline, 1, "b/c.md", "../docs/guide.md"⟩

/-- A way to somewhere else, in the same file. -/
def wayPast : Reference := ⟨some "a", 11, 4, .markdownInline, 2, "b/c.md", "../a.md"⟩

/-- The files of these links are read, and one in `docs`. -/
def crossings : List IndexOperation :=
  [.replaceSource "a.md" [linkIn], .replaceSource "b/c.md" [wayIn, wayPast],
   .replaceSource "docs/guide.md" [⟨some "h", 11, 4, .markdownInline, 1, "docs/guide.md", "h.md"⟩]]

/-- A keeper of these files. -/
def keeperOfCrossings : Keeper := keeperWith (crossings.foldl Index.perform .empty)

/-- With the directory its file goes, and the two links into it are reported. -/
theorem apply_deleted_docs :
    (keeperOfCrossings.index.Reachable ∧ keeperOfCrossings.index.Settled ∧
      keeperOfCrossings.index.DistinctPlaces) ∧
    ((keeperOfCrossings.index.records[3]?).isSome = true ∧
      (keeperOfCrossings.apply (.deleted "docs")).1.index.records[3]? = none) ∧
    (keeperOfCrossings.apply (.deleted "docs")).2.broken.Nodup ∧
    linkIn ∈ (keeperOfCrossings.apply (.deleted "docs")).2.broken ∧
    wayIn ∈ (keeperOfCrossings.apply (.deleted "docs")).2.broken ∧
    wayPast ∉ (keeperOfCrossings.apply (.deleted "docs")).2.broken := by
  have hreachable : keeperOfCrossings.index.Reachable := ⟨crossings, rfl⟩
  have hsettled : keeperOfCrossings.index.Settled := Index.settled_of_not_refiles (by decide)
  have hplaces : keeperOfCrossings.index.records.toList.map (·.2.reference.place) =
      [("a.md", 1, 4), ("b/c.md", 1, 4), ("b/c.md", 2, 4), ("docs/guide.md", 1, 4)] := by
    rfl
  have hdistinct : keeperOfCrossings.index.DistinctPlaces := by
    refine Index.distinctPlaces_of_nodup ?_
    rw [hplaces]
    decide
  have hnormal : normalize "docs" = "docs" := by decide
  obtain ⟨⟨-, hrows⟩, ⟨hnodup, hbroken⟩, -⟩ :=
    apply_deleted hreachable hsettled hdistinct hnormal
  have hgone : (keeperOfCrossings.apply (.deleted "docs")).1.index.records[3]? = none := by
    rw [hrows]
    decide +kernel
  have hlinkIn : (keeperOfCrossings.apply (.deleted "docs")).1.index.Has linkIn := by
    refine ⟨0, ⟨"docs/guide.md", linkIn⟩, ?_, rfl⟩
    rw [hrows]
    decide +kernel
  have hwayIn : (keeperOfCrossings.apply (.deleted "docs")).1.index.Has wayIn := by
    refine ⟨1, ⟨"../docs/guide.md", wayIn⟩, ?_, rfl⟩
    rw [hrows]
    decide +kernel
  have hpast : wayPast ∉ (keeperOfCrossings.apply (.deleted "docs")).2.broken := by
    rw [hbroken]
    exact fun h => absurd h.2 (by decide +kernel)
  exact ⟨⟨hreachable, hsettled, hdistinct⟩, ⟨by decide +kernel, hgone⟩, hnodup,
    (hbroken _).mpr ⟨hlinkIn, by decide +kernel⟩, (hbroken _).mpr ⟨hwayIn, by decide +kernel⟩,
    hpast⟩

/-- A link from the root to `guide.md`. -/
def rootLink : Reference := ⟨some "g", 13, 4, .markdownInline, 1, "docs/x.md", "/guide.md"⟩

/-- It is reported when `docs/guide.md` goes, where it does not lead. -/
theorem deleted_reports_rootLink :
    (keeperWith (indexHolding rootLink)).index.Reachable ∧
    (keeperWith (indexHolding rootLink)).index.Settled ∧
    (keeperWith (indexHolding rootLink)).index.DistinctPlaces ∧
    normalize "docs/guide.md" = "docs/guide.md" ∧
    isUnder "docs/guide.md" rootLink.rooted = false ∧
    isUnder "docs/guide.md" rootLink.resolved = false ∧
    ((keeperWith (indexHolding rootLink)).apply (.deleted "docs/guide.md")).2.broken =
      [rootLink] := by
  rw [index_keeperWith]
  exact ⟨reachable_holding rootLink, settled_holding rootLink, distinctPlaces_holding rootLink,
    by decide, by decide, by decide, by decide +kernel⟩

end Keeper

end LinkKeeper
