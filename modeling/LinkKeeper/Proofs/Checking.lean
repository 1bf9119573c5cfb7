import LinkKeeper.Proofs.Exhaustive
import LinkKeeper.Proofs.Foretelling

/-!
# What a check reports

A check reads the tree into an empty index and goes through all references in the order of
their places. Whatever order the files are come upon in, the index is filled file by file, so
that no two of its records share a place, and the list that a check goes through is strictly
ordered.

A reference counts as resolved if it leads to something from the directory of its file or from
the root. The first way never leads out of the tree, because what leads out either way is not
filed. The second may: what is filed for its first way is then looked for outside of the root,
and is taken as resolved if something is there by chance.
-/

namespace LinkKeeper

open FileTree
open Path (Proper)

/-- One reference of a tree stands before another, by file, by line and by column. -/
def Reference.StandsBefore (a b : Reference) : Prop :=
  a.source < b.source ∨ (a.source = b.source ∧ Links.Before a b)

theorem Reference.precedes_iff {a b : Reference} : a.precedes b = true ↔
    a.source < b.source ∨ (a.source = b.source ∧ Links.startsBefore a b = true) := by
  rw [precedes, Links.startsBefore_iff]
  by_cases hsource : a.source = b.source
  · by_cases hline : a.line = b.line
    · simp [hsource, hline]
    · simp [hsource, hline]
  · simp [hsource]

theorem Reference.precedes_trans (a b c : Reference) (hab : a.precedes b = true)
    (hbc : b.precedes c = true) : a.precedes c = true := by
  rw [precedes_iff, Links.startsBefore_iff] at hab hbc ⊢
  rcases hab with hab | ⟨hab, hlines⟩
  · rcases hbc with hbc | ⟨hbc, -⟩
    · exact .inl (String.lt_trans hab hbc)
    · exact .inl (hbc ▸ hab)
  · rcases hbc with hbc | ⟨hbc, hmore⟩
    · exact .inl (hab ▸ hbc)
    · exact .inr ⟨hab.trans hbc, by omega⟩

theorem Reference.precedes_total (a b : Reference) : (a.precedes b || b.precedes a) = true := by
  rw [Bool.or_eq_true, precedes_iff, precedes_iff, Links.startsBefore_iff, Links.startsBefore_iff]
  rcases Std.lt_trichotomy a.source b.source with hlt | heq | hgt
  · exact .inl (.inl hlt)
  · rcases Nat.lt_trichotomy a.line b.line with hlt | hline | hgt
    · exact .inl (.inr ⟨heq, by omega⟩)
    · rcases Nat.le_total a.columnStart b.columnStart with hle | hle
      · exact .inl (.inr ⟨heq, by omega⟩)
      · exact .inr (.inr ⟨heq.symm, by omega⟩)
    · exact .inr (.inr ⟨heq.symm, by omega⟩)
  · exact .inr (.inl hgt)

/-- What leads nowhere above the root is not led there from a directory either. -/
theorem Path.escapes_resolve {dir raw : String} (hdir : ∀ s ∈ Path.segments dir, Path.IsName s)
    (hraw : Path.escapes (Path.normalize raw) = false) : Path.escapes (Path.resolve dir raw) = false := by
  have hnames := Path.names_of_not_escapes hraw
  have hall : ∀ s ∈ Path.segments (Path.resolve dir raw), Path.IsName s := by
    rw [Path.segments_resolve]
    split
    · exact hnames
    · have hboth : ∀ s ∈ Path.segments dir ++ Path.segments raw, Path.IsName s := fun s hs =>
        (List.mem_append.mp hs).elim (hdir s) (hnames s)
      rw [(Path.Collapsed.of_names hboth).collapse_eq]
      exact hboth
  rw [← Path.normalize_resolve, ← Bool.not_eq_true, Path.normalize,
    Path.escapes_join (Path.tidy_segments _)]
  intro hhead
  exact (hall Path.above (List.mem_of_mem_head? hhead)).2.2 rfl

/-! ## An index that is filled file by file -/

namespace Index

variable {ix : Index}

/-- What holds of an index that has been filled file by file. -/
structure Charted (ix : Index) : Prop where
  valid : ix.Valid
  ordered : ∀ s, (ix.recordsFrom s).Pairwise Links.Before
  filed : ∀ r, ix.Has r → r.isInside = true ∧ Proper r.source

theorem charted_empty : empty.Charted where
  valid := valid_empty
  ordered s := by simp [recordsFrom, references, empty]
  filed r := by
    rintro ⟨id, record, hrecord, -⟩
    exact absurd hrecord (by simp [empty])

theorem Charted.replaceSource (h : ix.Charted) {s : String} (hs : Proper s)
    {references : List Reference} (hsource : ∀ r ∈ references, r.source = s)
    (hordered : references.Pairwise Links.Before) : (ix.replaceSource s references).Charted where
  valid := h.valid.replaceSource s references
  ordered other := by
    rw [h.valid.recordsFrom_replaceSource hsource]
    split
    · exact hordered.filter _
    · exact h.ordered other
  filed r hr := by
    have hmem := ((h.valid.replaceSource s references).mem_recordsFrom_iff).mpr ⟨rfl, hr⟩
    rw [h.valid.recordsFrom_replaceSource hsource] at hmem
    split at hmem
    · rename_i heq
      exact ⟨(List.mem_filter.mp hmem).2, heq ▸ hs⟩
    · exact h.filed r (h.valid.mem_recordsFrom_iff.mp hmem).2

/-- The references behind two numbers do not begin at one place of a line. -/
def Apart (ix : Index) (m n : Nat) : Prop :=
  ∀ a b : Record, ix.records[m]? = some a → ix.records[n]? = some b →
    ¬ (a.reference.line = b.reference.line ∧ a.reference.columnStart = b.reference.columnStart)

instance : Std.Symm ix.Apart :=
  ⟨fun _ _ h a b ha hb hsame => h b a hb ha ⟨hsame.1.symm, hsame.2.symm⟩⟩

theorem Charted.distinctPlaces (h : ix.Charted) : ix.DistinctPlaces := by
  intro m n a b ha hb hplace
  obtain ⟨hsource, hline, hcolumn⟩ : a.reference.source = b.reference.source ∧
      a.reference.line = b.reference.line ∧ a.reference.columnStart = b.reference.columnStart := by
    simpa [Reference.place] using hplace
  have hm := (h.valid.sources.mem_iff a.reference.source m).mpr ⟨a, ha, rfl⟩
  have hn := (h.valid.sources.mem_iff a.reference.source n).mpr ⟨b, hb, hsource.symm⟩
  have hapart : (ix.bySource.numbers a.reference.source).Pairwise ix.Apart := by
    refine (List.pairwise_filterMap.mp (h.ordered a.reference.source)).imp ?_
    intro i j hij x y hx hy hsame
    have hbefore := hij x.reference (by rw [hx]; rfl) y.reference (by rw [hy]; rfl)
    unfold Links.Before at hbefore
    omega
  by_contra hne
  exact hapart.forall hm hn hne a b ha hb ⟨hline, hcolumn⟩

/-- **All references are listed in the order of their places, and no two share one.** -/
theorem Charted.pairwise_all (h : ix.Charted) : ix.all.Pairwise Reference.StandsBefore := by
  have hsorted : ix.all.Pairwise (Reference.precedes · · = true) :=
    List.pairwise_mergeSort Reference.precedes_trans Reference.precedes_total _
  refine (hsorted.and (h.distinctPlaces.nodup_all h.valid)).imp_of_mem ?_
  rintro a b ha hb ⟨hab, hne⟩
  refine (Reference.precedes_iff.mp hab).imp_right fun ⟨hsource, hstarts⟩ => ⟨hsource, ?_⟩
  have hplace : a.place ≠ b.place := fun hsame =>
    hne (h.distinctPlaces.eq_of_place (h.valid.mem_all.mp ha) (h.valid.mem_all.mp hb) hsame)
  have hstart : ¬ (a.line = b.line ∧ a.columnStart = b.columnStart) := fun hsame =>
    hplace (by rw [Reference.place, Reference.place, hsource, hsame.1, hsame.2])
  rw [Links.startsBefore_iff] at hstarts
  unfold Links.Before
  omega

/-- What is filed does not lead out of the tree from the directory of its file. -/
theorem Charted.escapes_resolved (h : ix.Charted) {r : Reference} (hr : ix.Has r) :
    Path.escapes r.resolved = false := by
  obtain ⟨hinside, hproper⟩ := h.filed r hr
  have hdir : ∀ s ∈ Path.segments (Path.parent r.source), Path.IsName s := by
    rw [Path.segments_parent hproper]
    exact fun s hs => hproper.names s (List.dropLast_subset _ hs)
  cases hrooted : Path.escapes r.rooted with
  | false => exact Path.escapes_resolve hdir hrooted
  | true => exact (by simpa [Reference.isInside, hrooted] using hinside : _ ∧ _).2

end Index

/-! ## A scan -/

namespace Keeper

variable {k : Keeper}

theorem charted_indexFile (h : k.index.Charted) {path : String} (hp : Proper path) :
    (k.indexFile path).1.index.Charted := by
  rcases k.indexFile_cases path with ⟨content, n, -, -, hindex⟩ | ⟨fault, -, hsame⟩
  · rw [hindex]
    exact h.replaceSource hp (fun r hr => Links.source_of_mem_find hr) (Links.pairwise_find _ _ _)
  · rw [hsame]
    exact h

theorem charted_scanFile {state : Keeper × ScanStats} (h : state.1.index.Charted) (location : String) :
    (scanFile state location).1.index.Charted := by
  obtain ⟨k, stats⟩ := state
  unfold scanFile
  dsimp only at h ⊢
  split
  · exact h
  · rename_i path hpath
    split
    · exact h
    · rename_i hmonitored
      rw [Bool.not_eq_true, Bool.not_eq_false'] at hmonitored
      have hread := charted_indexFile h
        (isSource_iff.mp (isSource_of_relative? hpath hmonitored)).1
      split
      · rename_i next filed heq
        rw [heq] at hread
        exact hread
      · rename_i next fault heq
        rw [heq] at hread
        exact hread

/-- **A scan of any tree fills the index file by file.** -/
theorem charted_scan (h : k.index.Charted) : k.scan.1.index.Charted := by
  have hall : ∀ (locations : List String) (state : Keeper × ScanStats), state.1.index.Charted →
      (locations.foldl scanFile state).1.index.Charted := by
    intro locations
    induction locations with
    | nil => exact fun _ hstate => hstate
    | cons location rest ih => exact fun state hstate => ih _ (charted_scanFile hstate location)
  unfold scan scanUnder
  dsimp only
  rw [index_note]
  split
  · exact h
  · exact h
  · exact charted_scanFile h _
  · exact hall _ _ h

/-- Something is there at a path that does not lead out of the tree. -/
def HasInside (k : Keeper) (path : String) : Prop :=
  Path.escapes path = false ∧ k.tree.isThere (k.locate path) = true

/-- Something is there at a path that leads out of the tree. -/
def HasOutside (k : Keeper) (path : String) : Prop :=
  Path.escapes path = true ∧ k.tree.isThere (k.locate path) = true

end Keeper

/-! ## The command -/

namespace Command

variable {e : Surroundings} {i : Invocation} {k : Keeper}

/-- The line for a broken reference. -/
def brokenLine (r : Reference) : String :=
  "BROKEN  " ++ r.source ++ ":" ++ toString r.line ++ "  " ++ r.target

/-- What a check says when it finds some references broken out of so many. -/
def verdict (total : Nat) (broken : List Reference) : List String :=
  if broken = [] then ["All " ++ toString total ++ " references resolve"]
  else broken.map brokenLine ++
    ["", toString broken.length ++ " broken of " ++ toString total ++ " references"]

/-- The references of a tree that lead nowhere. -/
def brokenOf (k : Keeper) : List Reference := k.scan.1.index.all.filter fun r => !isResolved k r

theorem isResolved_scan (k : Keeper) (r : Reference) : isResolved k.scan.1 r = isResolved k r := by
  have hscan := Keeper.sameTree_scan k
  simp only [isResolved, Keeper.locate, hscan.tree, hscan.project]

theorem run_check_eq (hprep : prepare e i = .ok k) :
    run .check e i = finish k.scan.1 (if brokenOf k = [] then 0 else 2)
      (verdict k.scan.1.index.all.length (brokenOf k)) := by
  unfold run
  rw [hprep]
  dsimp only
  unfold runCheck brokenOf
  dsimp only
  simp only [isResolved_scan]
  split
  · rename_i hnone
    rw [hnone]
    rfl
  · rename_i broken hsome
    rw [if_neg hsome, verdict, if_neg hsome]
    rfl

/-- What a check comes to, given the references that it finds broken. -/
structure Checked (k : Keeper) (broken : List Reference) (o : Outcome) : Prop where
  /-- What is stored and leads nowhere from its directory and from the root, inside or outside. -/
  mem_iff : ∀ r, r ∈ broken ↔ k.scan.1.index.Has r ∧
    ¬ k.HasInside r.resolved ∧ ¬ k.HasInside r.rooted ∧ ¬ k.HasOutside r.rooted
  /-- Each is listed once, in the order of places. -/
  ordered : broken.Pairwise Reference.StandsBefore
  status : o.status = .ok (if broken = [] then 0 else 2)
  output : o.output = verdict k.scan.1.index.all.length broken

/-- A reference is taken as resolved for what is inside, and for what is outside when it is read from the root. -/
theorem isResolved_iff {r : Reference} (hin : Path.escapes r.resolved = false) :
    isResolved k r = true ↔
      k.HasInside r.resolved ∨ k.HasInside r.rooted ∨ k.HasOutside r.rooted := by
  rw [isResolved, Bool.or_eq_true]
  refine or_congr (and_iff_right hin).symm ?_
  cases hrooted : Path.escapes r.rooted <;> simp [Keeper.HasInside, Keeper.HasOutside, hrooted]

/--
**A check reports what leads nowhere.**

Whatever the file system and the settings are, a check that gets to its work ends with the list
of the stored references that lead to nothing inside the tree, and to nothing outside of it when
they are read from the root; each is listed once, in the order of places. It ends with 0 if there
are none and with 2 otherwise.
-/
theorem run_check (hprep : prepare e i = .ok k) :
    ∃ broken, Checked k broken (run .check e i) := by
  have hempty : k.index = .empty := by
    obtain ⟨place, settings, tree, -, rfl⟩ := prepare_cases hprep
    rfl
  have hcharted : k.scan.1.index.Charted := Keeper.charted_scan (hempty ▸ Index.charted_empty)
  rw [run_check_eq hprep]
  refine ⟨brokenOf k, fun r => ?_, hcharted.pairwise_all.filter _, rfl, rfl⟩
  rw [brokenOf, List.mem_filter, hcharted.valid.mem_all]
  refine and_congr_right fun hhas => ?_
  rw [Bool.not_eq_true', ← Bool.not_eq_true, isResolved_iff (hcharted.escapes_resolved hhas),
    not_or, not_or]

/-- A note with a link that leads nowhere, and one with a link that leads to a directory from the root. -/
def patchySite : Surroundings := site [(["a.md"], note "[b](b.md)\n"), (["docs"], .directory),
  (["docs", "c.md"], note "[d](/docs)\n")]

def keeperOfPatchySite : Keeper := .make (.make "/w" .defaults) patchySite.tree

/-- The link that leads nowhere. -/
def strayLink : Reference := ⟨some "b", 8, 4, .markdownInline, 1, "a.md", "b.md"⟩

/-- The link that leads to the directory. -/
def docsLink : Reference := ⟨some "d", 9, 4, .markdownInline, 1, "docs/c.md", "/docs"⟩

/-- One of two references is broken. -/
theorem run_check_patchySite :
    prepare patchySite plainCall = .ok keeperOfPatchySite ∧
    (∃ broken, Checked keeperOfPatchySite broken (run .check patchySite plainCall)) ∧
    (run .check patchySite plainCall).status = .ok 2 ∧
    (run .check patchySite plainCall).output =
      ["BROKEN  a.md:1  b.md", "", "1 broken of 2 references"] := by
  have hprep : prepare patchySite plainCall = .ok keeperOfPatchySite := by rfl
  have hall : keeperOfPatchySite.scan.1.index.all = [strayLink, docsLink] := by
    have hsnapshot : keeperOfPatchySite.scan.1.index.snapshot.flatMap (·.2) = [strayLink, docsLink] := by
      decide +kernel
    rw [Index.all, hsnapshot, List.mergeSort_of_pairwise (by decide)]
  have hbroken : brokenOf keeperOfPatchySite = [strayLink] := by
    rw [brokenOf, hall]
    decide +kernel
  have hrun : run .check patchySite plainCall = finish keeperOfPatchySite.scan.1 2
      ["BROKEN  a.md:1  b.md", "", "1 broken of 2 references"] := by
    rw [run_check_eq hprep, hbroken, hall]
    rfl
  exact ⟨hprep, run_check hprep, by rw [hrun]; rfl, by rw [hrun]; rfl⟩

/-- A tree at `/w` with one note, and a note beside the tree. -/
def besideSite : Surroundings :=
  let inside := site [(["docs"], .directory), (["docs", "a.md"], note "[x](../other.md)\n")]
  { inside with tree := inside.tree.put ["other.md"] (note "# O\n") }

def keeperOfBesideSite : Keeper := .make (.make "/w" .defaults) besideSite.tree

/-- The link of the note in the tree. -/
def besideLink : Reference := ⟨some "x", 15, 4, .markdownInline, 1, "docs/a.md", "../other.md"⟩

/-- **A note beside the tree hides a broken link**: nothing inside is meant, and the check finds no fault. -/
theorem check_misses_besideLink :
    prepare besideSite plainCall = .ok keeperOfBesideSite ∧
    keeperOfBesideSite.scan.1.index.Has besideLink ∧
    ¬ keeperOfBesideSite.HasInside besideLink.resolved ∧
    ¬ keeperOfBesideSite.HasInside besideLink.rooted ∧
    (run .check besideSite plainCall).status = .ok 0 ∧
    (run .check besideSite plainCall).output = ["All 1 references resolve"] := by
  have hstored : keeperOfBesideSite.scan.1.index.records[0]? =
      some ⟨"../other.md", besideLink⟩ := by
    decide +kernel
  have hgone : keeperOfBesideSite.tree.isThere (keeperOfBesideSite.locate besideLink.resolved) = false := by
    decide +kernel
  have hout : Path.escapes besideLink.rooted = true := by decide +kernel
  exact ⟨by rfl, ⟨0, _, hstored, rfl⟩, fun h => Bool.noConfusion (hgone.symm.trans h.2),
    fun h => Bool.noConfusion (hout.symm.trans h.1), by decide +kernel, by decide +kernel⟩

end Command

end LinkKeeper
