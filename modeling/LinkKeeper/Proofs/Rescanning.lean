import LinkKeeper.Proofs.Lagging
import LinkKeeper.Proofs.Maps

/-!
# Scans of trees that read alike

What a scan files depends on the files that are read, and on nothing else in a tree. So two
trees that differ in files which no scan reads, such as the lock, are scanned to one index; the
order in which the scan gets to the files is the same as well, since what is passed over is only
left out.

A scan need not get to every file that is read. What it files for a file is either all that is
found there or nothing.
-/

namespace LinkKeeper

open FileTree
open Path (spine Proper)

namespace Keeper

variable {k l : Keeper} {root : Spine} {apart : String → Prop}

/-! ## What a scan passes over -/

/-- Whether a scan leaves a location alone. -/
def skips (k : Keeper) (location : String) : Bool :=
  !(k.project.relative? location).any k.project.monitors

theorem scanFile_of_skips {stats : ScanStats} {location : String} (h : k.skips location = true) :
    scanFile (k, stats) location = (k, stats) := by
  unfold scanFile
  rw [skips, Bool.not_eq_true'] at h
  dsimp only
  cases hpath : k.project.relative? location with
  | none => rfl
  | some path =>
      rw [hpath, Option.any_some] at h
      dsimp only
      rw [h, Bool.not_false, if_pos rfl]

theorem project_scanFile (state : Keeper × ScanStats) (location : String) :
    (scanFile state location).1.project = state.1.project := by
  obtain ⟨k, stats⟩ := state
  unfold scanFile
  dsimp only
  split
  · rfl
  · rename_i path _
    split
    · rfl
    · have hsame := (sameTree_indexFile k path).project
      split
      · rename_i heq
        rw [heq] at hsame
        exact hsame
      · rename_i heq
        rw [heq] at hsame
        exact hsame

/-- What is left alone may be left out. -/
theorem foldl_scanFile_filter (state : Keeper × ScanStats) (locations : List String) :
    (locations.filter fun location => !state.1.skips location).foldl scanFile state =
      locations.foldl scanFile state := by
  induction locations generalizing state with
  | nil => rfl
  | cons location rest ih =>
      have hskips : (scanFile state location).1.skips = state.1.skips := by
        funext other
        rw [skips, skips, project_scanFile]
      cases hskip : state.1.skips location with
      | true =>
          rw [List.filter_cons_of_neg (by simp [hskip]), List.foldl_cons, ih,
            scanFile_of_skips hskip]
      | false =>
          rw [List.filter_cons_of_pos (by simp [hskip]), List.foldl_cons, List.foldl_cons, ← ih,
            hskips]

/-- A scan of the whole tree begins at the root. -/
theorem Rooted.scanUnder_root (h : k.Rooted root) : k.scanUnder "" =
    (k.reachedFiles (k.locate "") root).foldl scanFile (k, ⟨0, 0, 0⟩) := by
  have hstart := h.scanStart_eq (.inl rfl)
  rw [Path.spine_empty, List.append_nil] at hstart
  unfold Keeper.scanUnder
  dsimp only
  rw [hstart]

/-! ## Trees that read alike -/

/-- A file that reads alike is read into one index. -/
theorem Twins.index_indexFile (h : Twins root k l apart) {path : String} (hp : Proper path)
    (hpath : ¬ apart path) : (l.indexFile path).1.index = (k.indexFile path).1.index := by
  have hread : (k.tree.readText (k.locate path) k.project.settings.lenientText).toOption =
      (l.tree.readText (l.locate path) l.project.settings.lenientText).toOption := by
    rw [h.rooted.1.locate_eq, h.rooted.2.locate_eq, h.project]
    exact h.alike.readText hp hpath _
  rcases k.indexFile_cases path with ⟨content, -, hok, -, hindex⟩ | ⟨fault, herr, hk⟩
  · rcases l.indexFile_cases path with ⟨other, -, hok', -, hindex'⟩ | ⟨fault, herr', -⟩
    · rw [hok, hok'] at hread
      obtain rfl : content = other := Option.some.inj hread
      rw [hindex, hindex', h.index, h.project]
    · rw [hok, herr'] at hread
      exact absurd hread (by simp [Except.toOption])
  · rcases l.indexFile_cases path with ⟨content, -, hok', -, -⟩ | ⟨_, -, hl⟩
    · rw [herr, hok'] at hread
      exact absurd hread (by simp [Except.toOption])
    · rw [hk, hl, h.index]

/-- What one file of a scan does to the index. -/
theorem index_scanFile (state : Keeper × ScanStats) (location : String) :
    (scanFile state location).1.index =
      match state.1.project.relative? location with
      | some path =>
          if state.1.project.monitors path then (state.1.indexFile path).1.index
          else state.1.index
      | none => state.1.index := by
  obtain ⟨k, stats⟩ := state
  unfold scanFile
  dsimp only
  cases k.project.relative? location with
  | none => rfl
  | some path =>
      dsimp only
      cases k.project.monitors path with
      | false => rfl
      | true =>
          rw [Bool.not_true, if_neg (by simp), if_pos rfl]
          split
          · rename_i heq
            rw [heq]
          · rename_i heq
            rw [heq]
            rfl

/-- Files that are alike where files are read are scanned alike. -/
theorem Twins.foldl_scanFile {state state' : Keeper × ScanStats}
    (h : Twins root state.1 state'.1 apart)
    (hread : ∀ path, state.1.project.monitors path = true → ¬ apart path)
    (locations : List String) :
    Twins root (locations.foldl scanFile state).1 (locations.foldl scanFile state').1 apart := by
  induction locations generalizing state state' with
  | nil => exact h
  | cons location rest ih =>
      have hproject := project_scanFile state location
      refine ih ⟨?_, ?_, ?_, ?_⟩ (by rw [hproject]; exact hread)
      · rw [project_scanFile, hproject, h.project]
      · rw [index_scanFile, index_scanFile, h.project]
        cases hpath : state.1.project.relative? location with
        | none => exact h.index
        | some path =>
            dsimp only
            split
            · rename_i hm
              have hp := (isSource_iff.mp (isSource_of_relative? hpath hm)).1
              exact h.index_indexFile hp (hread path hm)
            · exact h.index
      · rw [hproject, h.located]
      · rw [tree_scanFile, tree_scanFile]
        exact h.alike

/-! ## A file that is not read -/

/-- What a scan gets to beside what it passes over does not depend on a file that is not read. -/
theorem Rooted.reachedFiles_put (h : k.Rooted root) (hproject : l.project = k.project)
    {place : String} (hp : Proper place) (hplace : k.project.monitors place = false) {entry : Entry}
    (htree : l.tree = k.tree.put (root ++ spine place) entry) :
    ((l.reachedFiles (l.locate "") root).filter fun location => !l.skips location) =
      (k.reachedFiles (k.locate "") root).filter fun location => !k.skips location := by
  have hskips : k.skips (under (k.locate "") (spine place)) = true := by
    rw [h.under_eq (.inl rfl) hp (by simp) hp.spine_ne_nil, skips, h.relative?_locate hp]
    simp [hplace]
  have hsame : l.locate "" = k.locate "" ∧ l.skips = k.skips ∧ l.isReached = k.isReached := by
    obtain ⟨p, t, ix, log⟩ := l
    obtain rfl : p = k.project := hproject
    exact ⟨rfl, rfl, rfl⟩
  unfold Keeper.reachedFiles FileTree.below
  rw [hsame.1, hsame.2.1, hsame.2.2, htree, List.filterMap_filterMap, List.filterMap_filterMap,
    List.filter_filterMap, List.filter_filterMap]
  refine filterMap_toList_insert k.tree.entries (fun value => ?_) entry
  have hbelow : root.isPrefixOf? (root ++ spine place) = some (spine place) :=
    Text.isPrefixOf?_eq_some.mpr rfl
  dsimp only
  rw [hbelow]
  cases hrest : spine place with
  | nil => exact absurd hrest hp.spine_ne_nil
  | cons name rest =>
      rw [hrest] at hskips
      cases value with
      | directory | link _ => rfl
      | file content mode =>
          dsimp only [Option.bind_some]
          split
          · simp [hskips]
          · rfl

/-- **A file that is not read makes no difference to what a scan files.** -/
theorem Rooted.index_scan_put (h : k.Rooted root) (h' : l.Rooted root)
    (hproject : l.project = k.project) (hindex : l.index = k.index) {place : String}
    (hp : Proper place) (hplace : k.project.monitors place = false) {entry : Entry}
    (htree : l.tree = k.tree.put (root ++ spine place) entry) :
    l.scan.1.index = k.scan.1.index := by
  have hstate : Twins root (k, (⟨0, 0, 0⟩ : ScanStats)).1 (l, (⟨0, 0, 0⟩ : ScanStats)).1
      (· = place) :=
    ⟨hproject, hindex, h.located, h.sound, h'.sound, fun path hpath hne => by
      rw [htree, entryAt_put k.tree root hp entry hpath, if_neg hne]⟩
  have hscan : ∀ {next : Keeper}, next.Rooted root → next.scan.1.index =
      (((next.reachedFiles (next.locate "") root).filter fun location =>
        !next.skips location).foldl scanFile (next, ⟨0, 0, 0⟩)).1.index := by
    intro next hnext
    rw [foldl_scanFile_filter (next, ⟨0, 0, 0⟩), ← hnext.scanUnder_root]
    rfl
  have hread : ∀ path, k.project.monitors path = true → path ≠ place := by
    rintro path hm rfl
    exact Bool.noConfusion (hplace.symm.trans hm)
  rw [hscan h', hscan h, h.reachedFiles_put hproject hp hplace htree]
  exact (hstate.foldl_scanFile hread _).index

/-! ## What a scan files -/

/-- **A scan files for a file all that is found there, or nothing.** -/
theorem Rooted.scan_inStepBut (h : k.Rooted root) (hempty : k.index = .empty) :
    SameTree k k.scan.1 ∧
      k.scan.1.InStepBut fun s => k.scan.1.index.recordsFrom s = [] := by
  have hnil : ∀ s, k.index.recordsFrom s = [] := by
    intro s
    rw [hempty]
    simp [Index.empty, Index.recordsFrom, Index.references]
  have hblank : (k, (⟨0, 0, 0⟩ : ScanStats)).1.BlankBut (fun _ => True) fun _ => False := by
    refine ⟨⟨hempty ▸ Index.valid_empty,
      (hempty ▸ Index.settled_empty : k.index.Settled).mono fun s hf => hf.elim,
      fun s hne => absurd (hnil s) hne, fun s hn => absurd (.inl trivial) hn⟩, fun s _ => hnil s⟩
  obtain ⟨hsame, hdone⟩ := hblank.foldl_scanFile (k.reachedFiles (k.locate "") root)
  rw [← h.scanUnder_root] at hsame hdone
  exact ⟨hsame.trans (sameTree_note _ _),
    (hdone.inStep.mono fun s hs => hdone.blank s (hs.resolve_right not_false)).note _⟩

end Keeper

end LinkKeeper
