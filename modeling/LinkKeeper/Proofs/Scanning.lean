import LinkKeeper.Proofs.InStep

/-!
# Scans bring a subtree in step

A scan goes by locations and passes over what is ignored; what the index should hold is
said by paths. Here the two meet: below the directory where a scan begins it gets to the
location of every file that is read, as long as no directory on the way carries a name
that the library keeps for its own files. The files it gets to besides are read into the
index as what they are, so that nothing that was in step is spoilt.
-/

namespace LinkKeeper

open FileTree
open Path (spine Proper)

/-! ## What is passed over -/

/-- Whether a path names something that the library writes itself: lock, log, backup or temporary file. -/
def Project.isOwn (p : Project) (path : String) : Bool :=
  path == lockFileName || p.logPath == some path || Settings.isOwnName (Path.baseName path)

/-- A proper path is passed over for its own name, or for an ignored name along it. -/
theorem Project.ignores_eq {p : Project} {path : String} (hp : Proper path)
    (hempty : "" ∉ p.settings.ignoredDirectories) :
    p.ignores path =
      (p.isOwn path || (spine path).any p.settings.ignoredDirectories.contains) := by
  obtain ⟨front, last, hseg, -, hparent, hbase⟩ := hp.exists_join
  have hdirs : ((Text.splitWhere (· == '/') (Path.parent path).toList).map String.ofList).any
      p.settings.ignoredDirectories.contains =
        (front.map String.ofList).any p.settings.ignoredDirectories.contains := by
    rw [hparent, Path.toList_join]
    by_cases hf : front = []
    · subst hf
      have : ([[]] : List (List Char)).map String.ofList = [""] := rfl
      simp [List.intercalate, Text.splitWhere, this, hempty]
    · rw [Text.splitWhere_intercalate (p := (· == '/')) rfl hf]
      intro s hs
      refine Path.not_isSlash (Path.slash_not_mem ((Path.tidy_segments path).plain s ?_))
      rw [hseg]
      exact List.mem_append_left _ hs
  unfold ignores Settings.ignores isOwn
  dsimp only
  rw [spine, hseg, List.map_append, List.any_append, List.any_append, hdirs, hbase]
  rfl

/-- What lies on the way to a path that is not passed over is passed over for its own name only. -/
theorem Project.ignores_of_prefix {p : Project} {path above : String} (hp : Proper path)
    (ha : Proper above) (hempty : "" ∉ p.settings.ignoredDirectories)
    (hpre : spine above <+: spine path) (hn : p.ignores path = false)
    (hown : p.isOwn above = false) : p.ignores above = false := by
  rw [ignores_eq hp hempty, Bool.or_eq_false_iff] at hn
  rw [ignores_eq ha hempty, hown, Bool.false_or, List.any_eq_false]
  intro name hname
  exact List.any_eq_false.mp hn.2 name (hpre.subset hname)

/-- No directory of a tree carries a name of the library's own files. -/
def Project.Plain (p : Project) (root : Spine) (t : FileTree) : Prop :=
  ∀ path, Proper path → t.entryAt root path = some .directory → p.isOwn path = false

/-- What a scan relies on. -/
structure Project.Clear (p : Project) (root : Spine) (t : FileTree) : Prop where
  noEmpty : "" ∉ p.settings.ignoredDirectories
  plain : p.Plain root t

namespace Keeper

variable {k : Keeper} {root : Spine} {stale other : String → Prop}

/-! ## Locations below a directory -/

theorem intercalate_eq_join (names : Spine) :
    String.intercalate "/" names = Path.join (names.map String.toList) := by
  have hslash : "/".toList = ['/'] := rfl
  rw [← String.toList_inj, String.toList_intercalate, Path.toList_join, hslash]

/-- A path is its names with slashes between them. -/
theorem intercalate_spine {path : String} (hp : Proper path) :
    String.intercalate "/" (spine path) = path := by
  rw [intercalate_eq_join, Path.map_toList_spine, Path.join_segments hp.normal]

/-- Whether the directories of a tree have plain names can be checked, entry by entry. -/
theorem plain_of_below {p : Project} {t : FileTree}
    (h : ∀ pair ∈ t.below root, pair.2.isDirectory = true →
      p.isOwn (String.intercalate "/" pair.1) = false) : p.Plain root t := by
  intro path hp he
  have hmem : (spine path, Entry.directory) ∈ t.below root := mem_below.mpr ⟨hp.spine_ne_nil, he⟩
  have hown := h _ hmem rfl
  rw [intercalate_spine hp] at hown
  exact hown

/-- The path of the first names along a path. -/
theorem exists_proper_prefix {path : String} (hp : Proper path) {names : Spine}
    (hn : names <+: spine path) (hne : names ≠ []) : ∃ q, Proper q ∧ spine q = names := by
  obtain ⟨rest, hrest⟩ := hn
  have hseg : Path.segments path = names.map String.toList ++ rest.map String.toList := by
    rw [← Path.map_toList_spine, ← hrest, List.map_append]
  have ht : Path.Tidy (names.map String.toList) := by
    have := Path.tidy_segments path
    rw [hseg] at this
    exact this.left
  refine ⟨Path.join (names.map String.toList), Path.proper_join ht ?_ (by simpa using hne), ?_⟩
  · intro s hs
    exact hp.names s (by rw [hseg]; exact List.mem_append_left _ hs)
  · rw [Path.spine_join ht]
    simp [Function.comp_def]

/-- Where a scan may begin: at the root, or at a directory below it. -/
def Starts (k : Keeper) (root : Spine) (dir : String) : Prop :=
  dir = "" ∨ (Proper dir ∧ k.tree.entryAt root dir = some .directory)

theorem Rooted.names_of_starts (h : k.Rooted root) {dir : String} (hd : k.Starts root dir) :
    ∀ name ∈ root ++ spine dir, IsFileName name := by
  intro name hname
  rcases List.mem_append.mp hname with hroot | hdir
  · exact h.sound.rootNames name hroot
  · rcases hd with rfl | ⟨_, he⟩
    · exact absurd hdir (by simp)
    · exact h.sound.names _ _ he name hdir

/-- What a scan calls a path is its location. -/
theorem Rooted.under_eq (h : k.Rooted root) {dir path : String} (hd : k.Starts root dir)
    (hp : Proper path) {rest : Spine} (hsplit : spine path = spine dir ++ rest) (hne : rest ≠ []) :
    under (k.locate dir) rest = k.locate path := by
  have hseg : Path.segments path = (spine dir).map String.toList ++ rest.map String.toList := by
    rw [← Path.map_toList_spine, hsplit, List.map_append]
  have hnames : ∀ s ∈ rest.map String.toList, Path.IsName s := fun s hs =>
    hp.names s (by rw [hseg]; exact List.mem_append_right _ hs)
  have ht : Path.Tidy (rest.map String.toList) := Path.tidy_names hnames fun s hs =>
    (Path.tidy_segments path).plain s (by rw [hseg]; exact List.mem_append_right _ hs)
  have hrest : Proper (String.intercalate "/" rest) := by
    rw [intercalate_eq_join]
    exact Path.proper_join ht hnames (by simpa using hne)
  have hspine : spine (String.intercalate "/" rest) = rest := by
    rw [intercalate_eq_join, Path.spine_join ht]
    simp [Function.comp_def]
  have hbelow : Path.locate (location (root ++ spine dir)) (String.intercalate "/" rest) =
      Path.locate (location root) path := by
    rw [Path.locate_eq_location (h.names_of_starts hd) hrest, hspine,
      Path.locate_eq_location h.sound.rootNames hp, hsplit, List.append_assoc]
  rw [under, h.locate_eq, h.locate_eq, ← hbelow]
  rcases hd with rfl | ⟨hdir, _⟩
  · rw [Path.locate_locate_empty h.sound.rootNames hrest.isAbsolute, Path.spine_empty,
      List.append_nil]
  · rw [Path.locate_eq_location h.sound.rootNames hdir]

theorem Rooted.relative?_locate (h : k.Rooted root) {path : String} (hp : Proper path) :
    k.project.relative? (k.locate path) = some path := by
  rw [Project.relative?, h.locate_eq, h.located]
  exact hp.fromRoot? h.sound.rootNames

/-- **A scan gets to every file below its start that is read.** -/
theorem Rooted.mem_reachedFiles (h : k.Rooted root) (hc : k.project.Clear root k.tree)
    {dir path : String} (hd : k.Starts root dir) (hp : Proper path)
    (hm : k.project.monitors path = true) {content : ByteArray} {mode : Nat}
    (hf : k.tree.entryAt root path = some (.file content mode))
    (hunder : Path.isUnder dir path = true) :
    k.locate path ∈ k.reachedFiles (k.locate dir) (root ++ spine dir) := by
  have hnormal : Path.normalize dir = dir := by
    rcases hd with rfl | ⟨hdir, _⟩
    · rfl
    · exact hdir.normal
  obtain ⟨rest, hrest⟩ := (Path.isUnder_iff_spine hnormal hp.normal).mp hunder
  have hne : rest ≠ [] := by
    rintro rfl
    rw [List.append_nil] at hrest
    rcases hd with rfl | ⟨hdir, he⟩
    · exact hp.spine_ne_nil hrest.symm
    · rw [Path.eq_of_spine_eq hdir.normal hp.normal hrest, hf] at he
      exact absurd he (by simp)
  have hignored : k.project.ignores path = false := by
    rw [Project.monitors, Bool.and_eq_true, Bool.not_eq_true'] at hm
    exact hm.1
  have hreached : k.isReached (k.locate dir) rest = true := by
    rw [isReached, List.all_eq_true]
    intro n hn
    have hlt : n < rest.length := List.mem_range.mp hn
    have htake : rest.take (n + 1) ≠ [] := by
      intro he
      have := congrArg List.length he
      rw [List.length_take, List.length_nil] at this
      omega
    have hpre : spine dir ++ rest.take (n + 1) <+: spine path := by
      rw [← hrest, List.prefix_append_right_inj]
      exact List.take_prefix _ _
    obtain ⟨q, hq, hspine⟩ := exists_proper_prefix hp hpre (by simp [htake])
    rw [h.under_eq hd hq hspine htake, isPassed, h.relative?_locate hq]
    have hpass : k.project.ignores q = false := by
      by_cases hsame : q = path
      · rw [hsame]
        exact hignored
      · refine Project.ignores_of_prefix hp hq hc.noEmpty (hspine ▸ hpre) hignored
          (hc.plain q hq ?_)
        rw [entryAt] at hf ⊢
        refine h.sound.directory_above hf ?_ (by simp [hq.spine_ne_nil]) ?_
        · rw [List.prefix_append_right_inj, hspine]
          exact hpre
        · intro heq
          exact hsame (Path.eq_of_spine_eq hq.normal hp.normal (List.append_cancel_left heq))
    simp [hpass]
  rw [reachedFiles, List.mem_filterMap]
  refine ⟨(rest, .file content mode), mem_below.mpr ⟨hne, ?_⟩, ?_⟩
  · rw [List.append_assoc, hrest]
    exact hf
  · dsimp only
    rw [if_pos hreached, h.under_eq hd hp hrest.symm hne]

theorem Rooted.scanStart_eq (h : k.Rooted root) {dir : String} (hd : k.Starts root dir) :
    scanStart k.tree (k.locate dir) = .directory (root ++ spine dir) := by
  unfold scanStart
  rw [h.locate_eq]
  rcases hd with rfl | ⟨hdir, he⟩
  · rw [h.sound.grounded.entry_root, Path.spine_empty, List.append_nil]
  · rw [h.sound.entry_some hdir he]

/-! ## Reading what was reached -/

/-- Except for some files that hold nothing, and for some others, the index holds what it should. -/
structure BlankBut (k : Keeper) (stale other : String → Prop) : Prop where
  inStep : k.InStepBut fun s => stale s ∨ other s
  blank : ∀ s, stale s → k.index.recordsFrom s = []

theorem BlankBut.of_index {next : Keeper} (h : k.BlankBut stale other) (hs : SameTree k next)
    (hi : next.index = k.index) : next.BlankBut stale other :=
  ⟨h.inStep.of_index hs hi, fun s hst => by rw [hi]; exact h.blank s hst⟩

/-- Files that hold nothing are in step when they should hold nothing. -/
theorem BlankBut.mono (h : k.BlankBut stale other) {fewer : String → Prop}
    (hs : ∀ s, fewer s → stale s)
    (hnil : ∀ s, stale s → ¬ fewer s → ¬ other s → k.expected s = []) :
    k.BlankBut fewer other := by
  refine ⟨⟨h.inStep.valid, ?_, h.inStep.sources, ?_⟩, fun s hst => h.blank s (hs s hst)⟩
  · intro id record hr
    rcases h.inStep.settled id record hr with hkey | hst | hother
    · exact .inl hkey
    · have hmem := h.inStep.valid.mem_recordsFrom.mpr ⟨rfl, id, record, hr, rfl⟩
      rw [h.blank _ hst] at hmem
      exact absurd hmem (by simp)
    · exact .inr (.inr hother)
  · intro s hn
    obtain ⟨hfewer, hother⟩ := not_or.mp hn
    by_cases hst : stale s
    · rw [h.blank s hst, hnil s hst hfewer hother]
    · exact h.inStep.current s (not_or.mpr ⟨hst, hother⟩)

/-- What a scan reads at a location is a path that may be read. -/
theorem isSource_of_relative? {location path : String}
    (hr : k.project.relative? location = some path) (hm : k.project.monitors path = true) :
    k.isSource path = true := by
  obtain ⟨hnormal, hin⟩ := Path.normal_of_fromRoot? hr
  rw [isSource, hm, hin, beq_iff_eq.mpr hnormal]
  rfl

/-- Reading a file that held nothing, or that is in step, spoils nothing. -/
theorem BlankBut.indexFile (h : k.BlankBut stale other) {path : String}
    (hs : k.isSource path = true) :
    (k.indexFile path).1.BlankBut (fun s => stale s ∧ s ≠ path) other := by
  rcases k.indexFile_cases path with ⟨content, n, hread, -, hindex⟩ | ⟨fault, hread, hsame⟩
  · refine ⟨(h.inStep.indexFile hs hread hindex).mono fun s hst => ?_, fun s hst => ?_⟩
    · exact hst.1.imp_left fun h => ⟨h, hst.2⟩
    · rw [hindex, h.inStep.valid.recordsFrom_replaceSource fun r hr => Links.source_of_mem_find hr,
        if_neg hst.2]
      exact h.blank s hst.1
  · rw [hsame]
    exact h.mono (fun s hst => hst.1) fun s hst hn _ => by
      have he : s = path := Classical.not_not.mp fun hne => hn ⟨hst, hne⟩
      rw [he, expected_of_error hread]

/-- Whether a scan reads a path at a location. -/
def Reads (p : Project) (location path : String) : Prop :=
  p.relative? location = some path ∧ p.monitors path = true

/-- **One file of a scan.** The path that is read there is in step, and the others are as before. -/
theorem BlankBut.scanFile {state : Keeper × ScanStats} (h : state.1.BlankBut stale other)
    (location : String) :
    SameTree state.1 (scanFile state location).1 ∧
    (Keeper.scanFile state location).1.BlankBut
      (fun s => stale s ∧ ¬ Reads state.1.project location s) other := by
  obtain ⟨k, stats⟩ := state
  unfold Keeper.scanFile
  dsimp only at h ⊢
  cases hr : k.project.relative? location with
  | none =>
      refine ⟨.refl k, h.mono (fun s hs => hs.1) fun s hst hn _ => ?_⟩
      exact absurd ⟨hst, fun hreads => absurd (hr.symm.trans hreads.1) (by simp)⟩ hn
  | some path =>
      dsimp only
      have hother : ∀ s, stale s → ¬ (stale s ∧ ¬ Reads k.project location s) → s = path ∧
          k.project.monitors s = true := by
        intro s hst hn
        have hreads : Reads k.project location s := Classical.not_not.mp fun hnot => hn ⟨hst, hnot⟩
        exact ⟨Option.some.inj (hreads.1.symm.trans hr), hreads.2⟩
      cases hm : k.project.monitors path with
      | false =>
          rw [Bool.not_false, if_pos rfl]
          refine ⟨.refl k, h.mono (fun s hs => hs.1) fun s hst hn _ => ?_⟩
          obtain ⟨rfl, hmon⟩ := hother s hst hn
          rw [hm] at hmon
          exact absurd hmon (by simp)
      | true =>
          rw [Bool.not_true, if_neg (by simp)]
          have hread := h.indexFile (isSource_of_relative? hr hm)
          have hdone : (k.indexFile path).1.BlankBut
              (fun s => stale s ∧ ¬ Reads k.project location s) other := by
            refine hread.mono (fun s hs => ⟨hs.1, ?_⟩) fun s hst hn _ => ?_
            · rintro rfl
              exact hs.2 ⟨hr, hm⟩
            · exact absurd (hother s hst.1 hn).1 hst.2
          have hsame := sameTree_indexFile k path
          split
          · rename_i k' filed heq
            rw [heq] at hdone hsame
            exact ⟨hsame, hdone⟩
          · rename_i k' fault heq
            rw [heq] at hdone hsame
            exact ⟨⟨hsame.project, hsame.tree⟩, hdone.of_index ⟨rfl, rfl⟩ rfl⟩

/-- **All files of a scan.** Every path that is read is in step. -/
theorem BlankBut.foldl_scanFile {state : Keeper × ScanStats} (h : state.1.BlankBut stale other)
    (locations : List String) :
    SameTree state.1 (locations.foldl Keeper.scanFile state).1 ∧
    (locations.foldl Keeper.scanFile state).1.BlankBut
      (fun s => stale s ∧ ∀ location ∈ locations, ¬ Reads state.1.project location s) other := by
  induction locations generalizing state stale with
  | nil => exact ⟨.refl _, h.mono (fun s hs => hs.1) fun s hst hn _ => absurd ⟨hst, by simp⟩ hn⟩
  | cons location rest ih =>
      obtain ⟨hsame, hstep⟩ := h.scanFile location
      obtain ⟨hsame', hrest⟩ := ih hstep
      refine ⟨hsame.trans hsame', hrest.mono (fun s hs => ?_) fun s hst hn _ => ?_⟩
      · refine ⟨⟨hs.1, hs.2 location (List.mem_cons_self ..)⟩, fun l hl => ?_⟩
        rw [hsame.project]
        exact hs.2 l (List.mem_cons_of_mem _ hl)
      · refine absurd ⟨hst.1.1, fun l hl => ?_⟩ hn
        rcases List.mem_cons.mp hl with rfl | hl
        · exact hst.1.2
        · rw [← hsame.project]
          exact hst.2 l hl

/--
**A scan brings a subtree in step.** Before it the files of the subtree hold nothing,
although they may have to; what is not in step elsewhere stays so.
-/
theorem BlankBut.scanUnder (h : k.BlankBut stale other) (hr : k.Rooted root)
    (hc : k.project.Clear root k.tree) {dir : String} (hd : k.Starts root dir)
    (hunder : ∀ s, Proper s → stale s → Path.isUnder dir s = true) :
    SameTree k (k.scanUnder dir).1 ∧ (k.scanUnder dir).1.InStepBut other := by
  unfold Keeper.scanUnder
  dsimp only
  rw [hr.scanStart_eq hd]
  dsimp only
  have hblank : (k, (⟨0, 0, 0⟩ : ScanStats)).1.BlankBut stale other := h
  obtain ⟨hsame, hdone⟩ := hblank.foldl_scanFile (k.reachedFiles (k.locate dir) (root ++ spine dir))
  have hnone : ((k.reachedFiles (k.locate dir) (root ++ spine dir)).foldl Keeper.scanFile
      (k, ⟨0, 0, 0⟩)).1.BlankBut (fun _ => False) other := by
    refine hdone.mono (fun s hs => hs.elim) fun s hst _ _ => ?_
    rw [hsame.expected]
    by_cases hs : k.isSource s = true
    · obtain ⟨hp, hm⟩ := isSource_iff.mp hs
      refine hr.expected_of_not_file fun content mode he => ?_
      exact hst.2 _ (hr.mem_reachedFiles hc hd hp hm he (hunder s hp hst.1))
        ⟨hr.relative?_locate hp, hm⟩
    · rw [expected, if_neg hs]
  exact ⟨hsame, hnone.inStep.mono fun s hs => hs.resolve_left not_false⟩

end Keeper

end LinkKeeper
