import LinkKeeper.Proofs.Changes
import LinkKeeper.Proofs.Planning
import LinkKeeper.Proofs.Revising
import LinkKeeper.Proofs.Scanning

/-!
# The index stays in step

Every operation is answered from the index alone and by reading a few files. Here that is
shown to be enough: whatever has happened to the tree, and whatever the answer itself has
written, the index holds afterwards what a scan of the tree would find.

The steps of an answer come first, each with the files that it puts out of step or brings
back. An operation is then a walk through its steps in which the set of files that are
behind ends up empty.
-/

namespace LinkKeeper

open FileTree
open Path (spine Proper)

namespace Keeper

variable {k : Keeper} {root : Spine} {stale : String → Prop}

/-! ## Steps of an answer -/

theorem monitors_of_isOwnName {p : Project} {path : String}
    (h : Settings.isOwnName (Path.baseName path) = true) : p.monitors path = false := by
  have hignored : p.ignores path = true := by
    unfold Project.ignores Settings.ignores
    dsimp only
    rw [h, Bool.or_true, Bool.true_or]
  rw [Project.monitors, hignored]
  rfl

/-- **Carrying out a plan puts the revised files out of step, and no others.** -/
theorem InStepBut.revise (h : k.InStepBut stale) (hr : k.Rooted root) {plan : EditPlan}
    (hp : ∀ pair ∈ plan.toList, Proper pair.1) :
    (k.revise plan).1.InStepBut (fun s => stale s ∨ s ∈ (k.revise plan).2.revised) ∧
    (k.revise plan).1.project = k.project ∧ (k.revise plan).1.index = k.index ∧
    (∀ path ∈ (k.revise plan).2.revised, Proper path) ∧
    KeepsBut root k.tree (k.revise plan).1.tree fun path => path ∈ (k.revise plan).2.revised := by
  have hall := KeepsBut.reviseAll hr.sound k.project.settings.writing hp
  rw [← hr.located] at hall
  obtain ⟨hkeeps, hnames⟩ := hall
  have hrooted : (k.revise plan).1.Rooted root := ⟨hr.located, hkeeps.sound⟩
  have hproper : ∀ path ∈ (k.revise plan).2.revised, Proper path := by
    intro path hm
    obtain ⟨pair, hpair, rfl⟩ := List.mem_map.mp (hnames path hm)
    exact hp pair hpair
  refine ⟨⟨h.valid, h.settled.mono fun s hs => .inl hs, h.sources, fun s hn => ?_⟩, rfl, rfl,
    hproper, hkeeps⟩
  have hindex : (k.revise plan).1.index.recordsFrom s = k.index.recordsFrom s := rfl
  rw [hindex, h.current s fun hs => hn (.inl hs)]
  -- A backup is never a source, so that it does not matter what became of it.
  cases hown : Settings.isOwnName (Path.baseName s) with
  | true =>
      rw [expected_of_not_monitored (monitors_of_isOwnName hown),
        expected_of_not_monitored (monitors_of_isOwnName hown)]
  | false =>
      exact (hr.expected_congr hrooted rfl fun hproper =>
        hkeeps.same s hproper (fun hc => hn (.inr hc)) hown).symm

/-- What a scan relies on outlasts a revision. -/
theorem clear_of_keepsBut {p : Project} {t after : FileTree} {changed : String → Prop}
    (h : p.Clear root t) (hk : KeepsBut root t after changed) : p.Clear root after :=
  ⟨h.noEmpty, fun path hp he => h.plain path hp ((hk.directories path hp).mp he)⟩

/-- A path that was free before a revision should hold nothing after it. -/
theorem expected_of_free (hr : k.Rooted root) {t : FileTree} {changed : String → Prop}
    (hk : KeepsBut root t k.tree changed) {path : String}
    (hfree : Proper path → t.entryAt root path = none) : k.expected path = [] := by
  by_cases hs : k.isSource path = true
  · obtain ⟨hp, hm⟩ := isSource_iff.mp hs
    refine hr.expected_of_not_file fun content mode he => ?_
    cases hown : Settings.isOwnName (Path.baseName path) with
    | true =>
        rw [monitors_of_isOwnName hown] at hm
        exact absurd hm (by simp)
    | false =>
        rw [hk.free path hp hown (hfree hp)] at he
        exact absurd he (by simp)
  · rw [expected, if_neg hs]

/-- Forgetting files that are behind leaves the others as they were. -/
theorem InStepBut.foldl_forget (h : k.InStepBut stale) (paths : List String)
    (hp : ∀ path ∈ paths, stale path) :
    SameTree k (paths.foldl Keeper.forget k) ∧ (paths.foldl Keeper.forget k).InStepBut stale ∧
    ∀ s, (paths.foldl Keeper.forget k).index.recordsFrom s =
      if s ∈ paths then [] else k.index.recordsFrom s := by
  induction paths generalizing k with
  | nil => exact ⟨.refl k, h, fun s => by simp⟩
  | cons path paths ih =>
      have hstale : stale path := hp path (List.mem_cons_self ..)
      have hrest : ∀ p ∈ paths, stale p := fun p hm => hp p (List.mem_cons_of_mem _ hm)
      obtain ⟨hsame, hstep, hfrom⟩ := ih (h.forget hstale) hrest
      refine ⟨(sameTree_forget k path).trans hsame, hstep, fun s => ?_⟩
      rw [List.foldl_cons, hfrom, h.recordsFrom_forget]
      by_cases hm : s ∈ paths
      · simp [hm]
      · simp [hm]

/-- **A file that is read anew is in step.** -/
theorem InStepBut.reread (h : k.InStepBut stale) {path : String} (hp : Proper path) :
    SameTree k (k.reread path) ∧ (k.reread path).InStepBut fun s => stale s ∧ s ≠ path := by
  unfold Keeper.reread
  cases hm : k.project.monitors path with
  | false =>
      rw [Bool.not_false, if_pos rfl]
      exact ⟨.refl k, h.of_nil (h.recordsFrom_of_not_monitored hm) (expected_of_not_monitored hm)⟩
  | true =>
      rw [Bool.not_true, if_neg (by simp)]
      have hsource : k.isSource path = true := isSource_iff.mpr ⟨hp, hm⟩
      have hsame := sameTree_indexFile k path
      rcases k.indexFile_cases path with
        ⟨content, n, hread, hrun, hindex⟩ | ⟨fault, hread, hrun⟩
      · rw [hrun]
        exact ⟨hsame, h.indexFile hsource hread hindex⟩
      · rw [hrun]
        have hwarned := h.warn "could not re-parse file"
          [("file", .shown path), ("error", .shown fault.message)]
        exact ⟨(sameTree_warn k _ _).trans (sameTree_forget _ path),
          hwarned.forget_settles (expected_of_error hread)⟩

theorem InStepBut.foldl_reread (h : k.InStepBut stale) (paths : List String)
    (hp : ∀ path ∈ paths, Proper path) :
    SameTree k (paths.foldl Keeper.reread k) ∧
    (paths.foldl Keeper.reread k).InStepBut fun s => stale s ∧ s ∉ paths := by
  induction paths generalizing k stale with
  | nil => exact ⟨.refl k, h.mono fun s hs => ⟨hs, by simp⟩⟩
  | cons path paths ih =>
      obtain ⟨hsame, hstep⟩ := h.reread (hp path (List.mem_cons_self ..))
      obtain ⟨hsame', hrest⟩ := ih hstep fun p hm => hp p (List.mem_cons_of_mem _ hm)
      refine ⟨hsame.trans hsame', hrest.mono fun s hs => ⟨hs.1.1, ?_⟩⟩
      intro hm
      rcases List.mem_cons.mp hm with he | hm
      · exact hs.1.2 he
      · exact hs.2 hm

/-- Another index with the same references for every file, of which some may be filed wrongly. -/
theorem InStepBut.withIndex (h : k.InStepBut stale) {ix : Index} {more : String → Prop}
    (hv : ix.Valid) (hs : ix.SettledBut more)
    (hfrom : ∀ s, ix.recordsFrom s = k.index.recordsFrom s) (hmore : ∀ s, stale s → more s) :
    ({ k with index := ix } : Keeper).InStepBut more := by
  have hsame : SameTree k { k with index := ix } := ⟨rfl, rfl⟩
  refine ⟨hv, hs, fun s hne => ?_, fun s hn => ?_⟩
  · exact h.sources s (by rw [← hfrom]; exact hne)
  · rw [hsame.expected]
    exact (hfrom s).trans (h.current s fun hst => hn (hmore s hst))

theorem refile_eq (k : Keeper) (files : List String) (move : String × String) :
    refile (k, files) move =
      ({ k with index := (k.index.rekey move.1 move.2).1 },
        files ++ (k.index.rekey move.1 move.2).2) := by
  unfold refile
  dsimp only

/-- **Re-filing a bucket puts the files it names out of step.** They are files with records. -/
theorem InStepBut.refile {state : Keeper × List String}
    (h : state.1.InStepBut fun s => stale s ∨ s ∈ state.2) (move : String × String) :
    SameTree state.1 (refile state move).1 ∧
    (Keeper.refile state move).1.InStepBut (fun s => stale s ∨ s ∈ (Keeper.refile state move).2) ∧
    (∀ s, (Keeper.refile state move).1.index.recordsFrom s = state.1.index.recordsFrom s) ∧
    ∀ s ∈ (Keeper.refile state move).2, s ∈ state.2 ∨ state.1.index.recordsFrom s ≠ [] := by
  obtain ⟨k, files⟩ := state
  dsimp only at h
  obtain ⟨hvalid, hfrom, hsettled⟩ := h.valid.rekey move.1 move.2
  have hsources : ∀ s ∈ (k.index.rekey move.1 move.2).2, k.index.recordsFrom s ≠ [] := by
    intro s hs
    rcases k.index.rekey_cases move.1 move.2 with ⟨hsame, _⟩ | ⟨_, _, hmoved⟩
    · rw [hsame] at hs
      exact absurd hs (by simp)
    · rw [hmoved] at hs
      obtain ⟨id, hid, record, hr, he⟩ := Index.mem_sourcesOf.mp hs
      exact List.ne_nil_of_mem (h.valid.mem_recordsFrom.mpr ⟨he, id, record, hr, rfl⟩)
  rw [refile_eq]
  generalize k.index.rekey move.1 move.2 = answer at hvalid hfrom hsettled hsources ⊢
  obtain ⟨ix, sources⟩ := answer
  dsimp only at hvalid hfrom hsettled hsources ⊢
  refine ⟨⟨rfl, rfl⟩, h.withIndex hvalid ?_ hfrom ?_, hfrom, ?_⟩
  · refine (hsettled _ h.settled).mono fun s hs => ?_
    rcases hs with (hs | hs) | hs
    · exact .inl hs
    · exact .inr (List.mem_append_left _ hs)
    · exact .inr (List.mem_append_right _ hs)
  · intro s hs
    exact hs.imp_right fun hm => List.mem_append_left _ hm
  · intro s hs
    exact (List.mem_append.mp hs).imp_right (hsources s)

theorem InStepBut.foldl_refile {state : Keeper × List String}
    (h : state.1.InStepBut fun s => stale s ∨ s ∈ state.2) (moves : List (String × String)) :
    SameTree state.1 (moves.foldl Keeper.refile state).1 ∧
    (moves.foldl Keeper.refile state).1.InStepBut
      (fun s => stale s ∨ s ∈ (moves.foldl Keeper.refile state).2) ∧
    (∀ s, (moves.foldl Keeper.refile state).1.index.recordsFrom s =
      state.1.index.recordsFrom s) ∧
    ∀ s ∈ (moves.foldl Keeper.refile state).2, s ∈ state.2 ∨ state.1.index.recordsFrom s ≠ [] := by
  induction moves generalizing state with
  | nil => exact ⟨.refl _, h, fun s => rfl, fun s hs => .inl hs⟩
  | cons move moves ih =>
      obtain ⟨hsame, hstep, hfrom, hnames⟩ := h.refile move
      obtain ⟨hsame', hrest, hfrom', hnames'⟩ := ih hstep
      rw [List.foldl_cons]
      refine ⟨hsame.trans hsame', hrest, fun s => (hfrom' s).trans (hfrom s), fun s hs => ?_⟩
      rcases hnames' s hs with hs | hs
      · exact hnames s hs
      · rw [hfrom] at hs
        exact .inr hs

theorem mem_nameSet {names : List String} {name : String} :
    name ∈ nameSet names ↔ name ∈ names := by
  rw [nameSet, List.mem_eraseDups, (List.mergeSort_perm _ _).mem_iff]

/-! ## A tree that has changed -/

/-- Nothing stands below a path where no directory stands. -/
theorem entryAt_below {t : FileTree} (h : t.Sound root) {path below : String} (hp : Proper path)
    (hb : Proper below) (hd : t.entryAt root path ≠ some .directory)
    (hu : Path.isUnder path below = true) (hne : below ≠ path) :
    t.entryAt root below = none := by
  obtain ⟨rest, hrest⟩ := (Path.isUnder_iff_spine hp.normal hb.normal).mp hu
  have hnil : rest ≠ [] := by
    intro he
    rw [he, List.append_nil] at hrest
    exact hne (Path.eq_of_spine_eq hb.normal hp.normal hrest.symm)
  rw [entryAt, ← hrest]
  exact h.below_none hd hp.spine_ne_nil hnil

/-- At and below a free path there is nothing to hold. -/
theorem expected_below_free (hr : k.Rooted root) {path s : String} (hp : Proper path)
    (hfree : k.tree.entryAt root path = none) (hu : Path.isUnder path s = true) :
    k.expected s = [] := by
  refine expected_of_free hr (.refl hr.sound fun _ => False) fun hs => ?_
  by_cases hne : s = path
  · rw [hne]
    exact hfree
  · exact entryAt_below hr.sound hp hs (by rw [hfree]; simp) hu hne

variable {after : FileTree} {op : Operation}

/-- **A change of the tree puts the paths that it touches out of step, and no others.** -/
theorem InStep.withTree (h : k.InStep) (hr : k.Rooted root)
    (hstep : TreeStep root k.tree op after) (hs : after.Sound root) :
    ({ k with tree := after } : Keeper).Rooted root ∧
    ({ k with tree := after } : Keeper).InStepBut fun s => op.touches s = true := by
  have hrooted : ({ k with tree := after } : Keeper).Rooted root := ⟨hr.located, hs⟩
  refine ⟨hrooted, h.valid, h.settled.mono fun s hf => hf.elim, h.sources, fun s hn => ?_⟩
  have hsame := hr.expected_congr hrooted rfl fun hp =>
    hstep.entryAt_eq hr.sound hp (Bool.not_eq_true _ ▸ hn)
  exact (h.current s not_false).trans hsame.symm

/-! ## Creations, modifications and deletions -/

/-- A new file, or a new directory with all that is in it, is read. -/
theorem InStepBut.onCreated {path : String} (hr : k.Rooted root)
    (hc : k.project.Clear root k.tree) (hp : Proper path)
    (h : k.InStepBut fun s => Path.isUnder path s = true)
    (hblank : ∀ s, Path.isUnder path s = true → k.index.recordsFrom s = []) :
    SameTree k (k.onCreated path) ∧ (k.onCreated path).InStep := by
  have hb : k.BlankBut (fun s => Path.isUnder path s = true) fun _ => False :=
    ⟨h.mono fun s hs => .inl hs, hblank⟩
  have hdone : ∀ {next : Keeper}, next.BlankBut (fun _ => False) (fun _ => False) → next.InStep :=
    fun hn => hn.inStep.mono fun s hs => hs.elim id id
  unfold Keeper.onCreated
  dsimp only
  split
  · rename_i hdir
    rw [hr.locate_eq, hr.sound.isDirectory_iff hp] at hdir
    obtain ⟨hsame, hin⟩ := hb.scanUnder hr hc (.inr ⟨hp, hdir⟩) fun s _ hu => hu
    exact ⟨hsame.trans (sameTree_note _ _), hin.note _⟩
  · rename_i hdir
    rw [hr.locate_eq, hr.sound.isDirectory_iff hp] at hdir
    have hbelow : ∀ s, Path.isUnder path s = true → s ≠ path → k.expected s = [] :=
      fun s hu hne => expected_of_free hr (.refl hr.sound fun _ => False) fun hs =>
        entryAt_below hr.sound hp hs hdir hu hne
    cases hm : k.project.monitors path with
    | false =>
        rw [Bool.not_false, if_pos rfl]
        refine ⟨.refl k, hdone (hb.mono (fun s hf => hf.elim) fun s hu _ _ => ?_)⟩
        by_cases hne : s = path
        · rw [hne, expected_of_not_monitored hm]
        · exact hbelow s hu hne
    | true =>
        rw [Bool.not_true, if_neg (by simp)]
        have hsame := sameTree_indexFile k path
        have hread := hdone ((hb.indexFile (isSource_iff.mpr ⟨hp, hm⟩)).mono
          (fun s hf => hf.elim) fun s hs _ _ => by
            rw [hsame.expected]
            exact hbelow s hs.1 hs.2)
        split
        · rename_i k' filed heq
          rw [heq] at hread hsame
          exact ⟨hsame.trans (sameTree_note _ _), hread.note _⟩
        · rename_i k' fault heq
          rw [heq] at hread hsame
          exact ⟨hsame.trans (sameTree_warn _ _ _), hread.warn _ _⟩

/-- A file that has changed is read anew. -/
theorem InStepBut.onModified {path : String} (hr : k.Rooted root) (hp : Proper path)
    (h : k.InStepBut fun s => s = path) {content : ByteArray} {mode : Nat}
    (hf : k.tree.entryAt root path = some (.file content mode)) :
    SameTree k (k.onModified path) ∧ (k.onModified path).InStep := by
  have hnone : ∀ {next : Keeper}, next.InStepBut (fun s => s = path ∧ s ≠ path) → next.InStep :=
    fun hn => hn.mono fun s hs => hs.2 hs.1
  have hfile : k.tree.isFile (k.locate path) = true := by
    rw [hr.locate_eq, hr.sound.isFile_iff hp]
    exact ⟨content, mode, hf⟩
  unfold Keeper.onModified
  dsimp only
  rw [hfile]
  cases hm : k.project.monitors path with
  | false =>
      rw [Bool.not_false, Bool.true_or, if_pos rfl]
      exact ⟨.refl k, hnone (h.of_nil (h.recordsFrom_of_not_monitored hm)
        (expected_of_not_monitored hm))⟩
  | true =>
      rw [Bool.not_true, Bool.false_or, if_neg (by simp)]
      have hsame := sameTree_indexFile k path
      rcases k.indexFile_cases path with
        ⟨text, n, hread, hrun, hindex⟩ | ⟨fault, hread, hrun⟩
      · have hdone := hnone (h.indexFile (isSource_iff.mpr ⟨hp, hm⟩) hread hindex)
        rw [hrun]
        exact ⟨hsame.trans (sameTree_note _ _), hdone.note _⟩
      · have hforgotten := hnone (h.forget_settles (expected_of_error hread))
        rw [hrun]
        exact ⟨(sameTree_forget k path).trans (sameTree_warn _ _ _), hforgotten.warn _ _⟩

/-- What was in a deleted place is forgotten. -/
theorem InStepBut.onDeleted {path : String}
    (h : k.InStepBut fun s => Path.isUnder path s = true)
    (hexp : ∀ s, Path.isUnder path s = true → k.expected s = []) :
    SameTree k (k.onDeleted path).1 ∧ (k.onDeleted path).1.InStep := by
  have hgone : ∀ s ∈ path :: (k.index.removeSource path).sourcesUnder path,
      Path.isUnder path s = true := by
    intro s hs
    rcases List.mem_cons.mp hs with he | hs
    · rw [he]
      exact Path.isUnder_refl path
    · exact ((h.valid.removeSource path).mem_sourcesUnder.mp hs).2
  obtain ⟨hsame, hstep, hfrom⟩ := h.foldl_forget _ hgone
  have hnil : ∀ s, Path.isUnder path s = true →
      ((path :: (k.index.removeSource path).sourcesUnder path).foldl Keeper.forget k
        ).index.recordsFrom s = [] := by
    intro s hu
    rw [hfrom]
    split
    · rfl
    · rename_i hnot
      obtain ⟨hne, hs⟩ := not_or.mp (mt List.mem_cons.mpr hnot)
      rw [(h.valid.removeSource path).mem_sourcesUnder, h.valid.recordsFrom_removeSource,
        if_neg hne] at hs
      exact Classical.not_not.mp fun hsome => hs ⟨hsome, hu⟩
  have hblank : ((path :: (k.index.removeSource path).sourcesUnder path).foldl Keeper.forget k
      ).BlankBut (fun s => Path.isUnder path s = true) fun _ => False :=
    ⟨hstep.mono fun s hs => .inl hs, hnil⟩
  have hdone : ((path :: (k.index.removeSource path).sourcesUnder path).foldl Keeper.forget k
      ).InStep := by
    refine (hblank.mono (fun s hf => False.elim hf) fun s hu _ _ => ?_).inStep.mono
      fun s hs => hs.elim id id
    rw [hsame.expected]
    exact hexp s hu
  unfold Keeper.onDeleted
  dsimp only
  split
  · exact ⟨hsame.trans (sameTree_note _ _), hdone.note _⟩
  · exact ⟨(hsame.trans (sameTree_warn _ _ _)).trans (sameTree_note _ _), (hdone.warn _ _).note _⟩

/-! ## Moves -/

theorem InStepBut.proper_source (h : k.InStepBut stale) {r : Reference} (hr : k.index.Has r) :
    Proper r.source :=
  h.proper (h.valid.mem_recordsFrom_iff.mpr ⟨rfl, hr⟩)

theorem InStepBut.proper_planFileMove (h : k.InStepBut stale) {source target : String}
    (ht : Proper target) : ∀ pair ∈ (k.planFileMove source target).toList, Proper pair.1 := by
  intro pair hpair
  obtain ⟨hedits, hne⟩ := (full_planFileMove k source target).edits_ne_nil hpair
  obtain ⟨e, he⟩ := List.exists_mem_of_ne_nil _ hne
  rw [← hedits] at he
  rcases mem_edits_planFileMove.mp he with ⟨r, hr, hfile, _⟩ | ⟨_, hfile, _⟩
  · rw [hfile]
    unfold fileMove
    dsimp only
    split
    · exact ht
    · exact h.proper_source (has_of_mem_candidates hr)
  · rw [hfile]
    exact ht

theorem InStepBut.proper_planDirectoryMove (h : k.InStepBut stale) {source target : String}
    (hs : Proper source) (ht : Proper target) :
    ∀ pair ∈ (k.planDirectoryMove source target).toList, Proper pair.1 := by
  intro pair hpair
  obtain ⟨hedits, hne⟩ := (full_planDirectoryMove k source target).edits_ne_nil hpair
  obtain ⟨e, he⟩ := List.exists_mem_of_ne_nil _ hne
  have hrebased : ∀ {path new : String}, Proper path →
      Path.rebase? path source target = some new → Proper new := by
    intro path new hp hnew
    obtain ⟨_, _, _, hproper⟩ := Path.rebase?_eq_some hp.normal hs ht hnew
    exact hproper
  rw [← hedits] at he
  rcases mem_edits_planDirectoryMove.mp he with
    ⟨old, _, new, _, r, hr, hfile, _⟩ | ⟨_, moved, hmoved, hfile, _⟩
  · have hproper := h.proper_source (Index.has_of_mem_lookup hr)
    rw [hfile]
    unfold subtreeMove
    dsimp only
    cases hnew : Path.rebase? r.source source target with
    | none => exact hproper
    | some new => exact hrebased hproper hnew
  · have hmem := (h.valid.mem_sourcesUnder.mp hmoved).1
    exact hrebased (isSource_iff.mp (h.sources moved hmem)).1 hfile

/-- What an answer leaves behind. -/
structure Answered (k : Keeper) (root : Spine) (after : Keeper) : Prop where
  project : after.project = k.project
  keeps : ∃ changed, KeepsBut root k.tree after.tree changed
  inStep : after.InStep

/-- **After a file has moved the index is in step.** -/
theorem InStepBut.onMoved {source target : String} (hr : k.Rooted root) (ht : Proper target)
    (h : k.InStepBut fun s => s = source ∨ s = target)
    (hdir : k.tree.entryAt root target ≠ some .directory)
    (hfree : source ≠ target → k.tree.entryAt root source = none) :
    k.Answered root (k.onMoved source target).1 := by
  obtain ⟨hrev, hproject, hindex, hnames, hkeeps⟩ := h.revise hr (h.proper_planFileMove ht)
  have hnotdir : ¬ k.tree.isDirectory (k.locate target) = true := by
    rw [hr.locate_eq, hr.sound.isDirectory_iff ht]
    exact hdir
  unfold Keeper.onMoved
  rw [if_neg hnotdir]
  cases hk1 : k.revise (k.planFileMove source target) with
  | mk k1 report =>
  rw [hk1] at hrev hproject hindex hnames hkeeps
  dsimp only at hrev hproject hindex hnames hkeeps ⊢
  have hstate : ((k1, report.files.map (·.1)) : Keeper × List String).1.InStepBut
      fun s => (s = source ∨ s = target) ∨ s ∈ report.files.map (·.1) := hrev
  obtain ⟨hsame2, hstep2, hfrom2, hnames2⟩ := hstate.refile (source, target)
  cases hk2 : Keeper.refile (k1, report.files.map (·.1)) (source, target) with
  | mk k2 files =>
  rw [hk2] at hsame2 hstep2 hfrom2 hnames2
  dsimp only at hsame2 hstep2 hfrom2 hnames2 ⊢
  have hr2 : k2.Rooted root := ⟨by rw [hsame2.project, hproject, hr.located],
    by rw [hsame2.tree]; exact hkeeps.sound⟩
  have hproper : ∀ s ∈ files, Proper s := by
    intro s hm
    rcases hnames2 s hm with hm | hne
    · exact hnames s hm
    · exact (isSource_iff.mp (hrev.sources s hne)).1
  -- The old place is free, unless the file has moved onto itself.
  have hforgotten : (k2.forget source).InStepBut fun s =>
      ((s = source ∨ s = target) ∨ s ∈ files) ∧ (s ≠ source ∨ source = target) := by
    by_cases hst : source = target
    · exact (hstep2.forget (.inl (.inl rfl))).mono fun s hm => ⟨hm, .inr hst⟩
    · have hexp : k2.expected source = [] := by
        have hkeeps2 : KeepsBut root k.tree k2.tree fun path => path ∈ report.revised := by
          rw [hsame2.tree]
          exact hkeeps
        exact expected_of_free hr2 hkeeps2 fun _ => hfree hst
      exact (hstep2.forget_settles hexp).mono fun s hm => ⟨hm.1, .inl hm.2⟩
  obtain ⟨hsame4, hstep4⟩ := hforgotten.reread ht
  obtain ⟨hsame5, hstep5⟩ := hstep4.foldl_reread
    ((nameSet files).filter fun file => file != source && file != target)
    fun s hm => hproper s (mem_nameSet.mp (List.mem_filter.mp hm).1)
  have hall := ((sameTree_forget k2 source).trans hsame4).trans hsame5
  refine ⟨by rw [project_note, hall.project, hsame2.project, hproject],
    ⟨_, by rw [tree_note, hall.tree, hsame2.tree]; exact hkeeps⟩,
    (hstep5.mono fun s hm => ?_).note _⟩
  obtain ⟨⟨⟨hwhere, hsource⟩, htarget⟩, helsewhere⟩ := hm
  have hne : s ≠ source := by
    intro he
    exact hsource.elim (fun hne => hne he) fun hst => htarget (he.trans hst)
  refine helsewhere (List.mem_filter.mpr ⟨mem_nameSet.mpr ?_, by simp [hne, htarget]⟩)
  rcases hwhere with (he | he) | hm
  · exact absurd he hne
  · exact absurd he htarget
  · exact hm

/-- **After a directory has moved the index is in step.** -/
theorem InStepBut.onDirectoryMoved {source target : String} (hr : k.Rooted root)
    (hc : k.project.Clear root k.tree) (hs : Proper source) (ht : Proper target)
    (h : k.InStepBut fun s => Path.isUnder source s = true ∨ Path.isUnder target s = true)
    (hdir : k.tree.entryAt root target = some .directory)
    (hgone : ∀ s, Proper s → Path.isUnder source s = true → k.tree.entryAt root s = none)
    (hblank : ∀ s, Path.isUnder target s = true → k.index.recordsFrom s = []) :
    k.Answered root (k.onDirectoryMoved source target).1 := by
  obtain ⟨hrev, hproject, hindex, hnames, hkeeps⟩ := h.revise hr (h.proper_planDirectoryMove hs ht)
  unfold Keeper.onDirectoryMoved
  dsimp only
  cases hk1 : k.revise (k.planDirectoryMove source target) with
  | mk k1 report =>
  rw [hk1] at hrev hproject hindex hnames hkeeps
  dsimp only at hrev hproject hindex hnames hkeeps ⊢
  have hstate : ((k1, report.files.map (·.1)) : Keeper × List String).1.InStepBut
      fun s => (Path.isUnder source s = true ∨ Path.isUnder target s = true) ∨
        s ∈ report.files.map (·.1) := hrev
  obtain ⟨hsame2, hstep2, hfrom2, hnames2⟩ := hstate.foldl_refile
    ((k1.index.keysUnder source).filterMap fun key =>
      (Path.rebase? key source target).map fun new => (key, new))
  cases hk2 : ((k1.index.keysUnder source).filterMap fun key =>
      (Path.rebase? key source target).map fun new => (key, new)).foldl Keeper.refile
        (k1, report.files.map (·.1)) with
  | mk k2 files =>
  rw [hk2] at hsame2 hstep2 hfrom2 hnames2
  dsimp only at hsame2 hstep2 hfrom2 hnames2 ⊢
  have hproper : ∀ s ∈ files, Proper s := by
    intro s hm
    rcases hnames2 s hm with hm | hne
    · exact hnames s hm
    · exact (isSource_iff.mp (hrev.sources s hne)).1
  have hindex2 : ∀ s, k2.index.recordsFrom s = k.index.recordsFrom s := by
    intro s
    rw [hfrom2, hindex]
  obtain ⟨hsame3, hstep3, hfrom3⟩ := hstep2.foldl_forget (k.index.sourcesUnder source)
    fun s hm => .inl (.inl (h.valid.mem_sourcesUnder.mp hm).2)
  generalize (k.index.sourcesUnder source).foldl Keeper.forget k2 = k3 at hsame3 hstep3 hfrom3 ⊢
  have hsame13 := hsame2.trans hsame3
  have hkeeps3 : KeepsBut root k.tree k3.tree fun path => path ∈ report.revised := by
    rw [hsame13.tree]
    exact hkeeps
  have hr3 : k3.Rooted root := ⟨by rw [hsame13.project, hproject, hr.located], hkeeps3.sound⟩
  have hc3 : k3.project.Clear root k3.tree := by
    rw [hsame13.project, hproject]
    exact clear_of_keepsBut hc hkeeps3
  -- Forgetting leaves no records under the old place; under the new one there never were any.
  have hblank3 : ∀ s, Path.isUnder source s = true ∨ Path.isUnder target s = true →
      k3.index.recordsFrom s = [] := by
    intro s hu
    rw [hfrom3]
    split
    · rfl
    · rename_i hnot
      rw [hindex2]
      rcases hu with hu | hu
      · rw [h.valid.mem_sourcesUnder] at hnot
        exact Classical.not_not.mp fun hne => hnot ⟨hne, hu⟩
      · exact hblank s hu
  have hb : k3.BlankBut
      (fun s => Path.isUnder source s = true ∨ Path.isUnder target s = true)
      fun s => s ∈ files ∧ ¬ (Path.isUnder source s = true ∨ Path.isUnder target s = true) := by
    refine ⟨hstep3.mono fun s hm => ?_, hblank3⟩
    by_cases hu : Path.isUnder source s = true ∨ Path.isUnder target s = true
    · exact .inl hu
    · exact .inr ⟨hm.resolve_left hu, hu⟩
  have hbt : k3.BlankBut (fun s => Path.isUnder target s = true)
      fun s => s ∈ files ∧ ¬ (Path.isUnder source s = true ∨ Path.isUnder target s = true) :=
    hb.mono (fun s hu => .inr hu) fun s hu hnot _ =>
      expected_of_free hr3 hkeeps3 fun hp => hgone s hp (hu.resolve_right hnot)
  have hstart : k3.Starts root target := by
    refine .inr ⟨ht, ?_⟩
    rw [hsame13.tree]
    exact (hkeeps.directories target ht).mpr hdir
  obtain ⟨hsame4, hstep4⟩ := hbt.scanUnder hr3 hc3 hstart fun s _ hu => hu
  cases hk4 : k3.scanUnder target with
  | mk k4 stats =>
  rw [hk4] at hsame4 hstep4
  dsimp only at hsame4 hstep4 ⊢
  obtain ⟨hsame5, hstep5⟩ := hstep4.foldl_reread
    ((nameSet files).filter fun file => !Path.isUnder source file && !Path.isUnder target file)
    fun s hm => hproper s (mem_nameSet.mp (List.mem_filter.mp hm).1)
  have hall := (hsame13.trans hsame4).trans hsame5
  refine ⟨by rw [project_note, hall.project, hproject],
    ⟨_, by rw [tree_note, hall.tree]; exact hkeeps⟩, (hstep5.mono fun s hm => ?_).note _⟩
  obtain ⟨⟨hfile, hout⟩, helsewhere⟩ := hm
  obtain ⟨hsource, htarget⟩ := not_or.mp hout
  exact helsewhere (List.mem_filter.mpr ⟨mem_nameSet.mpr hfile, by simp [hsource, htarget]⟩)

/-! ## Every operation -/

theorem SameTree.answered {next : Keeper} (h : SameTree k next) (hr : k.Rooted root)
    (hin : next.InStep) : k.Answered root next :=
  ⟨h.project, ⟨fun _ => False, by rw [h.tree]; exact .refl hr.sound _⟩, hin⟩

/-- After a file has moved the answer brings the index in step, whatever else is in the tree. -/
theorem InStep.answer_moved (h : k.InStep) (hr : k.Rooted root) {source target : String}
    (hstep : TreeStep root k.tree (.moved source target) after) (hs : after.Sound root) :
    ({ k with tree := after } : Keeper).Answered root
      (({ k with tree := after } : Keeper).answer (.moved source target)).1 := by
  obtain ⟨hrooted, hbut⟩ := h.withTree hr hstep hs
  cases hstep with
  | @moved _ _ content mode _ hsource htarget there renamed =>
      have hentry : ∀ path, Proper path → after.entryAt root path = _ := fun path hp =>
        hr.sound.entryAt_moved hsource htarget there renamed hp
      refine InStepBut.onMoved hrooted htarget (hbut.mono fun s he => ?_) ?_ fun hne => ?_
      · simpa [Operation.touches] using he
      · intro hdir
        exact absurd ((hentry target htarget).symm.trans hdir) (by simp)
      · refine (hentry source hsource).trans ?_
        rw [if_neg hne, if_pos rfl]

/-- **Whatever has happened to the tree, the answer brings the index in step.** -/
theorem InStep.answer (h : k.InStep) (hr : k.Rooted root) (hstep : TreeStep root k.tree op after)
    (hs : after.Sound root) (hc : k.project.Clear root after) :
    ({ k with tree := after } : Keeper).Answered root
      (({ k with tree := after } : Keeper).answer op).1 := by
  obtain ⟨hrooted, hbut⟩ := h.withTree hr hstep hs
  cases hstep with
  | created hp free there same =>
      obtain ⟨hsame, hin⟩ := hbut.onCreated hrooted hc hp fun s hu =>
        (h.current s not_false).trans (expected_below_free hr hp free hu)
      exact hsame.answered hrooted hin
  | deleted hp there =>
      obtain ⟨hsame, hin⟩ := hbut.onDeleted fun s hu => by
        refine expected_of_free hrooted (.refl hrooted.sound fun _ => False) fun hproper => ?_
        rw [entryAt, getElem?_prune, if_pos]
        rw [List.prefix_append_right_inj]
        exact (Path.isUnder_iff_spine hp.normal hproper.normal).mp hu
      exact hsame.answered hrooted hin
  | @modified path old oldMode hp there content mode =>
      have hfile : (k.tree.put (root ++ spine path) (.file content mode)).entryAt root path =
          some (.file content mode) := by
        rw [entryAt, getElem?_put, if_pos rfl]
      obtain ⟨hsame, hin⟩ := InStepBut.onModified hrooted hp
        (hbut.mono fun s he => beq_iff_eq.mp he) hfile
      exact hsame.answered hrooted hin
  | moved hsource htarget there renamed =>
      exact h.answer_moved hr (.moved hsource htarget there renamed) hs
  | @directoryMoved source target after hsource htarget there free renamed =>
      refine InStepBut.onDirectoryMoved hrooted hc hsource htarget
        (hbut.mono fun s he => by simpa [Operation.touches] using he) ?_ ?_ ?_
      · refine (hr.sound.entryAt_directoryMoved hsource htarget there free renamed target).trans ?_
        have hself : (spine target).isPrefixOf? (spine target) = some [] :=
          Text.isPrefixOf?_eq_some.mpr (List.append_nil _).symm
        rw [hself]
        dsimp only
        rw [List.append_nil]
        exact there
      · intro s hp hu
        exact hr.sound.entryAt_directoryMoved_source hsource htarget there free renamed
          ((Path.isUnder_iff_spine hsource.normal hp.normal).mp hu)
      · intro s hu
        exact (h.current s not_false).trans (expected_below_free hr htarget free hu)

end Keeper

end LinkKeeper
