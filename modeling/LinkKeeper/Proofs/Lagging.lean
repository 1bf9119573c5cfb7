import LinkKeeper.Proofs.Alike
import LinkKeeper.Proofs.Bystanders

/-!
# Answers that lag behind

Reports wait in a queue. When a move is answered, the next one may have happened already, and
the answer is given to a tree that is ahead of it. An answer looks at the tree to see what its
links lead to, it revises files, and it reads some anew; so a second move makes no difference
to the answer of a first one if it stays away from all that.
-/

namespace LinkKeeper

open FileTree
open Path (Proper)

/-- A re-filed bucket names files with a link that means the old path from the root. -/
theorem Index.Valid.of_mem_rekey {ix : Index} (h : ix.Valid) (hs : ix.Settled) {old new s : String}
    (hmem : s ∈ (ix.rekey old new).2) :
    ∃ r, ix.Has r ∧ r.source = s ∧ r.rooted = Path.normalize old := by
  rcases ix.rekey_cases old new with ⟨heq, -⟩ | ⟨-, -, heq⟩
  · rw [heq] at hmem
    exact absurd hmem List.not_mem_nil
  · rw [heq] at hmem
    obtain ⟨id, hid, record, hrecord, hsource⟩ := mem_sourcesOf.mp hmem
    obtain ⟨other, hother, hkey⟩ := (h.targets.mem_iff _ id).mp hid
    obtain rfl : record = other := Option.some.inj (hrecord.symm.trans hother)
    exact ⟨record.reference, ⟨id, record, hrecord, rfl⟩, hsource, (hs.key hrecord).symm.trans hkey⟩

/-- Whether a relative link is kept up depends on one question about the tree, and often on none. -/
theorem Edit.outbound?_congr {isThere isThere' : String → Bool} {r : Reference}
    {source target : String}
    (h : Path.isRootAbsolute r.targetPath = false → Path.parent source ≠ Path.parent target →
      Path.escapes (Path.resolve (Path.parent source) r.targetPath) = false →
      Path.resolve (Path.parent source) r.targetPath ≠ source →
      isThere (Path.resolve (Path.parent source) r.targetPath) =
        isThere' (Path.resolve (Path.parent source) r.targetPath)) :
    outbound? isThere r source target = outbound? isThere' r source target := by
  unfold outbound?
  dsimp only
  cases hskip : (r.targetPath.isEmpty || Path.isRootAbsolute r.targetPath ||
      Path.parent source == Path.parent target ||
      Path.escapes (Path.resolve (Path.parent source) r.targetPath) ||
      Path.resolve (Path.parent source) r.targetPath == source) with
  | true => rfl
  | false =>
      obtain ⟨⟨⟨⟨-, habsolute⟩, hdirs⟩, hinside⟩, hself⟩ := by
        simpa only [Bool.or_eq_false_iff] using hskip
      rw [h habsolute (by simpa using hdirs) hinside (by simpa using hself)]

namespace Keeper

variable {k l : Keeper} {root : Spine} {apart : String → Prop}

/-! ## Two keepers of one index -/

/-- Two keepers with one index, of trees that are alike but for some paths. -/
structure Twins (root : Spine) (k l : Keeper) (apart : String → Prop) : Prop where
  project : l.project = k.project
  index : l.index = k.index
  located : k.project.root = location root
  alike : AlikeBut root k.tree l.tree apart

theorem Twins.rooted (h : Twins root k l apart) : k.Rooted root ∧ l.Rooted root :=
  ⟨⟨h.located, h.alike.left⟩, ⟨by rw [h.project, h.located], h.alike.right⟩⟩

theorem Twins.expected (h : Twins root k l apart) {path : String} (hpath : ¬ apart path) :
    l.expected path = k.expected path :=
  h.rooted.1.expected_congr h.rooted.2 h.project fun hp => (h.alike.same path hp hpath).symm

theorem sameTree_reread (k : Keeper) (path : String) : SameTree k (k.reread path) := by
  refine ⟨?_, tree_reread k path⟩
  unfold Keeper.reread
  split
  · rfl
  · have hsame := (sameTree_indexFile k path).project
    split
    · rename_i heq
      rw [heq] at hsame
      exact hsame
    · rename_i heq
      rw [heq] at hsame
      exact hsame

/-- Reading a file anew puts in place of its records what they should be. -/
theorem index_reread (k : Keeper) {path : String} (hp : Proper path) :
    (k.reread path).index =
      if k.project.monitors path then (k.expected path).foldl Index.insert (k.index.removeSource path)
      else k.index := by
  unfold Keeper.reread
  cases hm : k.project.monitors path with
  | false => rfl
  | true =>
      have hexp : k.expected path = k.parsed path := by
        rw [expected, if_pos (isSource_iff.mpr ⟨hp, hm⟩)]
      rw [Bool.not_true, if_neg (by simp), if_pos rfl, hexp]
      rcases k.indexFile_cases path with ⟨content, n, hread, hrun, hindex⟩ | ⟨fault, hread, hrun⟩
      · rw [hrun, parsed_of_ok hread]
        exact hindex
      · rw [hrun, parsed_of_error hread]
        rfl

/-- Files of which two keepers expect the same are read anew by both in the same way. -/
theorem foldl_reread_congr (hproject : l.project = k.project) (hindex : l.index = k.index)
    {paths : List String} (hpaths : ∀ path ∈ paths, Proper path ∧ l.expected path = k.expected path) :
    SameTree k (paths.foldl Keeper.reread k) ∧ SameTree l (paths.foldl Keeper.reread l) ∧
    (paths.foldl Keeper.reread l).index = (paths.foldl Keeper.reread k).index := by
  induction paths generalizing k l with
  | nil => exact ⟨.refl k, .refl l, hindex⟩
  | cons path paths ih =>
      obtain ⟨hp, hexp⟩ := hpaths path List.mem_cons_self
      have hk := sameTree_reread k path
      have hl := sameTree_reread l path
      have hnext : (l.reread path).index = (k.reread path).index := by
        rw [index_reread k hp, index_reread l hp, hproject, hindex, hexp]
      obtain ⟨hk', hl', hrest⟩ := ih (by rw [hk.project, hl.project, hproject]) hnext
        fun other hother => by
          obtain ⟨hproper, hsame⟩ := hpaths other (List.mem_cons_of_mem _ hother)
          exact ⟨hproper, by rw [hk.expected, hl.expected, hsame]⟩
      exact ⟨hk.trans hk', hl.trans hl', hrest⟩

/-! ## A move answered by both -/

/-- The plans are the same if the tree is seen alike where the moved file looks. -/
theorem planFileMove_congr (hproject : l.project = k.project) (hindex : l.index = k.index)
    {source target : String}
    (hout : (k.project.monitors target && k.project.settings.updatesMovedFiles) = true →
      ∀ r ∈ k.index.recordsFrom source,
        Edit.outbound? l.hasPath r source target = Edit.outbound? k.hasPath r source target) :
    l.planFileMove source target = k.planFileMove source target := by
  have hcandidates : l.candidates source = k.candidates source := by
    rw [candidates, candidates, hindex]
  unfold Keeper.planFileMove
  rw [hcandidates, hproject, hindex]
  dsimp only
  split
  · rename_i hrepairs
    refine List.foldl_ext _ _ _ fun plan r hr => ?_
    exact congrArg (plan.add target) (hout hrepairs r hr)
  · rfl

/-- The same for a directory, whose links to what is in it do not look. -/
theorem planDirectoryMove_congr (hproject : l.project = k.project) (hindex : l.index = k.index)
    {source target : String}
    (hout : k.project.settings.updatesMovedFiles = true → ∀ file ∈ k.index.sourcesUnder source,
      ∀ new, Path.rebase? file source target = some new → ∀ r ∈ k.index.recordsFrom file,
        Path.isUnder source r.resolved = false →
        Edit.outbound? l.hasPath r file new = Edit.outbound? k.hasPath r file new) :
    l.planDirectoryMove source target = k.planDirectoryMove source target := by
  have hinto : l.planMovedTarget source target = k.planMovedTarget source target := by
    funext plan old
    rw [planMovedTarget, planMovedTarget, hindex]
  unfold Keeper.planDirectoryMove
  rw [hinto, hproject, hindex]
  dsimp only
  split
  · rename_i hrepairs
    refine List.foldl_ext _ _ _ fun plan file hfile => ?_
    unfold planMovedSource
    rw [hindex]
    cases hnew : Path.rebase? file source target with
    | none => rfl
    | some new =>
        dsimp only
        refine List.foldl_ext _ _ _ fun plan r hr => ?_
        obtain ⟨hr, hleaves⟩ := List.mem_filter.mp hr
        exact congrArg (plan.add new)
          (hout hrepairs file hfile new hnew r hr (by simpa using hleaves))
  · rfl

/-- A plan that stays away from where the trees differ is carried out alike. -/
theorem Twins.revise (h : Twins root k l apart) {plan : EditPlan}
    (hhosts : ∀ pair ∈ plan.toList, Proper pair.1 ∧ ¬ apart pair.1 ∧
      (k.project.settings.backups = true → ¬ apart (pair.1 ++ Settings.backupEnding))) :
    Twins root (k.revise plan).1 (l.revise plan).1 apart ∧
    Abreast root k.tree l.tree apart (k.revise plan).1.tree (l.revise plan).1.tree ∧
    (l.revise plan).2.revised = (k.revise plan).2.revised ∧
    ∀ file ∈ (k.revise plan).2.revised, Proper file ∧ ¬ apart file := by
  obtain ⟨hab, hfiles⟩ := h.alike.reviseAll k.project.settings.writing hhosts
  have hnames := (KeepsBut.reviseAll h.alike.left k.project.settings.writing
    fun pair hpair => (hhosts pair hpair).1).2
  rw [← h.located] at hab hfiles hnames
  unfold Keeper.revise RevisionReport.revised
  rw [h.project]
  refine ⟨⟨rfl, h.index, h.located, hab.alike⟩, hab, congrArg _ hfiles.symm, fun file hfile => ?_⟩
  obtain ⟨pair, hpair, rfl⟩ := List.mem_map.mp (hnames file hfile)
  exact ⟨(hhosts pair hpair).1, (hhosts pair hpair).2.1⟩

/-- **A move is answered alike by keepers whose trees differ only where the answer has no business.** -/
theorem Twins.onMoved (h : Twins root k l apart) {source target : String} (ht : Proper target)
    (hdir : k.tree.entryAt root target ≠ some .directory)
    (hdir' : l.tree.entryAt root target ≠ some .directory)
    (hplan : l.planFileMove source target = k.planFileMove source target)
    (hhosts : ∀ pair ∈ (k.planFileMove source target).toList, Proper pair.1 ∧ ¬ apart pair.1 ∧
      (k.project.settings.backups = true → ¬ apart (pair.1 ++ Settings.backupEnding)))
    (htarget : l.expected target = k.expected target)
    (hstale : ∀ s ∈ (k.index.rekey source target).2, s ≠ source → s ≠ target →
      Proper s ∧ ¬ apart s) :
    Twins root (k.onMoved source target).1 (l.onMoved source target).1 apart ∧
    Abreast root k.tree l.tree apart (k.onMoved source target).1.tree
      (l.onMoved source target).1.tree := by
  have hnotdir : ¬ k.tree.isDirectory (k.locate target) = true := by
    rw [h.rooted.1.locate_eq, h.alike.left.isDirectory_iff ht]
    exact hdir
  have hnotdir' : ¬ l.tree.isDirectory (l.locate target) = true := by
    rw [h.rooted.2.locate_eq, h.alike.right.isDirectory_iff ht]
    exact hdir'
  have hrevised := h.revise hhosts
  have hkept : (k.revise (k.planFileMove source target)).1.index = k.index ∧
      (k.revise (k.planFileMove source target)).1.project = k.project ∧
      (l.revise (k.planFileMove source target)).1.project = l.project := ⟨rfl, rfl, rfl⟩
  unfold Keeper.onMoved
  rw [if_neg hnotdir, if_neg hnotdir', hplan]
  generalize k.revise (k.planFileMove source target) = first at hkept hrevised ⊢
  generalize l.revise (k.planFileMove source target) = second at hkept hrevised ⊢
  obtain ⟨k', report⟩ := first
  obtain ⟨l', report'⟩ := second
  obtain ⟨htwins, habreast, hnames, hfiles⟩ := hrevised
  obtain ⟨hindex, hproject, hproject'⟩ := hkept
  dsimp only [RevisionReport.revised] at htwins habreast hnames hfiles hindex hproject hproject' ⊢
  -- what is expected of the target is what was expected before, if the trees differ there
  have hexp : l'.expected target = k'.expected target := by
    by_cases ha : apart target
    · rw [h.rooted.1.expected_congr htwins.rooted.1 hproject fun hp => habreast.left target hp ha,
        h.rooted.2.expected_congr htwins.rooted.2 hproject' fun hp => habreast.right target hp ha,
        htarget]
    · exact htwins.expected ha
  rw [refile_eq, refile_eq, hnames, htwins.index, hindex]
  dsimp only
  generalize k.index.rekey source target = filed at hstale ⊢
  obtain ⟨ix, moved⟩ := filed
  dsimp only at hstale ⊢
  have hforgotten : ∀ next : Keeper, SameTree next (({ next with index := ix } : Keeper).forget source) ∧
      (({ next with index := ix } : Keeper).forget source).index = ix.removeSource source :=
    fun next => ⟨⟨rfl, rfl⟩, rfl⟩
  obtain ⟨hk, hkindex⟩ := hforgotten k'
  obtain ⟨hl, hlindex⟩ := hforgotten l'
  generalize ({ k' with index := ix } : Keeper).forget source = k'' at hk hkindex ⊢
  generalize ({ l' with index := ix } : Keeper).forget source = l'' at hl hlindex ⊢
  have hpaths : ∀ path ∈ target :: (nameSet (report.files.map (·.1) ++ moved)).filter
      (fun file => file != source && file != target),
      Proper path ∧ l''.expected path = k''.expected path := by
    intro path hpath
    rw [hk.expected, hl.expected]
    rcases List.mem_cons.mp hpath with rfl | hpath
    · exact ⟨ht, hexp⟩
    · obtain ⟨hname, hne⟩ := List.mem_filter.mp hpath
      have hclear : Proper path ∧ ¬ apart path := by
        rcases List.mem_append.mp (mem_nameSet.mp hname) with hfile | hfile
        · exact hfiles path hfile
        · have hother : path ≠ source ∧ path ≠ target := by simpa using hne
          exact hstale path hfile hother.1 hother.2
      exact ⟨hclear.1, htwins.expected hclear.2⟩
  obtain ⟨hk', hl', hsame⟩ := foldl_reread_congr
    (by rw [hk.project, hl.project, htwins.project]) (hlindex.trans hkindex.symm) hpaths
  rw [List.foldl_cons] at hk' hl' hsame
  have hkall := hk.trans hk'
  have hlall := hl.trans hl'
  refine ⟨⟨?_, hsame, ?_, ?_⟩, ?_⟩
  · exact hlall.project.trans (htwins.project.trans hkall.project.symm)
  · exact (congrArg Project.root hkall.project).trans htwins.located
  · rw [tree_note, tree_note, hkall.tree, hlall.tree]
    exact htwins.alike
  · rw [tree_note, tree_note, hkall.tree, hlall.tree]
    exact habreast

/-! ## One answer behind -/

/--
A second rename, from `again` to `last`, is out of the way of the answer to a first one, from
`source` to `target`: nothing that this answer looks at, reads or writes is touched by it.
-/
structure OutOfTheWay (k : Keeper) (root : Spine) (once : FileTree)
    (source target again last : String) : Prop where
  /-- What the first rename has brought is not overwritten. -/
  spares : last ≠ target
  /-- It may be renamed again if there are no references in it, by its old name or the new one. -/
  resumes : again = target →
    k.index.recordsFrom source = [] ∧ ({ k with tree := once } : Keeper).expected target = []
  /-- There is no link to what the first rename has moved, neither in what the second one moves nor in what it overwrites. -/
  unlinked : ∀ r, k.index.Has r → r.source = again ∨ (r.source = last ∧ last ≠ source) →
    r.rooted ≠ source ∧ r.resolved ≠ source
  /-- And if the links in what the first one has moved are to be kept up, none of them leads to what the second one moves, nor to where it goes unless something was there. -/
  unmet : (k.project.monitors target && k.project.settings.updatesMovedFiles) = true →
    Path.parent source ≠ Path.parent target → ∀ r ∈ k.index.recordsFrom source,
      Path.isRootAbsolute r.targetPath = false →
      r.resolved ≠ again ∧ (r.resolved = last → last ≠ source → once.entryAt root last ≠ none)
  /-- The second rename is not one of backups, if there are any. -/
  unnamed : k.project.settings.backups = true →
    Settings.isOwnName (Path.baseName again) = false ∧
      Settings.isOwnName (Path.baseName last) = false

variable {source target again last path : String} {once behind prompt : FileTree}

/-- The paths that a rename touches. -/
def touched (again last path : String) : Prop := path = again ∨ path = last

theorem not_touches (h : ¬ touched again last path) :
    (Operation.moved again last).touches path = false := by
  obtain ⟨hagain, hlast⟩ := not_or.mp h
  simp [Operation.touches, hagain, hlast]

/-- Nothing is planned for the files of the second rename, nor for what they are backups of. -/
theorem OutOfTheWay.hosts (hclear : k.OutOfTheWay root once source target again last)
    (h : k.InStep) (hs : Proper source) (ht : Proper target) {t : FileTree} :
    ∀ pair ∈ (({ k with tree := t } : Keeper).planFileMove source target).toList,
      Proper pair.1 ∧ ¬ touched again last pair.1 ∧ (k.project.settings.backups = true →
        ¬ touched again last (pair.1 ++ Settings.backupEnding)) := by
  have hbut : ({ k with tree := t } : Keeper).InStepBut fun _ => True :=
    ⟨h.valid, h.settled.mono fun _ hf => hf.elim, h.sources, fun _ hn => absurd trivial hn⟩
  intro pair hpair
  have hp := hbut.proper_planFileMove ht pair hpair
  -- the moved file is a host only if it holds references
  have hhost : k.index.recordsFrom source ≠ [] → ¬ touched again last target := by
    rintro hne (hsame | hsame)
    · exact hne (hclear.resumes hsame.symm).1
    · exact hclear.spares hsame.symm
  refine ⟨hp, ?_, fun hbackups => ?_⟩
  · obtain ⟨hedits, hne⟩ := (full_planFileMove _ source target).edits_ne_nil hpair
    obtain ⟨e, he⟩ := List.exists_mem_of_ne_nil _ hne
    rw [← hedits] at he
    rcases mem_edits_planFileMove.mp he with ⟨r, hr, hfile, hedit⟩ | ⟨-, hfile, r, hr, -⟩
    · have hhas : k.index.Has r := has_of_mem_candidates hr
      have hmeans := (Edit.means_iff hs).mp (Edit.of_inbound? hedit).2
      unfold fileMove at hfile
      dsimp only at hfile
      split at hfile
      · rename_i hsource
        rw [hfile]
        exact hhost (List.ne_nil_of_mem (h.valid.mem_recordsFrom_iff.mpr ⟨hsource, hhas⟩))
      · rename_i hother
        rw [hfile]
        rintro (hsame | hsame)
        · have hun := hclear.unlinked r hhas (.inl hsame)
          exact hmeans.elim hun.1 hun.2
        · have hun := hclear.unlinked r hhas (.inr ⟨hsame, fun he => hother (hsame.trans he)⟩)
          exact hmeans.elim hun.1 hun.2
    · rw [hfile]
      exact hhost (List.ne_nil_of_mem hr)
  · obtain ⟨hagain, hlast⟩ := hclear.unnamed hbackups
    obtain ⟨-, -, hown, -⟩ := hp.backup
    rintro (hsame | hsame)
    · rw [hsame, hagain] at hown
      exact absurd hown (by simp)
    · rw [hsame, hlast] at hown
      exact absurd hown (by simp)

/-- **An answer does not notice a second rename that is out of its way.** -/
theorem OutOfTheWay.onMoved (hclear : k.OutOfTheWay root once source target again last)
    (h : k.InStep) (hr : k.Rooted root)
    (hfirst : TreeStep root k.tree (.moved source target) once)
    (hbehind : TreeStep root once (.moved again last) behind) :
    Twins root (({ k with tree := once } : Keeper).onMoved source target).1
      (({ k with tree := behind } : Keeper).onMoved source target).1 (touched again last) ∧
    Abreast root once behind (touched again last)
      (({ k with tree := once } : Keeper).onMoved source target).1.tree
      (({ k with tree := behind } : Keeper).onMoved source target).1.tree := by
  have honce := hfirst.sound_moved hr.sound
  have htwins : Twins root { k with tree := once } { k with tree := behind }
      (touched again last) :=
    ⟨rfl, rfl, hr.located, honce, hbehind.sound_moved honce, fun path hp hnot =>
      (hbehind.entryAt_eq honce hp (not_touches hnot)).symm⟩
  cases hfirst with
  | @moved _ _ content mode _ hsource htarget there renamed =>
  cases hbehind with
  | @moved _ _ content' mode' _ hagain hlast there' renamed' =>
  have hentry : ∀ path, Proper path → once.entryAt root path = _ := fun path hp =>
    hr.sound.entryAt_moved hsource htarget there renamed hp
  have hentry' : ∀ path, Proper path → behind.entryAt root path = _ := fun path hp =>
    honce.entryAt_moved hagain hlast there' renamed' hp
  refine htwins.onMoved htarget ?_ ?_
    (planFileMove_congr htwins.project htwins.index fun hrepairs r hmem => ?_)
    (hclear.hosts h hsource htarget) ?_ fun s hmem hne _ => ?_
  · intro hdir
    exact absurd ((hentry target htarget).symm.trans hdir) (by simp)
  · intro hdir
    have hbehind := (hentry' target htarget).symm.trans hdir
    rw [hentry target htarget] at hbehind
    split at hbehind
    · exact absurd hbehind (by simp)
    · split at hbehind
      · exact absurd hbehind (by simp)
      · exact absurd hbehind (by simp)
  · -- what a link leads to is there in both trees or in neither
    obtain ⟨hin, -⟩ := h.valid.mem_recordsFrom_iff.mp hmem
    refine (Edit.outbound?_congr fun habsolute hdirs hinside hself => ?_).symm
    have hresolved : r.resolved = Path.resolve (Path.parent source) r.targetPath := by
      rw [Reference.resolved, hin]
    obtain ⟨hmet, hmet'⟩ := hclear.unmet hrepairs hdirs r hmem habsolute
    rw [hresolved] at hmet hmet'
    rw [Keeper.hasPath, Keeper.hasPath, htwins.rooted.1.locate_eq, htwins.rooted.2.locate_eq]
    refine htwins.alike.isThere (Path.normalize_resolve _ _) hinside fun hp htouched => ?_
    have hsame := htouched.resolve_left hmet
    refine ⟨?_, ?_⟩
    · rw [hsame] at hself ⊢
      exact hmet' hsame hself
    · rw [hsame]
      exact fun hnone => absurd ((hentry' last hlast).symm.trans hnone) (by simp)
  · by_cases hsame : again = target
    · have hnone : behind.entryAt root target = none := by
        rw [hentry' target htarget, if_neg (Ne.symm hclear.spares), if_pos hsame.symm]
      rw [(hclear.resumes hsame).2]
      refine htwins.rooted.2.expected_of_not_file fun bytes mode => ?_
      rw [hnone]
      simp
    · exact htwins.expected fun htouched =>
        htouched.elim (fun he => hsame he.symm) fun he => hclear.spares he.symm
  · obtain ⟨r, hhas, rfl, hrooted⟩ := h.valid.of_mem_rekey h.settled hmem
    refine ⟨h.proper_source hhas, ?_⟩
    rw [hsource.normal] at hrooted
    rintro (hsame | hsame)
    · exact (hclear.unlinked r hhas (.inl hsame)).1 hrooted
    · exact (hclear.unlinked r hhas (.inr ⟨hsame, fun he => hne (hsame.trans he)⟩)).1 hrooted

/-- Beside the log an operation does what its answer does. -/
theorem sameTree_apply (k : Keeper) (op : Operation) :
    SameTree (({ k with log := [] } : Keeper).answer op).1 (k.apply op).1 ∧
      (k.apply op).1.index = (({ k with log := [] } : Keeper).answer op).1.index := by
  unfold Keeper.apply
  dsimp only
  generalize ({ k with log := [] } : Keeper).answer op = answer
  obtain ⟨done, report⟩ := answer
  exact ⟨⟨rfl, rfl⟩, rfl⟩

theorem Twins.apply {op : Operation}
    (h : Twins root (({ k with log := [] } : Keeper).answer op).1
      (({ l with log := [] } : Keeper).answer op).1 apart) :
    Twins root (k.apply op).1 (l.apply op).1 apart := by
  obtain ⟨hk, hkindex⟩ := sameTree_apply k op
  obtain ⟨hl, hlindex⟩ := sameTree_apply l op
  refine ⟨?_, ?_, ?_, ?_⟩
  · exact hl.project.trans (h.project.trans hk.project.symm)
  · exact hlindex.trans (h.index.trans hkindex.symm)
  · exact (congrArg Project.root hk.project).trans h.located
  · rw [hk.tree, hl.tree]
    exact h.alike

/-- Once the second rename has happened in both trees they are alike. -/
theorem Abreast.caught_up {t u : FileTree}
    (hbehind : TreeStep root once (.moved again last) behind) (honce : once.Sound root)
    (hab : Abreast root once behind (touched again last) t u)
    (hprompt : TreeStep root t (.moved again last) prompt) :
    AlikeBut root prompt u fun _ => False := by
  refine ⟨hprompt.sound_moved hab.alike.left, hab.alike.right, fun path hp _ => ?_⟩
  cases hbehind with
  | @moved _ _ content mode _ hagain hlast there renamed =>
  cases hprompt with
  | @moved _ _ content' mode' _ _ _ there' renamed' =>
  rw [hab.alike.left.entryAt_moved hagain hlast there' renamed' hp]
  by_cases htouched : touched again last path
  · rw [hab.right path hp htouched, honce.entryAt_moved hagain hlast there renamed hp]
    -- what is renamed now is what was renamed before the answer
    rw [hab.left again hagain (.inl rfl), there] at there'
    obtain ⟨rfl, rfl⟩ := Entry.file.inj (Option.some.inj there')
    rcases htouched with he | he
    · rw [if_pos he, if_pos he]
    · rw [if_pos he, if_pos he]
  · obtain ⟨hne, hne'⟩ := not_or.mp htouched
    rw [if_neg hne', if_neg hne]
    exact hab.alike.same path hp htouched

/-- **Keepers of the same tree and the same index answer a move alike.** -/
theorem Twins.onMoved_of_same (h : Twins root k l fun _ => False) {stale : String → Prop}
    (hbut : k.InStepBut stale) (hsettled : k.index.Settled)
    (ht : Proper target) (hdir : k.tree.entryAt root target ≠ some .directory) :
    Twins root (k.onMoved source target).1 (l.onMoved source target).1 fun _ => False := by
  have hdir' : l.tree.entryAt root target ≠ some .directory := by
    rw [← h.alike.same target ht not_false]
    exact hdir
  refine (h.onMoved ht hdir hdir' (planFileMove_congr h.project h.index fun _ r _ => ?_) (fun pair hpair => ?_)
    (h.expected not_false) fun s hmem _ _ => ?_).1
  · refine Edit.outbound?_congr fun _ _ hinside _ => ?_
    rw [Keeper.hasPath, Keeper.hasPath, h.rooted.1.locate_eq, h.rooted.2.locate_eq]
    exact (h.alike.isThere (Path.normalize_resolve _ _) hinside fun _ hf => hf.elim).symm
  · exact ⟨hbut.proper_planFileMove ht pair hpair, not_false, fun _ => not_false⟩
  · obtain ⟨r, hhas, rfl, -⟩ := hbut.valid.of_mem_rekey hsettled hmem
    exact ⟨hbut.proper_source hhas, not_false⟩

/-- After both answers the keepers are twins, whichever came first, the second rename or the first answer. -/
theorem InStep.twins_of_both (h : k.InStep) (hr : k.Rooted root)
    (hfirst : TreeStep root k.tree (.moved source target) once)
    (hbehind : TreeStep root once (.moved again last) behind)
    (hprompt : TreeStep root (({ k with tree := once } : Keeper).apply (.moved source target)).1.tree
      (.moved again last) prompt)
    (hclear : k.OutOfTheWay root once source target again last) :
    let inTime := ({ (({ k with tree := once } : Keeper).apply (.moved source target)).1 with
      tree := prompt } : Keeper).apply (.moved again last)
    let late := ((({ k with tree := behind } : Keeper).apply (.moved source target)).1).apply
      (.moved again last)
    Twins root inTime.1 late.1 fun _ => False := by
  have honce := hfirst.sound_moved hr.sound
  have hquiet : ({ k with log := [] } : Keeper).InStep := h.of_index ⟨rfl, rfl⟩ rfl
  have hr' : ({ k with log := [] } : Keeper).Rooted root := ⟨hr.located, hr.sound⟩
  have hclear' : ({ k with log := [] } : Keeper).OutOfTheWay root once source target again last :=
    ⟨hclear.spares, hclear.resumes, hclear.unlinked, hclear.unmet, hclear.unnamed⟩
  obtain ⟨htwins, hab⟩ := hclear'.onMoved hquiet hr' hfirst hbehind
  have hanswered := hquiet.answer_moved hr' hfirst honce
  -- the first rename has been answered
  obtain ⟨hsame, hindex⟩ := sameTree_apply { k with tree := once } (.moved source target)
  obtain ⟨hsame', -⟩ := sameTree_apply { k with tree := behind } (.moved source target)
  have hfirsts : Twins root (({ k with tree := once } : Keeper).apply (.moved source target)).1
      (({ k with tree := behind } : Keeper).apply (.moved source target)).1 (touched again last) :=
    Twins.apply htwins
  have hstep : (({ k with tree := once } : Keeper).apply (.moved source target)).1.InStep :=
    hanswered.inStep.of_index hsame hindex
  have habreast : Abreast root once behind (touched again last)
      (({ k with tree := once } : Keeper).apply (.moved source target)).1.tree
      (({ k with tree := behind } : Keeper).apply (.moved source target)).1.tree := by
    rw [hsame.tree, hsame'.tree]
    exact hab
  generalize (({ k with tree := once } : Keeper).apply (.moved source target)).1 = answered
    at hprompt hfirsts hstep habreast ⊢
  generalize (({ k with tree := behind } : Keeper).apply (.moved source target)).1 = answered'
    at hfirsts habreast ⊢
  intro inTime late
  -- now the second one has happened in both trees
  have hrooted : answered.Rooted root := hfirsts.rooted.1
  obtain ⟨-, hbut⟩ := hstep.withTree hrooted hprompt (hprompt.sound_moved hrooted.sound)
  have hseconds : Twins root { answered with tree := prompt, log := [] }
      { answered' with log := [] } fun _ => False :=
    ⟨hfirsts.project, hfirsts.index, hfirsts.located, Abreast.caught_up hbehind honce habreast hprompt⟩
  have hquietBut : ({ answered with tree := prompt, log := [] } : Keeper).InStepBut
      fun s => (Operation.moved again last).touches s = true := hbut.of_index ⟨rfl, rfl⟩ rfl
  cases hprompt with
  | moved hagain hlast there renamed =>
  have hdir : prompt.entryAt root last ≠ some .directory := by
    rw [hrooted.sound.entryAt_moved hagain hlast there renamed hlast, if_pos rfl]
    simp
  exact Twins.apply (hseconds.onMoved_of_same hquietBut hstep.settled hlast hdir)

/-! ## Two renames -/

/-- A file is renamed, and there is no answer yet. -/
def afterRename (k : Keeper) (source target : String) : Keeper :=
  { k with tree := (k.tree.rename (k.locate source) (k.locate target)).toOption.getD k.tree }

theorem withTree_afterRename (k : Keeper) (source target : String) :
    ({ k with tree := (k.afterRename source target).tree } : Keeper) =
      k.afterRename source target := rfl

theorem withTree_afterRename_twice (k : Keeper) (source target again last : String) :
    ({ k with tree := ((k.afterRename source target).afterRename again last).tree } : Keeper) =
      (k.afterRename source target).afterRename again last := rfl

/-- Two renames, the first of which is answered before the second happens, and what went wrong. -/
def answersInTime (k : Keeper) (source target again last : String) :
    Keeper × List (String × String) :=
  let first := (k.afterRename source target).apply (.moved source target)
  let second := (first.1.afterRename again last).apply (.moved again last)
  (second.1, first.2.revision.failures ++ second.2.revision.failures)

/-- Two renames that are answered when both have happened, and what went wrong. -/
def answersLate (k : Keeper) (source target again last : String) :
    Keeper × List (String × String) :=
  let first := ((k.afterRename source target).afterRename again last).apply (.moved source target)
  let second := first.1.apply (.moved again last)
  (second.1, first.2.revision.failures ++ second.2.revision.failures)

/-- Two renames happen, and the first of them may have been answered before the second one. -/
structure BothRenamed (k : Keeper) (root : Spine) (source target again last : String) : Prop where
  first : TreeStep root k.tree (.moved source target) (k.afterRename source target).tree
  behind : TreeStep root (k.afterRename source target).tree (.moved again last)
    ((k.afterRename source target).afterRename again last).tree
  prompt : TreeStep root ((k.afterRename source target).apply (.moved source target)).1.tree
    (.moved again last)
    (((k.afterRename source target).apply (.moved source target)).1.afterRename again last).tree

/-- Whether a file can be renamed. -/
def canRename (k : Keeper) (root : Spine) (source target : String) : Bool :=
  k.project.root == location root
    && (k.tree.entryAt root source).any (fun entry => !entry.isDirectory && !entry.isLink)
    && (k.tree.rename (k.locate source) (k.locate target)).isOk

theorem treeStep_afterRename (hs : Proper source) (ht : Proper target)
    (hcan : k.canRename root source target = true) :
    TreeStep root k.tree (.moved source target) (k.afterRename source target).tree := by
  obtain ⟨⟨hroot, hfile⟩, hok⟩ := by
    simpa only [canRename, Bool.and_eq_true, beq_iff_eq] using hcan
  obtain ⟨entry, hentry, hplain⟩ := (Option.any_eq_true _ _).mp hfile
  have hrenamed := eq_ok_of_isOk hok k.tree
  rw [Keeper.locate, Keeper.locate, Project.locate, Project.locate, hroot] at hrenamed
  cases entry with
  | directory => exact absurd hplain (by simp [Entry.isDirectory])
  | link other => exact absurd hplain (by simp [Entry.isLink])
  | file content mode =>
      refine .moved hs ht hentry (hrenamed.trans ?_)
      rw [afterRename, Keeper.locate, Keeper.locate, Project.locate, Project.locate, hroot]

/-- Three notes, one with a link to its neighbour. -/
def desk : FileTree := ⟨.ofList
  [(["w"], Entry.directory), (["w", "p"], .directory), (["w", "p", "x"], .directory),
    (["w", "y"], .directory), (["w", "e.md"], .file "# E\n".toUTF8 newMode),
    (["w", "p", "x", "a.md"], .file "[c](../x/c.md)\n".toUTF8 newMode),
    (["w", "p", "x", "c.md"], .file "# C\n".toUTF8 newMode)]⟩

def keeperOfDesk : Keeper := (Keeper.make shelfProject desk).scan.1

def scannableDesk : Scannable shelfProject ["w"] :=
  scannableNotes desk (by decide +kernel) (by decide +kernel) (by decide +kernel)

theorem scanned_desk :
    SameTree (Keeper.make shelfProject desk) keeperOfDesk ∧ keeperOfDesk.InStep :=
  scannableDesk.scanned

theorem rooted_keeperOfDesk : keeperOfDesk.Rooted ["w"] := scannableDesk.rooted

end Keeper

end LinkKeeper
