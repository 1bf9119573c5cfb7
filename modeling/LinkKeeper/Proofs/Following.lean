import LinkKeeper.Proofs.Maintaining
import LinkKeeper.Proofs.Rewriting

/-!
# What an answer does to the links of a file

An answer writes to the tree in one go, when it carries out its plan; all that comes after
is about the index. The plan is made from the records, and where the index is in step these
are the references of the files as they stand. So every edit of a plan is for a reference
of its file, and what becomes of the file can be said link by link.
-/

namespace LinkKeeper

open FileTree
open Path (Proper)

namespace Keeper

variable {k : Keeper} {root : Spine} {after : FileTree} {op : Operation} {r : Reference}

/-! ## What an answer writes -/

theorem tree_of_indexFile {next : Keeper} {path : String} {result : Except Fault Nat}
    (h : k.indexFile path = (next, result)) : next.tree = k.tree := by
  have hsame := (sameTree_indexFile k path).tree
  rw [h] at hsame
  exact hsame

theorem tree_reread (k : Keeper) (path : String) : (k.reread path).tree = k.tree := by
  unfold Keeper.reread
  split
  · rfl
  · split
    · rename_i heq
      exact tree_of_indexFile heq
    · rename_i heq
      exact (tree_of_indexFile heq :)

theorem tree_scanFile (state : Keeper × ScanStats) (location : String) :
    (scanFile state location).1.tree = state.1.tree := by
  obtain ⟨k, stats⟩ := state
  unfold Keeper.scanFile
  dsimp only
  split
  · rfl
  · split
    · rfl
    · split
      · rename_i heq
        exact tree_of_indexFile heq
      · rename_i heq
        exact (tree_of_indexFile heq :)

/-- Steps that leave some part of a state alone leave it alone when there are many of them. -/
theorem foldl_keeps {σ α β : Type} {step : σ → α → σ} (part : σ → β)
    (h : ∀ s a, part (step s a) = part s) (l : List α) (s : σ) :
    part (l.foldl step s) = part s := by
  induction l generalizing s with
  | nil => rfl
  | cons a l ih => rw [List.foldl_cons, ih, h]

theorem tree_scanUnder (k : Keeper) (dir : String) : (k.scanUnder dir).1.tree = k.tree := by
  unfold Keeper.scanUnder
  dsimp only
  split
  · rfl
  · rfl
  · exact tree_scanFile _ _
  · exact foldl_keeps (fun state : Keeper × ScanStats => state.1.tree) tree_scanFile _ _

theorem tree_forget (k : Keeper) (path : String) : (k.forget path).tree = k.tree := rfl

theorem tree_refile (state : Keeper × List String) (move : String × String) :
    (Keeper.refile state move).1.tree = state.1.tree := by
  unfold Keeper.refile
  rfl

theorem onDirectoryMoved_writes (k : Keeper) (source target : String) :
    (k.onDirectoryMoved source target).1.tree =
      (k.revise (k.planDirectoryMove source target)).1.tree ∧
    (k.onDirectoryMoved source target).2.revision =
      (k.revise (k.planDirectoryMove source target)).2 := by
  unfold Keeper.onDirectoryMoved
  dsimp only
  refine ⟨?_, rfl⟩
  rw [tree_note, foldl_keeps Keeper.tree tree_reread, tree_scanUnder,
    foldl_keeps Keeper.tree tree_forget,
    foldl_keeps (fun state : Keeper × List String => state.1.tree) tree_refile]

theorem onMoved_writes (k : Keeper) (source target : String)
    (hfile : k.tree.isDirectory (k.locate target) = false) :
    (k.onMoved source target).1.tree = (k.revise (k.planFileMove source target)).1.tree ∧
    (k.onMoved source target).2.revision = (k.revise (k.planFileMove source target)).2 := by
  unfold Keeper.onMoved
  rw [if_neg (by simp [hfile])]
  dsimp only
  refine ⟨?_, rfl⟩
  rw [tree_note, foldl_keeps Keeper.tree tree_reread, tree_reread]
  rfl

theorem onDeleted_writes (k : Keeper) (path : String) :
    (k.onDeleted path).1.tree = k.tree ∧ (k.onDeleted path).2.revision = .empty := by
  unfold Keeper.onDeleted
  dsimp only
  refine ⟨?_, rfl⟩
  rw [tree_note]
  split
  · exact foldl_keeps Keeper.tree tree_forget _ _
  · exact (sameTree_warn _ _ _).tree.trans (foldl_keeps Keeper.tree tree_forget _ _)

theorem tree_onModified (k : Keeper) (path : String) : (k.onModified path).tree = k.tree := by
  unfold Keeper.onModified
  dsimp only
  split
  · rfl
  · split
    · rename_i heq
      exact (tree_of_indexFile heq :)
    · rename_i heq
      exact (tree_of_indexFile heq :)

theorem tree_onCreated (k : Keeper) (path : String) : (k.onCreated path).tree = k.tree := by
  unfold Keeper.onCreated
  dsimp only
  split
  · exact tree_scanUnder k path
  · split
    · rfl
    · split
      · rename_i heq
        exact (tree_of_indexFile heq :)
      · rename_i heq
        exact (tree_of_indexFile heq :)

/-- A plan that names no file changes nothing. -/
theorem revise_of_toList_eq_nil (k : Keeper) {plan : EditPlan} (h : plan.toList = []) :
    (k.revise plan).1.tree = k.tree ∧ (k.revise plan).2 = .empty := by
  unfold Keeper.revise LinkKeeper.reviseAll
  rw [h]
  exact ⟨rfl, rfl⟩

theorem revise_empty (k : Keeper) :
    (k.revise ∅).1.tree = k.tree ∧ (k.revise ∅).2 = .empty :=
  k.revise_of_toList_eq_nil rfl

/--
**What an operation writes is its plan.** The tree after an answer is the one that carrying out
the preview makes, and so is the report. A file that has moved must not be a directory there.
-/
theorem apply_writes (k : Keeper) (op : Operation)
    (hfile : ∀ source target, op = .moved source target →
      k.tree.isDirectory (k.locate target) = false) :
    (k.apply op).1.tree = (k.revise (k.preview op)).1.tree ∧
      (k.apply op).2.revision = (k.revise (k.preview op)).2 := by
  have hanswer : (({ k with log := [] } : Keeper).answer op).1.tree =
        (k.revise (k.preview op)).1.tree ∧
      (({ k with log := [] } : Keeper).answer op).2.revision =
        (k.revise (k.preview op)).2 := by
    cases op with
    | created path =>
        obtain ⟨htree, hreport⟩ := k.revise_empty
        exact ⟨(tree_onCreated _ path).trans htree.symm, hreport.symm⟩
    | deleted path =>
        obtain ⟨htree, hreport⟩ := k.revise_empty
        have hdeleted := onDeleted_writes { k with log := [] } path
        exact ⟨hdeleted.1.trans htree.symm, hdeleted.2.trans hreport.symm⟩
    | modified path =>
        obtain ⟨htree, hreport⟩ := k.revise_empty
        exact ⟨(tree_onModified _ path).trans htree.symm, hreport.symm⟩
    | moved source target => exact onMoved_writes { k with log := [] } source target (hfile _ _ rfl)
    | directoryMoved source target => exact onDirectoryMoved_writes { k with log := [] } source target
  exact hanswer

/-! ## What the index knows of a file -/

/-- The references of a file that is in step are those of its text, and the records of it are among them. -/
theorem InStepBut.content {stale : String → Prop} (h : k.InStepBut stale) (hr : k.Rooted root)
    (hhas : k.index.Has r) (hfresh : ¬ stale r.source) :
    ∃ content, ReadsAs root k.tree k.project.settings.lenientText r.source content ∧
      ∀ q, k.index.Has q → q.source = r.source →
        q ∈ (Links.find k.project.rule r.source content).references := by
  have hexpected : ∀ q, k.index.Has q → q.source = r.source → q ∈ k.parsed r.source := by
    intro q hq hs
    have hmem := h.valid.mem_recordsFrom_iff.mpr ⟨hs, hq⟩
    have hsource := h.sources r.source (List.ne_nil_of_mem hmem)
    rw [h.current r.source hfresh, expected, if_pos hsource] at hmem
    exact hmem
  cases hread : k.tree.readText (k.locate r.source) k.project.settings.lenientText with
  | error fault =>
      have hmem := hexpected r hhas rfl
      rw [parsed_of_error hread] at hmem
      exact absurd hmem (by simp)
  | ok content =>
      rw [parsed_of_ok hread] at hexpected
      rw [hr.locate_eq] at hread
      exact ⟨content, hread, fun q hq hs => (List.mem_filter.mp (hexpected q hq hs)).1⟩

theorem InStep.content (h : k.InStep) (hr : k.Rooted root) (hhas : k.index.Has r) :
    ∃ content, ReadsAs root k.tree k.project.settings.lenientText r.source content ∧
      ∀ q, k.index.Has q → q.source = r.source →
        q ∈ (Links.find k.project.rule r.source content).references :=
  InStepBut.content h hr hhas not_false

/-- No two records of an index in step have one place. -/
theorem InStep.eq_of_place (h : k.InStep) (hr : k.Rooted root) {q : Reference}
    (hhas : k.index.Has r) (hq : k.index.Has q) (hplace : q.place = r.place) : q = r := by
  obtain ⟨content, -, hmem⟩ := h.content hr hhas
  have hsource : q.source = r.source := congrArg Prod.fst hplace
  have hline : q.line = r.line := congrArg (fun place => place.2.1) hplace
  have hcolumn : q.columnStart = r.columnStart := congrArg (fun place => place.2.2) hplace
  exact (Links.laid_find k.project.rule r.source content).eq_of_place (hmem q hq hsource)
    (hmem r hhas rfl) hline hcolumn

theorem InStepBut.monitors_source {stale : String → Prop} (h : k.InStepBut stale)
    (hhas : k.index.Has r) : k.project.monitors r.source = true := by
  have hmem := h.valid.mem_recordsFrom_iff.mpr ⟨rfl, hhas⟩
  exact (isSource_iff.mp (h.sources r.source (List.ne_nil_of_mem hmem))).2

theorem InStep.source_not_own (h : k.InStep) (hhas : k.index.Has r) :
    Settings.isOwnName (Path.baseName r.source) = false := by
  have hmonitored := InStepBut.monitors_source h hhas
  cases hown : Settings.isOwnName (Path.baseName r.source) with
  | false => rfl
  | true =>
      rw [monitors_of_isOwnName hown] at hmonitored
      exact absurd hmonitored (by simp)

/--
A reference of a file and what has become of it: in another tree a file reads as this one
did but for its links, and at the place of the reference it has this link.
-/
def Becomes (k : Keeper) (root : Spine) (r : Reference) (done : FileTree) (host new : String) :
    Prop :=
  ∃ (content text : String) (link : Reference → String),
    ReadsAs root k.tree k.project.settings.lenientText r.source content ∧
    r ∈ (Links.find k.project.rule r.source content).references ∧
    ReadsAs root done k.project.settings.lenientText host text ∧
    Relinked link (Links.find k.project.rule r.source content).references content text ∧
    link r = new

/--
**What becomes of a link.** A file that stands in a changed tree where the plan expects it, and
whose edits are all for references that it had, gets at each of these the link of an edit, or
keeps the old one.
-/
theorem InStep.becomes (h : k.InStep) (hr : k.Rooted root) (hhas : k.index.Has r)
    {t : FileTree} (ht : t.Sound root) {host : String} (hp : Proper host)
    (hown : Settings.isOwnName (Path.baseName host) = false)
    (hsame : t.entryAt root host = k.tree.entryAt root r.source) {plan : EditPlan}
    (hplan : ∀ pair ∈ plan.toList, Proper pair.1)
    (hfor : ∀ e ∈ plan.edits host, ∃ q, k.index.Has q ∧ q.source = r.source ∧ e.IsFor q) :
    ∃ new, k.Becomes root r (({ k with tree := t } : Keeper).revise plan).1.tree host new ∧
      ((∃ e ∈ plan.edits host, e.IsFor r ∧ new = e.replacement) ∨
        (new = r.target ∧ (k.project.settings.dryRun = true ∨
          (∀ e ∈ plan.edits host, ¬ e.IsFor r) ∨
          (({ k with tree := t } : Keeper).revise plan).2.failures ≠ []))) := by
  obtain ⟨content, hread, hmem⟩ := h.content hr hhas
  have hread' : ReadsAs root t k.project.settings.writing.lenient host content :=
    hread.congr hr.sound ht (h.proper_source hhas) hp hsame
  have hlaid := Links.laid_find k.project.rule r.source content
  have hreferences : ∀ e ∈ plan.edits host,
      ∃ q ∈ (Links.find k.project.rule r.source content).references, e.IsFor q := by
    intro e he
    obtain ⟨q, hq, hsource, hqe⟩ := hfor e he
    exact ⟨q, hmem q hq hsource, hqe⟩
  obtain ⟨text, link, hdone, hrelinked, hlink⟩ :=
    hread'.relinked ht hp hown hplan hlaid hreferences
  have hrevise : (({ k with tree := t } : Keeper).revise plan).1.tree =
        (LinkKeeper.reviseAll (location root) k.project.settings.writing t plan).tree ∧
      (({ k with tree := t } : Keeper).revise plan).2 =
        (LinkKeeper.reviseAll (location root) k.project.settings.writing t plan).report := by
    rw [← hr.located]
    exact ⟨rfl, rfl⟩
  refine ⟨link r, ⟨content, text, link, hread, hmem r hhas rfl, ?_, hrelinked, rfl⟩, ?_⟩
  · rw [hrevise.1]
    exact hdone
  · rw [hrevise.2]
    rcases hlink with rfl | ⟨rfl, hwhy⟩
    · exact (Edit.linkOf_for hlaid hreferences (hmem r hhas rfl)).imp_right fun hnone =>
        ⟨hnone.2, .inr (.inl hnone.1)⟩
    · exact .inr ⟨rfl, hwhy.imp_right .inr⟩

end Keeper

end LinkKeeper
