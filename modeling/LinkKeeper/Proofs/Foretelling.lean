import LinkKeeper.Proofs.Carrying
import LinkKeeper.Proofs.Foreseeing

/-!
# What a dry run foretells

A dry run of a move plans in the tree as it is, and the move itself plans once everything is in
its new place. Where a move is foreseeable the plans are one, and the move then carries out what
the dry run has listed: every file of the plan is one that was there, its links are replaced as
the plan says, of the edits for one place the first counts, and all else stays.
-/

namespace LinkKeeper

open FileTree
open Path (spine Proper)

/-! ## Edits for different places -/

namespace Edit

/-- No two edits are for one place. -/
def Scattered (edits : List Edit) : Prop := edits.Pairwise fun a b => startsAt a b = false

theorem distinct_eq {edits : List Edit} (h : Scattered edits) : distinct edits = edits := by
  induction edits with
  | nil => rfl
  | cons e rest ih =>
      rw [distinct, ih h.of_cons]
      cases rest with
      | nil => rfl
      | cons f others =>
          dsimp only
          rw [List.rel_of_pairwise_cons h List.mem_cons_self, if_neg (by simp)]

theorem length_ordered {edits : List Edit} (h : Scattered edits) :
    (ordered edits).length = edits.length := by
  have hsymm : ∀ {a b : Edit}, startsAt a b = false → startsAt b a = false := by
    intro a b hab
    rw [← hab, startsAt, startsAt, BEq.comm, BEq.comm (a := b.columnStart)]
  have hsorted : Scattered (edits.mergeSort laterFirst) :=
    (List.mergeSort_perm edits laterFirst).symm.pairwise h fun hab => hsymm hab
  rw [ordered, distinct_eq hsorted, List.length_mergeSort]

end Edit

namespace EditPlan

/-- For how many places a plan has edits. -/
def placed (plan : EditPlan) : Nat := ((counted plan.toList).map (·.2)).foldr (· + ·) 0

theorem placed_eq_total {plan : EditPlan} (h : ∀ file, Edit.Scattered (plan.edits file)) :
    plan.placed = plan.total := by
  have hlength : (counted plan.toList).map (·.2) = plan.values.map List.length := by
    rw [counted, List.map_map, values_eq_map, List.map_map]
    refine List.map_congr_left fun pair hpair => Edit.length_ordered ?_
    have hedits : plan.edits pair.1 = pair.2 := by
      rw [edits, Std.TreeMap.mem_toList_iff_getElem?_eq_some.mp hpair]
      rfl
    exact hedits ▸ h pair.1
  rw [placed, total, hlength]

end EditPlan

/-! ## The plan, carried out -/

namespace Keeper

variable {k : Keeper} {root : Spine} {op : Operation} {held after : FileTree} {r : Reference}

/-- Whether a backup is made under a path when a plan is carried out. -/
def BacksUp (k : Keeper) (plan : EditPlan) (path : String) : Prop :=
  k.project.settings.backups = true ∧
    ∃ pair ∈ plan.toList, path = pair.1 ++ Settings.backupEnding

/-- Every edit of a plan is for a record of the index, in the file that this is carried to. -/
theorem host_of_mem_preview (hvalid : k.index.Valid) {file : String} {e : Edit}
    (he : e ∈ (k.preview op).edits file) :
    ∃ q, k.index.Has q ∧ op.placeOf q.source = file ∧ e.IsFor q := by
  cases op with
  | moved source target =>
      rcases mem_edits_planFileMove.mp he with ⟨r, hr, hfile, hedit⟩ | ⟨-, hfile, r, hr, hedit⟩
      · exact ⟨r, has_of_mem_candidates hr, hfile.symm, (Edit.of_inbound? hedit).1⟩
      · obtain ⟨hsource, hhas⟩ := hvalid.mem_recordsFrom_iff.mp hr
        refine ⟨r, hhas, ?_, Edit.isFor_of_outbound? hedit⟩
        rw [Operation.placeOf, if_pos hsource, hfile]
  | directoryMoved source target =>
      rcases mem_edits_planDirectoryMove.mp he with
        ⟨old, -, new, -, r, hr, hfile, hedit⟩ | ⟨-, moved, -, hfile, r, hr, -, hedit⟩
      · exact ⟨r, Index.has_of_mem_lookup hr, hfile.symm, (Edit.of_inbound? hedit).1⟩
      · obtain ⟨hsource, hhas⟩ := hvalid.mem_recordsFrom_iff.mp hr
        refine ⟨r, hhas, ?_, Edit.isFor_of_outbound? hedit⟩
        rw [Operation.placeOf, hsource, hfile, Option.getD_some]
  | created path | deleted path | modified path =>
      exact absurd he (by rw [Keeper.preview, EditPlan.edits_empty]; simp)

/-- The edits that a plan has for a file are for the links of a file that is carried there. -/
structure MeantFor (k : Keeper) (root : Spine) (op : Operation) (file : String)
    (edits : List Edit) (path content : String) : Prop where
  proper : Proper path
  monitored : k.project.monitors path = true
  carried : op.placeOf path = file
  reads : ReadsAs root k.tree k.project.settings.lenientText path content
  meant : ∀ e ∈ edits, ∃ r ∈ (Links.find k.project.rule path content).references, e.IsFor r

/-- What a move is planned from: an index that has for a file all that is found there or nothing. -/
structure Poised (k : Keeper) (root : Spine) (op : Operation) (source target : String) :
    Prop where
  rooted : k.Rooted root
  inStep : k.InStepBut fun s => k.index.recordsFrom s = []
  properSource : Proper source
  properTarget : Proper target
  isMove : op = .moved source target ∨ op = .directoryMoved source target
  free : k.tree.entryAt root op.path = none

variable {source target file : String}

/-- No two paths are carried to one place. -/
theorem Poised.eq_of_placeOf (h : k.Poised root op source target) {a b : String} (ha : Proper a)
    (hb : Proper b) (hathere : k.tree.entryAt root a ≠ none)
    (hbthere : k.tree.entryAt root b ≠ none) (hplace : op.placeOf a = op.placeOf b) : a = b := by
  have hs := h.properSource
  have ht := h.properTarget
  have hfree := h.free
  rcases h.isMove with rfl | rfl
  · unfold Operation.placeOf at hplace
    dsimp only [Operation.path] at hplace hfree
    split at hplace <;> split at hplace
    · rename_i hsource hsource'
      rw [hsource, hsource']
    · exact absurd hfree (hplace ▸ hbthere)
    · exact absurd hfree (hplace ▸ hathere)
    · exact hplace
  · have hnothing : ∀ {old new : String}, Proper old → k.tree.entryAt root new ≠ none → Proper new →
        Path.rebase? old source target ≠ some new := by
      intro old new hold hthere hnew hrebase
      refine hthere ?_
      by_cases hsame : new = target
      · rw [hsame]
        exact hfree
      · exact entryAt_below h.rooted.sound ht hnew (by rw [Operation.path] at hfree; simp [hfree])
          (Path.isUnder_of_rebase? hold.normal hs ht hrebase).2 hsame
    unfold Operation.placeOf at hplace
    dsimp only at hplace
    cases hra : Path.rebase? a source target with
    | none =>
        cases hrb : Path.rebase? b source target with
        | none => rwa [hra, hrb] at hplace
        | some new =>
            rw [hra, hrb, Option.getD_none, Option.getD_some] at hplace
            exact absurd (hplace ▸ hrb) (hnothing hb hathere ha)
    | some new =>
        cases hrb : Path.rebase? b source target with
        | none =>
            rw [hra, hrb, Option.getD_none, Option.getD_some] at hplace
            exact absurd (hplace ▸ hra) (hnothing ha hbthere hb)
        | some other =>
            rw [hra, hrb, Option.getD_some, Option.getD_some] at hplace
            exact Path.rebase?_injective ha.normal hb.normal hs ht hra (hplace ▸ hrb)

/-- What is carried has a path where it goes. -/
theorem Poised.proper_placeOf (h : k.Poised root op source target) {path : String}
    (hp : Proper path) : Proper (op.placeOf path) := by
  rcases h.isMove with rfl | rfl
  · unfold Operation.placeOf
    dsimp only
    split
    · exact h.properTarget
    · exact hp
  · unfold Operation.placeOf
    dsimp only
    cases hnew : Path.rebase? path source target with
    | none => exact hp
    | some new =>
        obtain ⟨-, -, -, hproper⟩ := Path.rebase?_eq_some hp.normal h.properSource h.properTarget hnew
        exact hproper

theorem Poised.full (h : k.Poised root op source target) : (k.preview op).Full := by
  rcases h.isMove with rfl | rfl
  · exact full_planFileMove k source target
  · exact full_planDirectoryMove k source target

theorem Poised.proper (h : k.Poised root op source target) :
    ∀ pair ∈ (k.preview op).toList, Proper pair.1 := by
  rcases h.isMove with rfl | rfl
  · exact h.inStep.proper_planFileMove h.properTarget
  · exact h.inStep.proper_planDirectoryMove h.properSource h.properTarget

/-- **The edits of a plan are for links of its files.** -/
theorem Poised.meantFor (h : k.Poised root op source target)
    (hne : (k.preview op).edits file ≠ []) :
    ∃ path content, k.MeantFor root op file ((k.preview op).edits file) path content := by
  have hcontent : ∀ r, k.index.Has r → ∃ content,
      ReadsAs root k.tree k.project.settings.lenientText r.source content ∧
      ∀ q, k.index.Has q → q.source = r.source →
        q ∈ (Links.find k.project.rule r.source content).references := fun r hhas =>
    h.inStep.content h.rooted hhas
      (List.ne_nil_of_mem (h.inStep.valid.mem_recordsFrom_iff.mpr ⟨rfl, hhas⟩))
  obtain ⟨e, he⟩ := List.exists_mem_of_ne_nil _ hne
  obtain ⟨r, hhas, hplace, -⟩ := host_of_mem_preview h.inStep.valid he
  obtain ⟨content, hread, hmem⟩ := hcontent r hhas
  have hp := h.inStep.proper_source hhas
  refine ⟨r.source, content, hp, h.inStep.monitors_source hhas, hplace, hread, fun f hf => ?_⟩
  obtain ⟨q, hq, hplace', hfor⟩ := host_of_mem_preview h.inStep.valid hf
  obtain ⟨other, hread', -⟩ := hcontent q hq
  have hp' := h.inStep.proper_source hq
  have hsource : q.source = r.source :=
    h.eq_of_placeOf hp' hp (hread'.there h.rooted.sound hp') (hread.there h.rooted.sound hp)
      (hplace'.trans hplace.symm)
  exact ⟨q, hmem q hq hsource, hfor⟩

theorem Poised.of_mem_toList (h : k.Poised root op source target) {edits : List Edit}
    (hpair : (file, edits) ∈ (k.preview op).toList) :
    edits ≠ [] ∧ ∃ path content, k.MeantFor root op file edits path content := by
  obtain ⟨hedits, hne⟩ := h.full.edits_ne_nil hpair
  exact ⟨hne, hedits ▸ h.meantFor (hedits ▸ hne)⟩

theorem MeantFor.not_lock {edits : List Edit} {path content : String}
    (h : k.MeantFor root op file edits path content) : path ≠ lockFileName := by
  rintro rfl
  exact Bool.noConfusion (h.monitored.symm.trans k.project.monitors_lockFileName)

/-- After the move each file of the plan reads as the file did that is carried there. -/
theorem Poised.fresh (h : k.Poised root op source target)
    (hheld : Lock.Held root k.tree held) (hmoved : Relocated root held op op.path after) :
    Fresh root after k.project.settings.writing (k.preview op).toList := by
  rintro ⟨file, edits⟩ hpair
  obtain ⟨hne, path, content, hmeant⟩ := h.of_mem_toList hpair
  have hp := h.proper _ hpair
  have hsame := hmoved.entryAt_placeOf hheld h.free hmeant.proper hmeant.not_lock
    (hmeant.reads.there h.rooted.sound hmeant.proper)
  rw [hmeant.carried] at hsame
  exact ⟨hp, hne, content, _, hmeant.reads.congr h.rooted.sound hmoved.sound hmeant.proper hp hsame,
    Links.laid_find _ _ _, hmeant.meant⟩

/-- No file of the plan is taken for a backup, unless it is the one that was moved. -/
theorem Poised.not_backsUp (h : k.Poised root op source target)
    (hbackup : ¬ k.BacksUp (k.preview op) op.path)
    (hne : (k.preview op).edits file ≠ []) : ¬ k.BacksUp (k.preview op) file := by
  rintro ⟨hon, pair, hpair, rfl⟩
  obtain ⟨path, content, hmeant⟩ := h.meantFor hne
  have hown := (h.proper pair hpair).backup.2.2.1
  have hplain : Settings.isOwnName (Path.baseName path) ≠ true := fun hown' =>
    Bool.noConfusion (hmeant.monitored.symm.trans (monitors_of_isOwnName hown'))
  have hnotpath : op.placeOf path ≠ op.path := by
    rw [hmeant.carried]
    exact fun hsame => hbackup ⟨hon, pair, hpair, hsame.symm⟩
  -- beside the file that was moved, what is carried keeps its name
  have hname : Path.baseName (op.placeOf path) = Path.baseName path := by
    rcases h.isMove with rfl | rfl
    · unfold Operation.placeOf at hnotpath ⊢
      dsimp only at hnotpath ⊢
      split
      · rename_i hsource
        rw [if_pos hsource] at hnotpath
        exact absurd rfl hnotpath
      · rfl
    · unfold Operation.placeOf at hnotpath ⊢
      dsimp only at hnotpath ⊢
      cases hnew : Path.rebase? path source target with
      | none => rfl
      | some new =>
          refine Path.baseName_rebased h.properSource h.properTarget hmeant.proper ?_ hnew
          rintro rfl
          rw [hnew, Option.getD_some] at hnotpath
          have htarget : Path.rebase? path path target = some target := by
            rw [Path.rebase?, if_pos (beq_self_eq_true path)]
          exact hnotpath (Option.some.inj (hnew.symm.trans htarget))
  rw [← hmeant.carried, hname] at hown
  exact hplain hown

theorem Poised.separate (h : k.Poised root op source target)
    (hbackup : ¬ k.BacksUp (k.preview op) op.path) :
    Separate k.project.settings.writing (k.preview op).toList := by
  refine separate_of_no_backups fun hon pair hpair other hother heq => ?_
  obtain ⟨hedits, hne⟩ := h.full.edits_ne_nil hother
  exact h.not_backsUp hbackup (hedits ▸ hne) ⟨hon, pair, hpair, heq⟩

/-- What a plan does to what is carried somewhere: its links are replaced as the plan says, no more. -/
structure CarriedOut (k : Keeper) (root : Spine) (op : Operation) (plan : EditPlan)
    (done : FileTree) (path : String) : Prop where
  kept : plan.edits (op.placeOf path) = [] →
    done.entryAt root (op.placeOf path) = k.tree.entryAt root path
  relinked : ∀ content, ReadsAs root k.tree k.project.settings.lenientText path content →
    ∃ text, ReadsAs root done k.project.settings.lenientText (op.placeOf path) text ∧
      Relinked (Edit.linkOf (plan.edits (op.placeOf path)))
        (Links.find k.project.rule path content).references content text

theorem CarriedOut.congr {plan : EditPlan} {done last : FileTree} {path : String}
    (h : k.CarriedOut root op plan done path) (hdone : done.Sound root) (hlast : last.Sound root)
    (hplace : Proper (op.placeOf path))
    (hsame : last.entryAt root (op.placeOf path) = done.entryAt root (op.placeOf path)) :
    k.CarriedOut root op plan last path := by
  refine ⟨fun hnil => hsame.trans (h.kept hnil), fun content hread => ?_⟩
  obtain ⟨text, htext, hrelinked⟩ := h.relinked content hread
  exact ⟨text, htext.congr hdone hlast hplace hplace hsame, hrelinked⟩

theorem SameTree.carriedOut {s : Keeper} (h : SameTree k s) {plan : EditPlan} {done : FileTree}
    {path : String} (hdone : s.CarriedOut root op plan done path) :
    k.CarriedOut root op plan done path := by
  obtain ⟨hkept, hrelinked⟩ := hdone
  rw [h.tree] at hkept
  rw [h.tree, h.project] at hrelinked
  exact ⟨hkept, hrelinked⟩

theorem SameTree.backsUp_iff {s : Keeper} (h : SameTree k s) {plan : EditPlan} {path : String} :
    s.BacksUp plan path ↔ k.BacksUp plan path := by
  rw [BacksUp, BacksUp, h.project]

/-- **A plan is carried out to the letter.** -/
theorem Poised.carriedOut (h : k.Poised root op source target)
    (hheld : Lock.Held root k.tree held) (hmoved : Relocated root held op op.path after)
    (hwrite : k.project.settings.dryRun = false)
    (hbackup : ¬ k.BacksUp (k.preview op) op.path)
    (hnone : (reviseAll (location root) k.project.settings.writing after
      (k.preview op)).report.failures = []) :
    (reviseAll (location root) k.project.settings.writing after (k.preview op)).tree.Sound root ∧
    (reviseAll (location root) k.project.settings.writing after (k.preview op)).report.files =
      counted (k.preview op).toList ∧
    ∀ path, Proper path → path ≠ lockFileName → k.tree.entryAt root path ≠ none →
      ¬ k.BacksUp (k.preview op) (op.placeOf path) →
      k.CarriedOut root op (k.preview op)
        (reviseAll (location root) k.project.settings.writing after (k.preview op)).tree path := by
  have hfresh := h.fresh hheld hmoved
  obtain ⟨hfiles, htexts⟩ := Batch.foldl_fresh (b := ⟨after, [], .empty⟩) hmoved.sound hwrite hfresh
    (h.separate hbackup) hnone
  obtain ⟨hsound, hothers⟩ := @Batch.foldl_other root k.project.settings.writing
    ⟨after, [], .empty⟩ hmoved.sound (k.preview op).toList h.proper
  refine ⟨hsound, hfiles, fun path hp hlock hthere hnot => ?_⟩
  have hplace := h.proper_placeOf hp
  have hsame := hmoved.entryAt_placeOf hheld h.free hp hlock hthere
  have hkept : (k.preview op).edits (op.placeOf path) = [] →
      (reviseAll (location root) k.project.settings.writing after (k.preview op)).tree.entryAt root
        (op.placeOf path) = k.tree.entryAt root path := by
    intro hnil
    rw [← hsame]
    refine hothers (op.placeOf path) hplace fun pair hpair hwrites => ?_
    rcases hwrites with heq | ⟨hon, heq⟩
    · obtain ⟨hedits, hne⟩ := h.full.edits_ne_nil hpair
      exact hne (hedits ▸ heq ▸ hnil)
    · exact hnot ⟨hon, pair, hpair, heq⟩
  refine ⟨hkept, fun content hread => ?_⟩
  by_cases hnil : (k.preview op).edits (op.placeOf path) = []
  · -- without edits every reference keeps its link
    refine ⟨content, hread.congr h.rooted.sound hsound hp hplace (hkept hnil), ?_⟩
    rw [hnil]
    exact (Links.laid_find _ _ _).relinked
  · obtain ⟨origin, text, hmeant⟩ := h.meantFor hnil
    obtain rfl : origin = path := h.eq_of_placeOf hmeant.proper hp
      (hmeant.reads.there h.rooted.sound hmeant.proper) hthere hmeant.carried
    obtain rfl : text = content := Except.ok.inj (hmeant.reads.symm.trans hread)
    have hpair : (op.placeOf origin, (k.preview op).edits (op.placeOf origin)) ∈
        (k.preview op).toList := by
      rw [Std.TreeMap.mem_toList_iff_getElem?_eq_some]
      unfold EditPlan.edits at hnil ⊢
      cases hget : (k.preview op)[op.placeOf origin]? with
      | none =>
          rw [hget] at hnil
          exact absurd rfl hnil
      | some edits => rfl
    exact ⟨_, htexts _ hpair text (hread.congr h.rooted.sound hmoved.sound hp hplace hsame),
      (Edit.splice_fresh (Links.laid_find _ _ _) hmeant.meant).1⟩

end Keeper

namespace Command

variable {k : Keeper} {root : Spine} {src dst : String} {p : Processes}

/-! ## The move itself -/

/-- The operation that a move is. -/
def moveOf (k : Keeper) (src dst : String) : Operation :=
  if k.tree.isDirectory (k.locate src) then .directoryMoved src dst else .moved src dst

theorem moveOf_cases (k : Keeper) (src dst : String) :
    (moveOf k src dst = .moved src dst ∨ moveOf k src dst = .directoryMoved src dst) ∧
      (moveOf k src dst).path = dst := by
  unfold moveOf
  split
  · exact ⟨.inr rfl, rfl⟩
  · exact ⟨.inl rfl, rfl⟩

/-- What the two paths of a move are carried to, while the lock is held. -/
theorem relocated_moveOf (hr : k.Rooted root) (hs : Proper src) (hd : Proper dst)
    (hthere : k.tree.entryAt root src ≠ none) (hfree : k.tree.entryAt root dst = none)
    {held after : FileTree} (hheld : Lock.Held root k.tree held)
    (hdone : relocate held (location root) src dst = (after, none)) :
    Relocated root held (moveOf k src dst) (moveOf k src dst).path after ∧
      ∀ source target, moveOf k src dst = .moved source target →
        after.isDirectory (Path.locate (location root) target) = false := by
  have hne : src ≠ dst := fun heq => hthere (heq ▸ hfree)
  have hdir : held.entryAt root dst ≠ some .directory := by
    by_cases hlock : dst = lockFileName
    · obtain ⟨content, mode, he⟩ := hheld.lock
      simp [hlock, he]
    · simp [hheld.same dst hd hlock, hfree]
  have hisdir := hr.sound.isDirectory_iff hs
  rw [← hr.locate_eq] at hisdir
  unfold moveOf
  cases he : k.tree.entryAt root src with
  | none => exact absurd he hthere
  | some entry =>
      cases entry with
      | link target => exact absurd he (hr.sound.linkless _ target)
      | directory =>
          have hlock : src ≠ lockFileName := fun heq => hheld.free (heq ▸ he)
          rw [if_pos (hisdir.mpr he)]
          refine ⟨relocated_directory hheld.sound hs hd ?_ hdir hdone, fun _ _ h => by simp at h⟩
          rw [hheld.same src hs hlock, he]
      | file content mode =>
          obtain ⟨bytes, kept, hfile⟩ :
              ∃ bytes kept, held.entryAt root src = some (.file bytes kept) := by
            by_cases hlock : src = lockFileName
            · rw [hlock]
              exact hheld.lock
            · exact ⟨content, mode, by rw [hheld.same src hs hlock, he]⟩
          have hnot : ¬ k.tree.isDirectory (k.locate src) = true := fun hd' => by
            rw [hisdir, he] at hd'
            exact absurd hd' (by simp)
          rw [if_neg hnot]
          have hmoved := relocated_file hheld.sound hs hd hfile hdone
          refine ⟨hmoved, fun source target h => ?_⟩
          obtain ⟨rfl, rfl⟩ : src = source ∧ dst = target := by simpa using h
          have hcarried := hmoved.carried src _ hs hne hfile
          rw [Operation.placeOf, if_pos rfl] at hcarried
          rw [← Bool.not_eq_true, hmoved.sound.isDirectory_iff hd, hcarried]
          simp

/-- A move that goes well: what it does to the tree, and what it says. -/
theorem moveLocked_ok {op : Operation} {source target : String}
    (hop : op = .moved source target ∨ op = .directoryMoved source target)
    (hok : (moveLocked k p src dst op).status = .ok 0) :
    ∃ after, relocate k.tree k.project.root src dst = (after, none) ∧
      (({ k.scan.1 with tree := after } : Keeper).apply op).2.revision.failures = [] ∧
      (moveLocked k p src dst op).tree = (Lock.release
        (({ k.scan.1 with tree := after } : Keeper).apply op).1.tree k.project.root p).1 ∧
      (moveLocked k p src dst op).output = ["Moved " ++ src ++ " -> " ++ dst ++ "; updated "
        ++ toString (({ k.scan.1 with tree := after } : Keeper).apply op).2.revision.total
        ++ " links in "
        ++ toString (({ k.scan.1 with tree := after } : Keeper).apply op).2.revision.files.length
        ++ " files"] := by
  have hscan := Keeper.sameTree_scan k
  unfold moveLocked at hok ⊢
  dsimp only at hok ⊢
  rw [hscan.tree, hscan.project] at hok ⊢
  cases hdone : relocate k.tree k.project.root src dst with
  | mk after fault =>
      rw [hdone] at hok
      cases fault with
      | some e => exact absurd hok (by simp [fail])
      | none =>
          refine ⟨after, rfl, ?_, ?_, rfl⟩
          · dsimp only at hok
            by_contra hfailed
            rw [if_neg (by simpa using hfailed)] at hok
            exact absurd (Except.ok.inj hok) (by simp)
          · dsimp only
            unfold unlock
            rw [Keeper.project_apply _ hop]

/-! ## A dry run and the move -/

variable {e : Surroundings} {i : Invocation} {source target : String}

/-- What a dry run says that a move would do: what is planned in the tree as it is. -/
def planOf (k : Keeper) (src dst : String) : EditPlan := k.scan.1.preview (moveOf k src dst)

theorem run_dry (hr : k.Rooted root) (hprep : prepare e i = .ok k)
    (hpaths : movePaths k source target = .ok (src, dst)) :
    run (.move source target) e i.dry = ⟨k.tree, k.scan.1.log, .ok 0,
      ((planOf k src dst).toList.flatMap fun (file, edits) => edits.map (editLine file)) ++
        ["Would move " ++ src ++ " -> " ++ dst ++ " and update "
          ++ toString (planOf k src dst).total ++ " links in "
          ++ toString (planOf k src dst).size ++ " files"], []⟩ := by
  have hdry : movePaths k.dry source target = .ok (src, dst) := hpaths
  have hop : (if k.dry.tree.isDirectory (k.dry.locate src) then Operation.directoryMoved src dst
      else .moved src dst) = moveOf k src dst := rfl
  unfold run
  rw [(prepare_dry hprep).2.1]
  dsimp only
  unfold runMove
  rw [hdry]
  dsimp only
  rw [if_pos (show k.dry.project.settings.dryRun = true from rfl), hop]
  unfold foretell
  dsimp only
  rw [hr.dry_scan, Keeper.dry_preview]
  have htree : k.scan.1.dry.tree = k.tree := (Keeper.sameTree_scan k).tree
  unfold finish
  rw [htree]
  rfl

/-- A move that goes well is made while the lock is held, from the index that a dry run has. -/
theorem run_move (hr : k.Rooted root) (hprep : prepare e i = .ok k)
    (hpaths : movePaths k source target = .ok (src, dst))
    (hwrite : k.project.settings.dryRun = false)
    (hok : (run (.move source target) e i).status = .ok 0) :
    ∃ l : Keeper, l.project = k.project ∧ Lock.Held root k.tree l.tree ∧
      l.scan.1.index = k.scan.1.index ∧
      run (.move source target) e i = moveLocked l e.processes src dst (moveOf k src dst) := by
  unfold run at hok ⊢
  rw [hprep] at hok ⊢
  dsimp only at hok ⊢
  unfold runMove at hok ⊢
  rw [hpaths] at hok ⊢
  dsimp only at hok ⊢
  rw [if_neg (by simp [hwrite]), hr.located] at hok ⊢
  cases hfault : (Lock.acquire k.tree (location root) e.processes).fault with
  | some fault =>
      rw [hfault] at hok
      exact absurd hok (by simp [fail])
  | none =>
      obtain ⟨hnotdir, content, mode, hput, hsound⟩ := Lock.of_acquire hr.sound hfault
      have hheld := Lock.held_of_put hnotdir hput hsound
      refine ⟨{ k with
        tree := (Lock.acquire k.tree (location root) e.processes).tree
        log := k.log ++ (Lock.acquire k.tree (location root) e.processes).log }, rfl, hheld,
        hr.index_scan_put ⟨hr.located, hsound⟩ rfl rfl proper_lockFileName
          k.project.monitors_lockFileName hput, rfl⟩

/-- What a keeper that has scanned its tree may plan. -/
theorem poised (hr : k.Rooted root) (hprep : prepare e i = .ok k)
    (hpaths : movePaths k source target = .ok (src, dst)) :
    k.scan.1.Poised root (moveOf k src dst) src dst := by
  obtain ⟨hsame, hin⟩ := hr.scan_inStepBut (prepare_dry hprep).1
  obtain ⟨hs, hd, -, hfree⟩ := movePaths_cases hr hpaths
  obtain ⟨hop, hpath⟩ := moveOf_cases k src dst
  exact ⟨hsame.rooted hr, hin, hs, hd, hop, by rw [hsame.tree, hpath, hfree]⟩

/-- **A move that goes well carries out the plan of the dry run.** -/
theorem move_carries_out (hr : k.Rooted root) (hprep : prepare e i = .ok k)
    (hpaths : movePaths k source target = .ok (src, dst))
    (hwrite : k.project.settings.dryRun = false)
    (hok : (run (.move source target) e i).status = .ok 0)
    (hforeseeable : k.scan.1.Foreseeable root (moveOf k src dst)) :
    ∃ held after b, Lock.Held root k.tree held ∧
      Relocated root held (moveOf k src dst) (moveOf k src dst).path after ∧
      b = reviseAll (location root) k.project.settings.writing after (planOf k src dst) ∧
      b.report.failures = [] ∧
      (run (.move source target) e i).tree =
        (Lock.release b.tree (location root) e.processes).1 ∧
      (run (.move source target) e i).output = ["Moved " ++ src ++ " -> " ++ dst ++ "; updated "
        ++ toString b.report.total ++ " links in " ++ toString b.report.files.length
        ++ " files"] := by
  obtain ⟨l, hproject, hheld, hindex, hrun⟩ := run_move hr hprep hpaths hwrite hok
  rw [hrun] at hok ⊢
  obtain ⟨after, hdone, hnone, htree, houtput⟩ := moveLocked_ok (moveOf_cases k src dst).1 hok
  obtain ⟨hs, hd, hthere, hfree⟩ := movePaths_cases hr hpaths
  have hpoised := poised hr hprep hpaths
  have hsame := Keeper.sameTree_scan k
  have hscan := Keeper.sameTree_scan l
  rw [hproject, hr.located] at hdone htree
  obtain ⟨hmoved, hfile⟩ := relocated_moveOf hr hs hd hthere hfree hheld hdone
  -- the keeper that answers the move has the same index, but the tree is the new one
  generalize hm : ({ l.scan.1 with tree := after } : Keeper) = m at hnone htree houtput
  have hmproject : m.project = k.project := by
    rw [← hm]
    exact hscan.project.trans hproject
  have hmtree : m.tree = after := by rw [← hm]
  have hmindex : m.index = k.scan.1.index := by
    rw [← hm]
    exact hindex
  have hplan : m.preview (moveOf k src dst) = planOf k src dst := by
    refine hforeseeable.preview_eq hpoised.rooted hpoised.inStep.valid
      (hmproject.trans hsame.project.symm) hmindex hs hd hpoised.isMove ?_ hpoised.free
      (hmtree ▸ hmoved)
    rwa [hsame.tree]
  obtain ⟨hwrites, hreport⟩ := m.apply_writes (moveOf k src dst) fun source target heq => by
    rw [hmtree, Keeper.locate, Project.locate, hmproject, hr.located]
    exact hfile source target heq
  unfold Keeper.revise at hwrites hreport
  rw [hplan, hmproject, hmtree, hr.located] at hwrites hreport
  rw [hwrites] at htree
  rw [hreport] at hnone houtput
  exact ⟨l.tree, after, _, hheld, hmoved, rfl, hnone, htree, houtput⟩

/-- Where a plan is for one file, its backup is what it was, be it in the place of what has moved. -/
theorem move_backs_up (hr : k.Rooted root) (hprep : prepare e i = .ok k)
    (hpaths : movePaths k source target = .ok (src, dst))
    (hwrite : k.project.settings.dryRun = false) (hon : k.project.settings.backups = true)
    (hok : (run (.move source target) e i).status = .ok 0)
    (hforeseeable : k.scan.1.Foreseeable root (moveOf k src dst)) {file path : String}
    {edits : List Edit} (hplan : (planOf k src dst).toList = [(file, edits)]) (hp : Proper path)
    (hthere : k.tree.entryAt root path ≠ none) (hplace : (moveOf k src dst).placeOf path = file) :
    (run (.move source target) e i).tree.entryAt root (file ++ Settings.backupEnding) =
      k.tree.entryAt root path := by
  obtain ⟨held, after, b, hheld, hmoved, hb, hnone, htree, -⟩ :=
    move_carries_out hr hprep hpaths hwrite hok hforeseeable
  have hpoised := poised hr hprep hpaths
  have hsame := Keeper.sameTree_scan k
  have hfile : Proper file := hpoised.proper (file, edits) (by rw [← planOf, hplan]; simp)
  obtain ⟨-, origin, content, hmeant⟩ :=
    hpoised.of_mem_toList (show (file, edits) ∈ (planOf k src dst).toList by rw [hplan]; simp)
  rw [← hsame.tree] at hheld hthere
  obtain rfl : origin = path := hpoised.eq_of_placeOf hmeant.proper hp
    (hmeant.reads.there hpoised.rooted.sound hmeant.proper) hthere
    (hmeant.carried.trans hplace.symm)
  have hfresh := hpoised.fresh hheld hmoved
  rw [← planOf, hplan, hsame.project] at hfresh
  rw [reviseAll, hplan, List.foldl_cons, List.foldl_nil] at hb
  have hbackup := Batch.step_backup (b := ⟨after, [], .empty⟩) hmoved.sound hwrite hon hfresh
    (hb ▸ hnone)
  have hsound : b.tree.Sound root := by
    rw [hb]
    exact (Batch.step_other (b := ⟨after, [], .empty⟩) hmoved.sound _ hfile _).1
  have hnotlock : file ++ Settings.backupEnding ≠ lockFileName := by
    intro heq
    have hends := congrArg (fun name => name.toList.reverse) heq
    simp [Settings.backupEnding, lockFileName] at hends
  rw [htree, (Lock.of_release hsound).2 _ hfile.backup.1 hnotlock, hb, hbackup, ← hplace,
    ← hsame.tree]
  exact hmoved.entryAt_placeOf hheld hpoised.free hp hmeant.not_lock hthere

/-- What a dry run of a move says, and what comes of the move. -/
structure Foretold (k : Keeper) (root : Spine) (src dst : String) (before : FileTree)
    (dry real : Outcome) : Prop where
  /-- The dry run goes well, and leaves the tree as it found it, but for the log that it opens. -/
  accepted : dry.status = .ok 0
  untouched : openLog before k.project.root k.project.settings = .ok dry.tree
  /-- It says one line for each edit of the plan, and how many there are in how many files. -/
  said : dry.output =
    ((planOf k src dst).toList.flatMap fun (file, edits) => edits.map (editLine file)) ++
      ["Would move " ++ src ++ " -> " ++ dst ++ " and update "
        ++ toString (planOf k src dst).total ++ " links in "
        ++ toString (planOf k src dst).size ++ " files"]
  /--
  Each of these edits is for a link of a file that is carried to the one it is said of. There the
  move makes it, unless something has been moved to the name of the lock.
  -/
  meant : ∀ file, ∀ edit ∈ (planOf k src dst).edits file, ∃ path content,
    (moveOf k src dst).placeOf path = file ∧
    ReadsAs root k.tree k.project.settings.lenientText path content ∧
    (∃ r ∈ (Links.find k.project.rule path content).references, edit.IsFor r) ∧
    (file ≠ lockFileName →
      k.CarriedOut root (moveOf k src dst) (planOf k src dst) real.tree path)
  /-- Whatever is there gets these edits and no others, but for the lock and what is backed up over. -/
  made : ∀ path, Proper path → k.tree.entryAt root path ≠ none →
    path ≠ lockFileName → (moveOf k src dst).placeOf path ≠ lockFileName →
    ¬ k.BacksUp (planOf k src dst) ((moveOf k src dst).placeOf path) →
    k.CarriedOut root (moveOf k src dst) (planOf k src dst) real.tree path
  /--
  It counts as many files. A link is counted once; that is as often as it is listed, if no two
  edits are for one place.
  -/
  counted : real.output = ["Moved " ++ src ++ " -> " ++ dst ++ "; updated "
    ++ toString (planOf k src dst).placed ++ " links in " ++ toString (planOf k src dst).size
    ++ " files"]
  listed : (∀ file, Edit.Scattered ((planOf k src dst).edits file)) →
    (planOf k src dst).placed = (planOf k src dst).total

/--
**A dry run of a move foretells the move.**

Let a tree have no links in it, and let a move be accepted and go well. Then the dry run goes
well and changes nothing, and the edits that it lists are those that the move makes: in every
file that there was, each link gets what the first edit for its place says, and all else stays.
The numbers at the end are the same, but for edits that share a place.

No relative link in what is moved may lead to something that only the move brings, and what is
moved may not have the name of a backup that the move makes.
-/
theorem dry_run_foretells (hsound : e.tree.Sound root) (hroot : findRoot e i = .ok (location root))
    (hprep : prepare e i = .ok k) (hpaths : movePaths k source target = .ok (src, dst))
    (hwrite : k.project.settings.dryRun = false)
    (hok : (run (.move source target) e i).status = .ok 0)
    (hforeseeable : k.scan.1.Foreseeable root (moveOf k src dst))
    (hbackup : ¬ k.BacksUp (planOf k src dst) dst) :
    Foretold k root src dst e.tree (run (.move source target) e i.dry)
      (run (.move source target) e i) := by
  have hr := rooted_of_prepare hsound hroot hprep
  obtain ⟨held, after, b, hheld, hmoved, rfl, hnone, htree, houtput⟩ :=
    move_carries_out hr hprep hpaths hwrite hok hforeseeable
  have hpoised := poised hr hprep hpaths
  have hsame := Keeper.sameTree_scan k
  have hpath := (moveOf_cases k src dst).2
  rw [← hsame.tree] at hheld
  rw [← hsame.project] at hwrite hnone
  have hbackup' : ¬ k.scan.1.BacksUp (planOf k src dst) (moveOf k src dst).path := by
    rw [hpath, hsame.backsUp_iff]
    exact hbackup
  obtain ⟨hdone, hfiles, hcarried⟩ := hpoised.carriedOut hheld hmoved hwrite hbackup' hnone
  rw [hsame.project, ← planOf] at hdone hfiles hcarried
  rw [RevisionReport.total, hfiles] at houtput
  obtain ⟨hlast, hreleased⟩ := @Lock.of_release _ root e.processes hdone
  have hmade : ∀ path, Proper path → k.tree.entryAt root path ≠ none → path ≠ lockFileName →
      (moveOf k src dst).placeOf path ≠ lockFileName →
      ¬ k.BacksUp (planOf k src dst) ((moveOf k src dst).placeOf path) →
      k.CarriedOut root (moveOf k src dst) (planOf k src dst)
        (run (.move source target) e i).tree path := by
    intro path hp hthere hlock hplace hnot
    have hproper := hpoised.proper_placeOf hp
    rw [htree]
    refine (hsame.carriedOut (hcarried path hp hlock (hsame.tree ▸ hthere)
      (fun hb => hnot (hsame.backsUp_iff.mp hb)))).congr hdone hlast hproper ?_
    exact hreleased _ hproper hplace
  rw [run_dry hr hprep hpaths]
  refine ⟨rfl, (prepare_dry hprep).2.2, rfl, fun file edit hedit => ?_, hmade, ?_,
    EditPlan.placed_eq_total⟩
  · have hne := List.ne_nil_of_mem hedit
    obtain ⟨path, content, hmeant⟩ := hpoised.meantFor hne
    have hreads := hmeant.reads
    have hfor := hmeant.meant edit hedit
    have hthere := hreads.there hpoised.rooted.sound hmeant.proper
    rw [hsame.tree] at hreads hthere
    rw [hsame.project] at hreads hfor
    refine ⟨path, content, hmeant.carried, hreads, hfor, fun hlock => ?_⟩
    refine hmade path hmeant.proper hthere hmeant.not_lock (hmeant.carried.symm ▸ hlock) ?_
    rw [hmeant.carried, ← hsame.backsUp_iff]
    exact hpoised.not_backsUp hbackup' hne
  · have hsize : (counted (planOf k src dst).toList).length = (planOf k src dst).size := by
      rw [counted, List.length_map, Std.TreeMap.length_toList]
    rw [houtput, hsize]
    rfl

/-! ## Moves between notes -/

def note (text : String) : Entry := .file text.toUTF8 newMode

/-- What stands at `/w`, to a process that runs there alone. -/
def site (entries : List (Spine × Entry)) : Surroundings :=
  ⟨⟨.ofList ((["w"], .directory) :: entries.map fun (path, entry) => ("w" :: path, entry))⟩, "/w",
    ⟨7, fun _ => false⟩⟩

/-- A call without any options. -/
def plainCall : Invocation := ⟨none, .none, "."⟩

/-- A note that another one leads to, and that leads to a third one. -/
def lodge : Surroundings := site [(["p"], .directory), (["p", "a.md"], note "[q](../q.md)\n"),
  (["q.md"], note "# Q\n"), (["r.md"], note "[a](p/a.md)\n")]

def keeperOfLodge : Keeper := .make (.make "/w" .defaults) lodge.tree

theorem sound_lodge : lodge.tree.Sound ["w"] :=
  sound_of_below (by decide) (by decide) (by decide +kernel) (by decide +kernel)

/-- The note is moved to a directory that has to be made, and both links are foretold. -/
theorem dry_run_foretells_lodge :
    Foretold keeperOfLodge ["w"] "p/a.md" "s/t/a.md" lodge.tree
      (run (.move "p/a.md" "s/t/a.md") lodge plainCall.dry)
      (run (.move "p/a.md" "s/t/a.md") lodge plainCall) ∧
    (run (.move "p/a.md" "s/t/a.md") lodge plainCall.dry).output =
      ["r.md:1  p/a.md -> s/t/a.md", "s/t/a.md:1  ../q.md -> ../../q.md",
        "Would move p/a.md -> s/t/a.md and update 2 links in 2 files"] := by
  have hroot : findRoot lodge plainCall = .ok (location ["w"]) := by rfl
  have hprep : prepare lodge plainCall = .ok keeperOfLodge := by rfl
  have hr := rooted_of_prepare sound_lodge hroot hprep
  have hpaths : movePaths keeperOfLodge "p/a.md" "s/t/a.md" = .ok ("p/a.md", "s/t/a.md") := by
    decide +kernel
  have hok : (run (.move "p/a.md" "s/t/a.md") lodge plainCall).status = .ok 0 := by decide +kernel
  have hvalid := (poised hr hprep hpaths).inStep.valid
  have hforeseeable : keeperOfLodge.scan.1.Foreseeable ["w"]
      (moveOf keeperOfLodge "p/a.md" "s/t/a.md") :=
    Keeper.foreseeable_of_records hvalid (by decide +kernel)
  have hbackup : ¬ keeperOfLodge.BacksUp (planOf keeperOfLodge "p/a.md" "s/t/a.md") "s/t/a.md" :=
    fun hbacksUp => absurd hbacksUp.1 (by decide)
  exact ⟨dry_run_foretells sound_lodge hroot hprep hpaths rfl hok hforeseeable hbackup,
    by decide +kernel⟩

/-- Settings by which nothing is ever written. -/
def stillSite : Surroundings := site [([settingsFileName], note "dry_run_mode = true\n"),
  (["p"], .directory), (["p", "a.md"], note "# A\n"), (["r.md"], note "[a](p/a.md)\n")]

/-- Settings with a log. -/
def loggingSite : Surroundings :=
  site [([settingsFileName], note "log_file = \"x.log\"\n"), (["a.md"], note "# A\n")]

/-- A note that leads to the place where it is going to be. -/
def forwardSite : Surroundings := site [(["a.md"], note "[x](docs/b.md)\n")]

/-- A note with a link that means the note from the root, and another one from its directory. -/
def doubleSite : Surroundings :=
  site [(["docs"], .directory), (["docs", "a.md"], note "[a](docs/a.md)\n"),
    (["docs", "docs"], .directory), (["docs", "docs", "a.md"], note "# A\n")]

/-- A note that leads to another one. -/
def savedSite : Surroundings := site [(["p"], .directory), (["p", "a.md"], note "# A\n"),
  (["p", "h.md"], note "[y](p/a.md)\n")]

/-- A call that asks for backups. -/
def savingCall : Invocation :=
  { plainCall with overrides := { Overrides.none with backups := true } }

/-- The keeper that the call with backups starts from. -/
def keeperOfSaved : Keeper :=
  .make (.make "/w" { Settings.defaults with backups := true }) savedSite.tree

theorem sound_savedSite : savedSite.tree.Sound ["w"] :=
  sound_of_below (by decide) (by decide) (by decide +kernel) (by decide +kernel)

theorem plan_savedSite : (planOf keeperOfSaved "p/a.md" "p/h.md.linkbak").toList =
    [("p/h.md", [⟨10, 4, 1, "p/a.md", "p/h.md.linkbak"⟩])] := by
  decide +kernel

/-- The note that is moved to the name of a backup is lost to that. -/
theorem savedSite_overwritten :
    (run (.move "p/a.md" "p/h.md.linkbak") savedSite savingCall).tree.entryAt ["w"]
      "p/h.md.linkbak" = some (note "[y](p/a.md)\n") := by
  have hroot : findRoot savedSite savingCall = .ok (location ["w"]) := by rfl
  have hprep : prepare savedSite savingCall = .ok keeperOfSaved := by rfl
  have hr := rooted_of_prepare sound_savedSite hroot hprep
  have hpaths : movePaths keeperOfSaved "p/a.md" "p/h.md.linkbak" =
      .ok ("p/a.md", "p/h.md.linkbak") := by
    decide +kernel
  have hok : (run (.move "p/a.md" "p/h.md.linkbak") savedSite savingCall).status = .ok 0 := by
    decide +kernel
  have hforeseeable : keeperOfSaved.scan.1.Foreseeable ["w"]
      (moveOf keeperOfSaved "p/a.md" "p/h.md.linkbak") :=
    Keeper.foreseeable_of_records (poised hr hprep hpaths).inStep.valid (by decide +kernel)
  have hthere : keeperOfSaved.tree.entryAt ["w"] "p/h.md" = some (note "[y](p/a.md)\n") := by
    decide +kernel
  have hbackup := move_backs_up hr hprep hpaths (by rfl) (by rfl) hok hforeseeable plan_savedSite
    (by decide : Proper "p/h.md") (by simp [hthere]) (by decide +kernel)
  have hname : "p/h.md" ++ Settings.backupEnding = "p/h.md.linkbak" := by decide
  rw [hname] at hbackup
  exact hbackup.trans hthere

/--
Where a dry run and the move are not the same. The settings may say that nothing is written, or
that there is a log, which a dry run opens as well. A link may lead to the place that the note
goes to. One link may get two edits. And a backup may take the place that the note goes to.
-/
theorem dry_run_differs :
    (∀ place ∈ [stillSite, loggingSite, forwardSite, doubleSite, savedSite],
      place.tree.Sound ["w"]) ∧
    ((run (.move "p/a.md" "p/b.md") stillSite plainCall.dry).output =
        ["r.md:1  p/a.md -> p/b.md",
          "Would move p/a.md -> p/b.md and update 1 links in 1 files"] ∧
      (run (.move "p/a.md" "p/b.md") stillSite plainCall).status = .ok 0 ∧
      (run (.move "p/a.md" "p/b.md") stillSite plainCall).tree.entryAt ["w"] "r.md" =
        some (note "[a](p/a.md)\n")) ∧
    (loggingSite.tree.entryAt ["w"] "x.log" = none ∧
      (run (.move "a.md" "b.md") loggingSite plainCall.dry).tree.entryAt ["w"] "x.log" =
        some (note "")) ∧
    ((run (.move "a.md" "docs/b.md") forwardSite plainCall.dry).output =
        ["Would move a.md -> docs/b.md and update 0 links in 0 files"] ∧
      (run (.move "a.md" "docs/b.md") forwardSite plainCall).status = .ok 0 ∧
      (run (.move "a.md" "docs/b.md") forwardSite plainCall).tree.entryAt ["w"] "docs/b.md" =
        some (note "[x](b.md)\n")) ∧
    ((run (.move "docs/a.md" "x/a.md") doubleSite plainCall.dry).output =
        ["x/a.md:1  docs/a.md -> x/a.md", "x/a.md:1  docs/a.md -> ../docs/docs/a.md",
          "Would move docs/a.md -> x/a.md and update 2 links in 1 files"] ∧
      (Links.find (Project.make "/w" .defaults).rule "docs/a.md"
        "[a](docs/a.md)\n").references.length = 1) ∧
    ((run (.move "p/a.md" "p/h.md.linkbak") savedSite savingCall.dry).output =
        ["p/h.md:1  p/a.md -> p/h.md.linkbak",
          "Would move p/a.md -> p/h.md.linkbak and update 1 links in 1 files"] ∧
      (run (.move "p/a.md" "p/h.md.linkbak") savedSite savingCall).tree.entryAt ["w"]
        "p/h.md.linkbak" = some (note "[y](p/a.md)\n")) := by
  refine ⟨?_, ⟨?_, ?_, ?_⟩, ⟨?_, ?_⟩, ⟨?_, ?_, ?_⟩, ⟨?_, ?_⟩, ?_, savedSite_overwritten⟩
  · intro place hplace
    simp only [List.mem_cons, List.not_mem_nil, or_false] at hplace
    obtain rfl | rfl | rfl | rfl | rfl := hplace <;>
      exact sound_of_below (by decide) (by decide) (by decide +kernel) (by decide +kernel)
  all_goals decide +kernel

end Command

end LinkKeeper
