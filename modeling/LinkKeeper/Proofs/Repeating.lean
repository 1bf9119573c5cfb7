import LinkKeeper.Proofs.Handover

/-!
# A move that is reported twice

Watchers report some events more than once. By the second time the index has been brought
in step with the revised files, so that a link which has been given the new place is no
longer one to the old place, and there is nothing left to do.

Or so it is as long as the new link is not read as one to the old place too. A link has two
readings, and whether the new one has the old place among them depends on the directory of
its file: in a file of `a`, `d/x.md` leads to `a/d/x.md`, and it also leads to `d/x.md` of
the root. A second report may rewrite a link of this kind once more. Beyond that it finds
only what the first one could not know of, or did not write.
-/

namespace LinkKeeper

open FileTree
open Path (Proper parent)

namespace Keeper

variable {k : Keeper} {root : Spine} {after : FileTree} {source target : String} {q : Reference}

/-! ## The second answer -/

/-- What a keeper makes of a move that is reported again once it has been answered. -/
def answeredAgain (k : Keeper) (after : FileTree) (source target : String) :
    Keeper × OperationReport :=
  (k.answered after source target).1.apply (.moved source target)

/-- A record that has another link to get when the same move is reported again. -/
def LeftOver (k : Keeper) (after : FileTree) (source target : String) (q : Reference) : Prop :=
  (k.answered after source target).1.index.Has q ∧
    Edit.inbound? q (fileMove source target q.source) ≠ none

/-- A file that holds such a record. -/
def Unsettled (k : Keeper) (after : FileTree) (source target path : String) : Prop :=
  ∃ q, k.LeftOver after source target q ∧ holder source target q = path

theorem LeftOver.means (h : k.LeftOver after source target q) : Edit.means q source = true := by
  obtain ⟨e, he⟩ := Option.ne_none_iff_exists'.mp h.2
  exact (Edit.of_inbound? he).2

/-- An edit of the second plan is for a link to the old place. None is for a link that leads out of the moved file. -/
theorem InStep.of_mem_edits_again (h : k.InStep) (hr : k.Rooted root)
    (hstep : TreeStep root k.tree (.moved source target) after) {file : String} {e : Edit}
    (he : e ∈ ((k.answered after source target).1.planFileMove source target).edits file) :
    ∃ q, (k.answered after source target).1.index.Has q ∧ holder source target q = file ∧
      Edit.inbound? q (fileMove source target q.source) = some e := by
  obtain ⟨-, -, hin, -⟩ := h.answered hr hstep
  rcases mem_edits_planFileMove.mp he with ⟨q, hq, hfile, hedit⟩ | ⟨-, -, q, hq, hedit⟩
  · exact ⟨q, has_of_mem_candidates hq, hfile.symm, hedit⟩
  · exfalso
    obtain ⟨hsource, hhas⟩ := hin.valid.mem_recordsFrom_iff.mp hq
    by_cases hne : source = target
    · rw [Edit.outbound?_of_parent_eq (congrArg parent hne)] at hedit
      exact absurd hedit (by simp)
    · -- the old place is free, and nothing is filed for it
      exact h.source_ne_of_answered hr hstep hne hhas hsource

theorem InStep.unsettled_of_edits_ne_nil (h : k.InStep) (hr : k.Rooted root)
    (hstep : TreeStep root k.tree (.moved source target) after) {file : String}
    (hedits : ((k.answered after source target).1.planFileMove source target).edits file ≠ []) :
    k.Unsettled after source target file := by
  obtain ⟨e, he⟩ := List.exists_mem_of_ne_nil _ hedits
  obtain ⟨q, hhas, hfile, hedit⟩ := h.of_mem_edits_again hr hstep he
  exact ⟨q, ⟨hhas, by rw [hedit]; exact Option.some_ne_none e⟩, hfile⟩

/-- The second plan is for files that are there under names of their own. -/
theorem InStep.proper_planAgain (h : k.InStep) (hr : k.Rooted root)
    (hstep : TreeStep root k.tree (.moved source target) after) :
    ∀ pair ∈ ((k.answered after source target).1.planFileMove source target).toList,
      Proper pair.1 := by
  obtain ⟨-, -, hin, -⟩ := h.answered hr hstep
  cases hstep with
  | moved hs ht there renamed => exact InStepBut.proper_planFileMove hin ht

/-- The second answer writes what its plan says, and nothing else. -/
theorem InStep.answeredAgain_writes (h : k.InStep) (hr : k.Rooted root)
    (hstep : TreeStep root k.tree (.moved source target) after) :
    (k.answeredAgain after source target).1.tree = ((k.answered after source target).1.revise
        ((k.answered after source target).1.planFileMove source target)).1.tree ∧
      (k.answeredAgain after source target).2.revision =
        ((k.answered after source target).1.revise
          ((k.answered after source target).1.planFileMove source target)).2 := by
  obtain ⟨-, hrooted, -, -⟩ := h.answered hr hstep
  have hfile := h.target_not_directory hr hstep
  -- what was moved is still a file, or it would be followed as a directory now
  refine apply_writes _ (.moved source target) fun source' target' hop => ?_
  obtain ⟨rfl, rfl⟩ := Operation.moved.inj hop
  cases hstep with
  | moved hs ht there renamed =>
      rw [← Bool.not_eq_true, hrooted.locate_eq, hrooted.sound.isDirectory_iff ht]
      exact hfile

/-- What a second report makes of a file, if everything can be written. -/
theorem InStep.readsAs_answeredAgain (h : k.InStep) (hr : k.Rooted root)
    (hstep : TreeStep root k.tree (.moved source target) after)
    (hdry : k.project.settings.dryRun = false)
    (hdone : (k.answeredAgain after source target).2.revision.failures = [])
    {file content : String} (hp : Proper file)
    (hown : Settings.isOwnName (Path.baseName file) = false) {edits : List Edit}
    (hedits : ((k.answered after source target).1.planFileMove source target).edits file = edits)
    (happlied : (Edit.splice content edits).applied ≠ 0)
    (hread : ReadsAs root (k.answered after source target).1.tree
      k.project.settings.lenientText file content) :
    ReadsAs root (k.answeredAgain after source target).1.tree k.project.settings.lenientText file
      (Edit.splice content edits).text := by
  obtain ⟨hproject, hrooted, -, -⟩ := h.answered hr hstep
  obtain ⟨htree, hreport⟩ := h.answeredAgain_writes hr hstep
  have hlenient : (k.answered after source target).1.project.settings.writing.lenient =
      k.project.settings.lenientText := by
    rw [hproject]
    rfl
  rw [← hlenient] at hread
  obtain ⟨text, hnow, hwhy⟩ :=
    hread.reviseAll hrooted.sound hp hown (h.proper_planAgain hr hstep)
  rw [← hrooted.located] at hnow hwhy
  rw [hedits] at hwhy
  rw [hlenient] at hnow
  rw [htree]
  rcases hwhy with rfl | ⟨-, hdry' | hzero | hfailed⟩
  · exact hnow
  · rw [hproject] at hdry'
    exact absurd (hdry'.symm.trans hdry) (by simp)
  · exact absurd hzero happlied
  · rw [hreport] at hdone
    exact absurd hdone hfailed

/-- The one edit of a file whose records all get this edit. -/
theorem InStep.edits_again_eq (h : k.InStep) (hr : k.Rooted root)
    (hstep : TreeStep root k.tree (.moved source target) after) (hne : source ≠ target)
    {file : String} {e : Edit}
    (hone : (((k.answered after source target).1.planFileMove source target).edits
      file).length = 1)
    (hedit : ∀ q, (k.answered after source target).1.index.Has q → q.source = file →
      Edit.inbound? q (fileMove source target q.source) = some e) :
    ((k.answered after source target).1.planFileMove source target).edits file = [e] := by
  obtain ⟨f, hf⟩ := List.length_eq_one_iff.mp hone
  have hmem : f ∈ ((k.answered after source target).1.planFileMove source target).edits file := by
    rw [hf]
    exact List.mem_singleton_self f
  obtain ⟨q, hhas, hholder, hinbound⟩ := h.of_mem_edits_again hr hstep hmem
  have hsource : q.source = file := by
    unfold holder fileMove at hholder
    rw [if_neg (h.source_ne_of_answered hr hstep hne hhas)] at hholder
    exact hholder
  rw [hedit q hhas hsource] at hinbound
  rw [hf, Option.some.inj hinbound]

/-- **A second report changes only files that hold something left over.** -/
theorem InStep.keepsBut_answeredAgain (h : k.InStep) (hr : k.Rooted root)
    (hstep : TreeStep root k.tree (.moved source target) after) :
    (∀ path ∈ (k.answeredAgain after source target).2.revision.revised,
      k.Unsettled after source target path) ∧
    KeepsBut root (k.answered after source target).1.tree
      (k.answeredAgain after source target).1.tree (k.Unsettled after source target) := by
  obtain ⟨-, hrooted, -, -⟩ := h.answered hr hstep
  obtain ⟨htree, hreport⟩ := h.answeredAgain_writes hr hstep
  obtain ⟨hkeeps, hrevised⟩ := KeepsBut.reviseAll hrooted.sound
    (k.answered after source target).1.project.settings.writing (h.proper_planAgain hr hstep)
  rw [← hrooted.located] at hkeeps hrevised
  have hunsettled : ∀ path ∈ (k.answeredAgain after source target).2.revision.revised,
      k.Unsettled after source target path := by
    intro path hpath
    rw [hreport] at hpath
    obtain ⟨⟨file, es⟩, hpair, rfl⟩ := List.mem_map.mp (hrevised path hpath)
    obtain ⟨hedits, hne⟩ := (full_planFileMove _ source target).edits_ne_nil hpair
    exact h.unsettled_of_edits_ne_nil hr hstep (hedits ▸ hne)
  refine ⟨hunsettled, ?_⟩
  rw [htree]
  refine hkeeps.mono fun path hpath => hunsettled path ?_
  rw [hreport]
  exact hpath

/-- **Where nothing is left over, a second report changes nothing.** -/
theorem InStep.answeredAgain_of_settled (h : k.InStep) (hr : k.Rooted root)
    (hstep : TreeStep root k.tree (.moved source target) after)
    (hsettled : ∀ q, ¬ k.LeftOver after source target q) :
    (k.answeredAgain after source target).2.revision = .empty ∧
      (k.answeredAgain after source target).1.tree = (k.answered after source target).1.tree := by
  obtain ⟨htree, hreport⟩ := h.answeredAgain_writes hr hstep
  have hnil : ((k.answered after source target).1.planFileMove source target).toList = [] := by
    refine List.eq_nil_iff_forall_not_mem.mpr fun ⟨file, es⟩ hpair => ?_
    obtain ⟨hedits, hne⟩ := (full_planFileMove _ source target).edits_ne_nil hpair
    obtain ⟨q, hleft, -⟩ := h.unsettled_of_edits_ne_nil hr hstep (hedits ▸ hne)
    exact hsettled q hleft
  obtain ⟨hsame, hnone⟩ := (k.answered after source target).1.revise_of_toList_eq_nil hnil
  exact ⟨hreport.trans hnone, htree.trans hsame⟩

/-! ## What is left over -/

/-- Why a move that has been answered may find a link to rewrite once more. -/
inductive Reopened (k : Keeper) (root : Spine) (after : FileTree) (source target : String)
    (q : Reference) : Prop where
  /-- It leads to the old place by one reading, and to the new one by the other. -/
  | ambiguous (h : q.rooted = source ∧ q.resolved = target ∨
      q.rooted = target ∧ q.resolved = source)
  /--
  No record has become this one. It is in a file that was to be revised or has moved, and it could
  not be given the new link, or it was not taken for a link before.
  -/
  | unforeseen (hfile : (k.movePlan after source target).edits q.source ≠ [] ∨ q.source = target)
      (h : ∀ r, k.index.Has r → ¬ k.Succeeds root after source target r q)
  /-- It is in the moved file, and led elsewhere when that was in another directory. -/
  | carried (hfile : q.source = target) (hmoved : parent source ≠ parent target) (r : Reference)
      (hhas : k.index.Has r) (h : k.Succeeds root after source target r q)
      (hmeans : Edit.means r source = false)
  /-- It is in the moved file, and that has replaced a file with links. -/
  | replaced (hfile : q.source = target) (r : Reference) (hhas : k.index.Has r)
      (hreplaced : r.source = target)

/-- A link to two different places leads to each of them by one reading. -/
theorem readings_of_means (hs : Proper source) (ht : Proper target) (hne : source ≠ target)
    (hold : Edit.means q source = true) (hnew : Edit.means q target = true) :
    q.rooted = source ∧ q.resolved = target ∨ q.rooted = target ∧ q.resolved = source := by
  -- one reading cannot be two places
  rcases (Edit.means_iff hs).mp hold with ho | ho <;>
    rcases (Edit.means_iff ht).mp hnew with hn | hn
  · exact absurd (ho.symm.trans hn) hne
  · exact .inl ⟨ho, hn⟩
  · exact .inr ⟨hn, ho⟩
  · exact absurd (ho.symm.trans hn) hne

/-- A link to something else that has not left its directory leads there still. -/
theorem InStep.means_of_succeeds_beside {r : Reference} (h : k.InStep) (hr : k.Rooted root)
    (hhas : k.index.Has r) (hmeans : Edit.means r source = false)
    (hkept : k.KeepsUp source target r) (hmoved : r.source = source)
    (hparent : parent source = parent target)
    (hnext : k.Succeeds root after source target r q) : Edit.means q source = false := by
  obtain ⟨-, -, hsource, -, -, htarget⟩ := hnext
  rw [h.linksIn_of_not_means_of_parent hr hhas hmeans hkept fun _ => hparent] at htarget
  -- the name of the file has no part in what its links lead to
  have hhere : parent q.source = parent r.source := by
    rw [hsource, hmoved, hparent]
    unfold holder fileMove
    rw [if_pos hmoved]
  rw [Edit.means_congr_of_parent hhere htarget, hmeans]

/-- A record of the moved file that is left over. -/
theorem InStep.reopened_of_moved (h : k.InStep) (hr : k.Rooted root)
    (hstep : TreeStep root k.tree (.moved source target) after) (hne : source ≠ target)
    (hhash : '#' ∉ target.toList) (hleft : k.LeftOver after source target q)
    (hfile : q.source = target) : k.Reopened root after source target q := by
  by_cases hreplaced : ∃ r, k.index.Has r ∧ r.source = target
  · obtain ⟨r, hhas, hsource⟩ := hreplaced
    exact .replaced hfile r hhas hsource
  by_cases hnext : ∃ r, k.index.Has r ∧ k.Succeeds root after source target r q
  · obtain ⟨r, hhas, hnext⟩ := hnext
    -- the file held no links but those that it brought along
    have hmoved : r.source = source := by
      by_contra hstays
      have hholder : q.source = holder source target r := hnext.choose_spec.2.1
      unfold holder fileMove at hholder
      rw [if_neg hstays] at hholder
      exact hreplaced ⟨r, hhas, hholder.symm.trans hfile⟩
    have hkept : k.KeepsUp source target r := by
      obtain ⟨hproject, -, hin, -⟩ := h.answered hr hstep
      have hmem := hin.valid.mem_recordsFrom_iff.mpr ⟨hfile, hleft.1⟩
      have hmonitored := (isSource_iff.mp (hin.sources target (List.ne_nil_of_mem hmem))).2
      rw [hproject] at hmonitored
      unfold KeepsUp
      rw [if_pos hmoved]
      exact ⟨hmonitored, fun p hp hsource => absurd ⟨p, hp, hsource⟩ hreplaced⟩
    cases hmeans : Edit.means r source with
    | true =>
        cases hstep with
        | moved hs ht there renamed =>
            have hnew := h.means_of_succeeds_of_hash hr hs ht (by simp [there]) hhash hhas hmeans
              hkept hnext
            exact .ambiguous (readings_of_means hs ht hne hleft.means hnew)
    | false =>
        by_cases hparent : parent source = parent target
        · have hnot := h.means_of_succeeds_beside hr hhas hmeans hkept hmoved hparent hnext
          rw [hleft.means] at hnot
          exact absurd hnot (by simp)
        · exact .carried hfile hparent r hhas hnext hmeans
  · exact .unforeseen (.inr hfile) fun r hhas hsucceeds => hnext ⟨r, hhas, hsucceeds⟩

/-- **Whatever is left over has its reason.** -/
theorem InStep.reopened (h : k.InStep) (hr : k.Rooted root)
    (hstep : TreeStep root k.tree (.moved source target) after) (hne : source ≠ target)
    (hhash : '#' ∉ target.toList) (hleft : k.LeftOver after source target q) :
    k.Reopened root after source target q := by
  by_cases hfile : q.source = target
  · exact h.reopened_of_moved hr hstep hne hhash hleft hfile
  · rcases h.not_succeeds_of_means_of_hash hr hstep hhash hleft.1 hleft.means hfile with
      hnew | ⟨hedits, hnone⟩
    · cases hstep with
      | moved hs ht there renamed =>
          exact .ambiguous (readings_of_means hs ht hne hleft.means hnew)
    · exact .unforeseen (.inl hedits) hnone

/-- A note in `a`, with a link to a file in a directory whose name is also taken in `a`. -/
def nook : FileTree := ⟨.ofList
  [(["w"], Entry.directory), (["w", "a"], .directory), (["w", "a", "d"], .directory),
    (["w", "a", "h.md"], .file "[x](../d/x.md)\n".toUTF8 newMode), (["w", "d"], .directory),
    (["w", "d", "x.md"], .file "# X\n".toUTF8 newMode)]⟩

/-- The note when the file has been moved. -/
def nookAfter (target : String) : FileTree :=
  (nook.rename (Path.locate (location ["w"]) "d/x.md")
    (Path.locate (location ["w"]) target)).toOption.getD nook

def nookProject (dryRun : Bool) : Project :=
  .make "/w" { Settings.defaults with pathExtensions := ["md"], dryRun }

def scannableNook (dryRun : Bool) : Scannable (nookProject dryRun) ["w"] where
  tree := nook
  located := by rfl
  sound := sound_of_below (by decide) (by decide) (by decide +kernel) (by decide +kernel)
  clear := by
    cases dryRun <;> exact ⟨by decide +kernel, plain_of_below (by decide +kernel)⟩

def keeperOfNook (dryRun : Bool) : Keeper := (Keeper.make (nookProject dryRun) nook).scan.1

theorem scanned_nook (dryRun : Bool) :
    SameTree (Keeper.make (nookProject dryRun) nook) (keeperOfNook dryRun) ∧
      (keeperOfNook dryRun).InStep :=
  (scannableNook dryRun).scanned

theorem rooted_keeperOfNook (dryRun : Bool) : (keeperOfNook dryRun).Rooted ["w"] :=
  (scannableNook dryRun).rooted

theorem dryRun_keeperOfNook (dryRun : Bool) :
    (keeperOfNook dryRun).project.settings.dryRun = dryRun := by
  rw [(scanned_nook dryRun).1.project]
  rfl

theorem nook_moved (dryRun : Bool) {target : String} (ht : Proper target)
    (hok : (nook.rename (Path.locate (location ["w"]) "d/x.md")
      (Path.locate (location ["w"]) target)).isOk = true) :
    TreeStep ["w"] (keeperOfNook dryRun).tree (.moved "d/x.md" target) (nookAfter target) := by
  have hthere : nook.entryAt ["w"] "d/x.md" = some (.file "# X\n".toUTF8 newMode) := by
    decide +kernel
  rw [(scanned_nook dryRun).1.tree]
  exact .moved (by decide) ht hthere (eq_ok_of_isOk hok nook)

/-- The file is moved to the root. -/
theorem nook_moved_up (dryRun : Bool) :
    TreeStep ["w"] (keeperOfNook dryRun).tree (.moved "d/x.md" "x.md") (nookAfter "x.md") :=
  nook_moved dryRun (by decide) (by decide +kernel)

/-- The file is moved into the directory of the same name. -/
theorem nook_moved_in (dryRun : Bool) :
    TreeStep ["w"] (keeperOfNook dryRun).tree (.moved "d/x.md" "a/d/x.md")
      (nookAfter "a/d/x.md") :=
  nook_moved dryRun (by decide) (by decide +kernel)

/-- A link of the note is found in its text. -/
theorem nook_link_found {target text : String} {dryRun : Bool}
    (hstep : TreeStep ["w"] (keeperOfNook dryRun).tree (.moved "d/x.md" target) (nookAfter target))
    (htext : ReadsAs ["w"]
      ((keeperOfNook dryRun).answered (nookAfter target) "d/x.md" target).1.tree false "a/h.md" text)
    (hhas : ((keeperOfNook dryRun).answered (nookAfter target) "d/x.md" target).1.index.Has q)
    (hsource : q.source = "a/h.md") :
    q ∈ (Links.find (nookProject dryRun).rule "a/h.md" text).references := by
  obtain ⟨hproject, hrooted, hin, -⟩ :=
    (scanned_nook dryRun).2.answered (rooted_keeperOfNook dryRun) hstep
  rw [(scanned_nook dryRun).1.project] at hproject
  obtain ⟨content, hread, hmem⟩ := hin.content hrooted hhas
  have hfound := hmem q hhas rfl
  rw [hproject, hsource] at hread hfound
  obtain rfl : content = text := Except.ok.inj (hread.symm.trans htext)
  exact hfound

/-- What the link of the note is when the file has been moved to `a/d`. -/
theorem nook_link_in : ReadsAs ["w"]
    ((keeperOfNook false).answered (nookAfter "a/d/x.md") "d/x.md" "a/d/x.md").1.tree false "a/h.md"
    "[x](d/x.md)\n" := by
  obtain ⟨-, hrooted, -, -⟩ :=
    (scanned_nook false).2.answered (rooted_keeperOfNook false) (nook_moved_in false)
  have hproper : Proper "a/h.md" := by decide
  refine (hrooted.sound.readText_eq_ok hproper).mpr ⟨_, newMode, ?_, asText?_toUTF8 _ _⟩
  decide +kernel

/-- And so the note is not as it was: read from the root, the link is one to the old place. -/
theorem nook_link_again : ReadsAs ["w"]
    ((keeperOfNook false).answeredAgain (nookAfter "a/d/x.md") "d/x.md" "a/d/x.md").1.tree false
    "a/h.md" "[x](a/d/x.md)\n" := by
  have hin := (scanned_nook false).2
  have hr := rooted_keeperOfNook false
  have hone : ((((keeperOfNook false).answered (nookAfter "a/d/x.md") "d/x.md"
      "a/d/x.md").1.planFileMove "d/x.md" "a/d/x.md").edits "a/h.md").length = 1 := by
    decide +kernel
  have hreferences : ∀ r ∈ (Links.find (nookProject false).rule "a/h.md"
      "[x](d/x.md)\n").references, Edit.inbound? r (fileMove "d/x.md" "a/d/x.md" r.source) =
        some ⟨10, 4, 1, "d/x.md", "a/d/x.md"⟩ := by
    decide +kernel
  have hedits := hin.edits_again_eq hr (nook_moved_in false) (by decide) hone
    fun q hhas hsource =>
      hreferences q (nook_link_found (nook_moved_in false) nook_link_in hhas hsource)
  have hdone : ((keeperOfNook false).answeredAgain (nookAfter "a/d/x.md") "d/x.md"
      "a/d/x.md").2.revision.failures = [] := by
    decide +kernel
  have happlied : (Edit.splice "[x](d/x.md)\n" [⟨10, 4, 1, "d/x.md", "a/d/x.md"⟩]).applied ≠ 0 := by
    decide +kernel
  have htext : (Edit.splice "[x](d/x.md)\n" [⟨10, 4, 1, "d/x.md", "a/d/x.md"⟩]).text =
      "[x](a/d/x.md)\n" := by
    decide +kernel
  have hlenient : (keeperOfNook false).project.settings.lenientText = false := by
    rw [(scanned_nook false).1.project]
    rfl
  have hbefore : ReadsAs ["w"] ((keeperOfNook false).answered (nookAfter "a/d/x.md") "d/x.md"
      "a/d/x.md").1.tree (keeperOfNook false).project.settings.lenientText "a/h.md"
      "[x](d/x.md)\n" := by
    rw [hlenient]
    exact nook_link_in
  have hread := hin.readsAs_answeredAgain hr (nook_moved_in false) (dryRun_keeperOfNook false) hdone
    (by decide) (by decide) hedits happlied hbefore
  rw [htext, hlenient] at hread
  exact hread

end Keeper

end LinkKeeper
