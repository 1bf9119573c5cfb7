import LinkKeeper.Proofs.Bystanders
import LinkKeeper.Proofs.Readings

/-!
# Links that move with what they lead to

A file that has moved may link to itself, and files of a directory that has moved may link
to each other. Such a link is found under the old place of what it leads to, and its edit is
made for the new place of its file. All edits at the place of one link are this one edit, so
that it does not matter which of them is kept, and once it is made the link leads from the
new place of the file to the new place of what it led to.
-/

namespace LinkKeeper

open FileTree
open Path (Proper isRootAbsolute)

namespace Keeper

variable {k : Keeper} {root : Spine} {after : FileTree} {op : Operation} {r : Reference}

/-- A reference is looked up under where it leads, unless it only climbs. -/
theorem InStep.mem_lookup_resolved (h : k.InStep) (hhas : k.index.Has r)
    (hp : Proper r.resolved) : r ∈ k.index.lookup r.resolved ∨
      (isRootAbsolute r.targetPath = false ∧
        ∃ n, Path.segments r.targetPath = List.replicate n Path.above) := by
  by_cases hrooted : r.rooted = r.resolved
  · exact .inl ((Index.mem_lookup h.valid h.settled hp.normal).mpr ⟨hhas, .inl hrooted⟩)
  · cases ha : isRootAbsolute r.targetPath with
    | true => exact absurd (Edit.resolve_of_isRootAbsolute ha _).symm hrooted
    | false =>
        rcases Path.baseName_resolve ha with hname | hups
        · exact .inl ((Index.mem_lookup h.valid h.settled hp.normal).mpr
            ⟨hhas, .inr (.inr ⟨hrooted, hname, rfl⟩)⟩)
        · exact .inr ⟨rfl, hups⟩

/--
What becomes of a link whose edits are all one: once it is made, or if there is nothing to
edit, the link leads to where this edit says.
-/
theorem InStep.leads (h : k.InStep) (hr : k.Rooted root) (hhas : k.index.Has r)
    (ha : after.Sound root) {m : Move} (hp : Proper m.host)
    (hown : Settings.isOwnName (Path.baseName m.host) = false)
    (hsame : after.entryAt root m.host = k.tree.entryAt root r.source) {plan : EditPlan}
    (hplan : ∀ pair ∈ plan.toList, Proper pair.1)
    (hfor : ∀ e ∈ plan.edits m.host, ∃ q, k.index.Has q ∧ q.source = r.source ∧ e.IsFor q ∧
      (q = r → Edit.inbound? r m = some e))
    (hdry : k.project.settings.dryRun = false)
    (hdone : (({ k with tree := after } : Keeper).revise plan).2.failures = [])
    (hleads : r.Leads (Edit.outcome r (Edit.inbound? r m)) m.host m.target)
    (hfound : (∀ e, Edit.inbound? r m = some e → e ∈ plan.edits m.host) ∨
      r.Leads r.target m.host m.target) :
    ∃ new, k.Becomes root r (({ k with tree := after } : Keeper).revise plan).1.tree m.host new ∧
      r.Leads new m.host m.target := by
  obtain ⟨new, hbecomes, hnew⟩ := h.becomes hr hhas ha hp hown hsame hplan fun e he => by
    obtain ⟨q, hq, hsource, hqe, -⟩ := hfor e he
    exact ⟨q, hq, hsource, hqe⟩
  refine ⟨new, hbecomes, ?_⟩
  rcases hnew with ⟨e, he, her, rfl⟩ | ⟨rfl, hwhy⟩
  · obtain ⟨q, hq, hsource, heq, hedit⟩ := hfor e he
    have hqr : q = r := by
      refine h.eq_of_place hr hhas hq ?_
      rw [Reference.place, Reference.place, hsource, ← heq.line, ← heq.columnStart, her.line,
        her.columnStart]
    rw [hedit hqr] at hleads
    exact hleads
  · rcases hfound with hfound | hleads'
    · cases hedit : Edit.inbound? r m with
      | none =>
          rw [hedit] at hleads
          exact hleads
      | some e =>
          -- an edit that there is would have been made
          have her := (Edit.of_inbound? hedit).1
          rcases hwhy with hwhy | hwhy | hwhy
          · rw [hdry] at hwhy
            exact absurd hwhy (by simp)
          · exact absurd her (hwhy e (hfound e hedit))
          · exact absurd hdone hwhy
    · exact hleads'

/-! ## A file that links to itself -/

theorem InStep.mem_edits_of_moved (h : k.InStep) {source target : String}
    (hblank : k.index.recordsFrom target = []) {e : Edit}
    (he : e ∈ (({ k with tree := after } : Keeper).planFileMove source target).edits target) :
    ∃ q, k.index.Has q ∧ q.source = source ∧ e.IsFor q ∧
      (q.resolved = source → Edit.inbound? q ⟨target, source, target⟩ = some e) := by
  rcases mem_edits_planFileMove.mp he with ⟨q, hq, hfile, hedit⟩ | ⟨-, -, q, hq, hedit⟩
  · have hhas : k.index.Has q := has_of_mem_candidates hq
    have hsource : q.source = source := by
      unfold fileMove at hfile
      dsimp only at hfile
      split at hfile
      · rename_i hs
        exact hs
      · have hmem := h.valid.mem_recordsFrom_iff.mpr ⟨hfile.symm, hhas⟩
        rw [hblank] at hmem
        exact absurd hmem (by simp)
    refine ⟨q, hhas, hsource, (Edit.of_inbound? hedit).1, fun _ => ?_⟩
    unfold fileMove at hedit
    rw [if_pos hsource] at hedit
    exact hedit
  · obtain ⟨hsource, hhas⟩ := h.valid.mem_recordsFrom_iff.mp hq
    refine ⟨q, hhas, hsource, Edit.isFor_of_outbound? hedit, fun hself => ?_⟩
    -- a link of a file to itself is no link that leads out of it
    have hnone : Edit.outbound? ({ k with tree := after } : Keeper).hasPath q source target =
        none := by
      have hresolved : Path.resolve (Path.parent source) q.targetPath = source := by
        rw [← hsource] at hself ⊢
        exact hself
      unfold Edit.outbound?
      dsimp only
      rw [hresolved, if_pos (by simp)]
    rw [hnone] at hedit
    exact absurd hedit (by simp)

theorem InStep.selfLink_follows (h : k.InStep) (hr : k.Rooted root) {source target : String}
    (hstep : TreeStep root k.tree (.moved source target) after) (ha : after.Sound root)
    (hdry : k.project.settings.dryRun = false)
    (hdone : (({ k with tree := after } : Keeper).apply
      (.moved source target)).2.revision.failures = [])
    (hhas : k.index.Has r) (hholder : r.source = source) (hself : r.resolved = source)
    (hblank : k.index.recordsFrom target = [])
    (hown : Settings.isOwnName (Path.baseName target) = false)
    (hroot : isRootAbsolute r.targetPath = true ∨ Edit.isBare r.targetPath = true ∨
      Path.parent source ≠ "" ∨ Path.parent target = "") :
    ∃ new, k.Becomes root r (({ k with tree := after } : Keeper).apply
        (.moved source target)).1.tree target new ∧ r.Leads new target target := by
  obtain ⟨htree, hreport⟩ := apply_writes_of_step hr hstep ha
  have hplan := h.proper_preview hstep
  rw [hreport] at hdone
  rw [htree]
  cases hstep with
  | @moved _ _ content mode _ hs ht there renamed =>
  have hproper : Proper r.resolved := by
    rw [hself]
    exact hs
  have hsame : after.entryAt root target = k.tree.entryAt root r.source := by
    rw [hr.sound.entryAt_moved hs ht there renamed ht, if_pos rfl, hholder, there]
  have hmeans : Edit.means r source = true := (Edit.means_iff hs).mpr (.inr hself)
  have hleads : r.Leads (Edit.outcome r (Edit.inbound? r ⟨target, source, target⟩)) target
      target := by
    refine @Edit.leads_outcome r ⟨target, source, target⟩ hmeans ht ht fun habs hrooted => ?_
    rcases hroot with hroot | hbare | hroot | hroot
    · rw [habs] at hroot
      exact absurd hroot (by simp)
    · exact .inr ⟨hbare, rfl⟩
    · -- read from its directory and from the root, the link leads to one file of the root
      have hnil := Edit.segments_nil_of_readings_agree hs habs hself hrooted
      rw [hholder] at hnil
      have hparent := Path.normalize_parent hs
      rw [Path.normalize, hnil] at hparent
      exact absurd hparent.symm hroot
    · rw [hroot]
      exact .inl rfl
  refine h.leads hr hhas ha (m := ⟨target, source, target⟩) ht hown hsame hplan ?_ hdry hdone hleads
    (.inl ?_)
  · intro e he
    obtain ⟨q, hq, hsource, hfor, hedit⟩ := h.mem_edits_of_moved hblank he
    refine ⟨q, hq, hsource.trans hholder.symm, hfor, fun hqr => ?_⟩
    rw [hqr] at hedit
    exact hedit hself
  · intro e hedit
    refine mem_edits_planFileMove.mpr (.inl ⟨r, ?_, ?_, ?_⟩)
    · refine (mem_candidates fun q hq hplace => h.eq_of_place hr hhas hq hplace).mpr
        ⟨source, by simp [spellings], ?_⟩
      rcases h.mem_lookup_resolved hhas hproper with hfound | ⟨habs, n, hups⟩
      · rw [hself] at hfound
        exact hfound
      · rw [Reference.resolved, hholder] at hself
        exact absurd hself (Path.resolve_ups_ne hs habs hups)
    · unfold fileMove
      rw [if_pos hholder]
    · unfold fileMove
      rw [if_pos hholder]
      exact hedit

/-! ## Files of a directory that link to each other -/

theorem InStep.mem_edits_of_directoryMoved (h : k.InStep) (hr : k.Rooted root)
    {source target host : String} (hs : Proper source) (ht : Proper target)
    (hfree : k.tree.entryAt root target = none) (hhas : k.index.Has r)
    (hhost : Path.rebase? r.source source target = some host) {e : Edit}
    (he : e ∈ (({ k with tree := after } : Keeper).planDirectoryMove source target).edits host) :
    ∃ q, k.index.Has q ∧ q.source = r.source ∧ e.IsFor q ∧
      (Path.isUnder source q.resolved = true → ∃ old new, Proper old ∧
        Path.rebase? old source target = some new ∧ Edit.means q old = true ∧
        Edit.inbound? q ⟨host, old, new⟩ = some e) := by
  have hunder := (Path.isUnder_of_rebase? (h.proper_source hhas).normal hs ht hhost).2
  rcases mem_edits_planDirectoryMove.mp he with
    ⟨old, hold, new, hnew, q, hq, hfile, hedit⟩ | ⟨-, moved, hmoved, hfile, q, hq, hout, hedit⟩
  · have hhas' : k.index.Has q := Index.has_of_mem_lookup hq
    have hrebased : Path.rebase? q.source source target = some host := by
      unfold subtreeMove at hfile
      dsimp only at hfile
      cases hq' : Path.rebase? q.source source target with
      | some other =>
          rw [hq', Option.getD_some] at hfile
          rw [hfile]
      | none =>
          -- below the free place there was no file with records
          rw [hq', Option.getD_none] at hfile
          have hmem := h.valid.mem_recordsFrom_iff.mpr ⟨rfl, hhas'⟩
          rw [← hfile, h.current host not_false, expected_below_free hr ht hfree hunder] at hmem
          exact absurd hmem (by simp)
    obtain ⟨hfor, hmeans⟩ := Edit.of_inbound? hedit
    refine ⟨q, hhas', ?_, hfor, fun _ => ⟨old, new, h.proper_target hs hold, hnew, hmeans, ?_⟩⟩
    · exact Path.rebase?_injective (h.proper_source hhas').normal (h.proper_source hhas).normal hs
        ht hrebased hhost
    · unfold subtreeMove at hedit
      rw [hrebased] at hedit
      exact hedit
  · obtain ⟨hsource, hhas'⟩ := h.valid.mem_recordsFrom_iff.mp hq
    refine ⟨q, hhas', ?_, Edit.isFor_of_outbound? hedit, fun hin => ?_⟩
    · rw [hsource]
      have hproper := (isSource_iff.mp (h.sources moved (List.ne_nil_of_mem hq))).1
      exact Path.rebase?_injective hproper.normal (h.proper_source hhas).normal hs ht hfile hhost
    · rw [hin] at hout
      exact absurd hout (by simp)

/-- A file stands in the moved directory where it stood in the old one. -/
theorem entryAt_rebased {t moved : FileTree} (h : t.Sound root) {source target path new : String}
    (hs : Proper source) (ht : Proper target) (hp : Proper path)
    (he : t.entryAt root source = some .directory) (hfree : t.entryAt root target = none)
    (hm : t.rename (Path.locate (location root) source) (Path.locate (location root) target) =
      .ok moved) (hnew : Path.rebase? path source target = some new) :
    moved.entryAt root new = t.entryAt root path := by
  obtain ⟨more, hpath, hseg, -⟩ := Path.rebase?_eq_some hp.normal hs ht hnew
  have hspine : Path.spine new = Path.spine target ++ more.map String.ofList := by
    rw [Path.spine, hseg, List.map_append, Path.spine]
  have hspine' : Path.spine path = Path.spine source ++ more.map String.ofList := by
    rw [Path.spine, hpath, List.map_append, Path.spine]
  rw [h.entryAt_directoryMoved hs ht he hfree hm, Text.isPrefixOf?_eq_some.mpr hspine]
  dsimp only
  rw [entryAt, hspine']

theorem InStep.sibling_follows (h : k.InStep) (hr : k.Rooted root) {source target : String}
    (hstep : TreeStep root k.tree (.directoryMoved source target) after) (ha : after.Sound root)
    (hdry : k.project.settings.dryRun = false)
    (hdone : (({ k with tree := after } : Keeper).apply
      (.directoryMoved source target)).2.revision.failures = [])
    (hhas : k.index.Has r) (hholder : Path.isUnder source r.source = true)
    (hin : Path.isUnder source r.resolved = true)
    (hroot : isRootAbsolute r.targetPath = true ∨ Path.isUnder source r.rooted = false) :
    ∃ host goal new, Path.rebase? r.source source target = some host ∧
      Path.rebase? r.resolved source target = some goal ∧
      k.Becomes root r (({ k with tree := after } : Keeper).apply
        (.directoryMoved source target)).1.tree host new ∧ r.Leads new host goal := by
  obtain ⟨htree, hreport⟩ := apply_writes_of_step hr hstep ha
  have hplan := h.proper_preview hstep
  rw [hreport] at hdone
  rw [htree]
  cases hstep with
  | directoryMoved hs ht there free renamed =>
  have hfile := h.proper_source hhas
  have hproper : Proper r.resolved := hs.of_isUnder (Path.normalize_resolve _ _) hin
  obtain ⟨host, hhost⟩ := Path.exists_rebase? hs hholder target
  obtain ⟨goal, hgoal⟩ := Path.exists_rebase? hs hin target
  obtain ⟨_, _, _, hphost⟩ := Path.rebase?_eq_some hfile.normal hs ht hhost
  obtain ⟨_, _, _, hpgoal⟩ := Path.rebase?_eq_some hproper.normal hs ht hgoal
  have hne : r.source ≠ source := by
    intro he
    obtain ⟨content, hread, -⟩ := h.content hr hhas
    unfold ReadsAs at hread
    rw [hr.sound.readText_eq_ok hfile, he, there] at hread
    obtain ⟨bytes, mode, hentry, -⟩ := hread
    exact absurd hentry (by simp)
  have hsame := entryAt_rebased hr.sound hs ht hfile there free renamed hhost
  have hmeans : Edit.means r r.resolved = true := (Edit.means_iff hproper).mpr (.inr rfl)
  have hown : Settings.isOwnName (Path.baseName host) = false := by
    rw [Path.baseName_rebased hs ht hfile hne hhost]
    exact h.source_not_own hhas
  have hother : isRootAbsolute r.targetPath = false → r.rooted ≠ r.resolved := by
    intro habs he
    have hnot := hroot.resolve_left (by rw [habs]; simp)
    rw [he, hin] at hnot
    exact absurd hnot (by simp)
  have hleads := @Edit.leads_outcome r ⟨host, r.resolved, goal⟩ hmeans hphost hpgoal
    fun habs he => absurd he (hother habs)
  have hfor : ∀ e ∈ (({ k with tree := after } : Keeper).planDirectoryMove source target).edits
      host, ∃ q, k.index.Has q ∧ q.source = r.source ∧ e.IsFor q ∧
        (q = r → Edit.inbound? r ⟨host, r.resolved, goal⟩ = some e) := by
    intro e he
    obtain ⟨q, hq, hsource, hfor, hedit⟩ :=
      h.mem_edits_of_directoryMoved hr hs ht free hhas hhost he
    refine ⟨q, hq, hsource, hfor, fun hqr => ?_⟩
    rw [hqr] at hedit
    obtain ⟨old, new, hpold, hnew, hmeansold, hedit⟩ := hedit hin
    have hold : old = r.resolved := by
      rcases (Edit.means_iff hpold).mp hmeansold with hold | hold
      · rcases hroot with habs | hout
        · rw [← hold]
          exact (Edit.resolve_of_isRootAbsolute habs _).symm
        · rw [hold, (Path.isUnder_of_rebase? hpold.normal hs ht hnew).1] at hout
          exact absurd hout (by simp)
      · exact hold.symm
    rw [hold] at hnew hedit
    rw [hgoal] at hnew
    rw [Option.some.inj hnew]
    exact hedit
  have hfound : (∀ e, Edit.inbound? r ⟨host, r.resolved, goal⟩ = some e →
        e ∈ (({ k with tree := after } : Keeper).planDirectoryMove source target).edits host) ∨
      r.Leads r.target host goal := by
    rcases h.mem_lookup_resolved hhas hproper with hfound | ⟨habs, n, hups⟩
    · refine .inl fun e hedit => mem_edits_planDirectoryMove.mpr (.inl ⟨r.resolved, ?_, goal, hgoal,
        r, hfound, ?_, ?_⟩)
      · obtain ⟨id, record, hrecord, hrecordr⟩ := hhas
        exact Index.mem_targetsUnder.mpr ⟨hin, id, record, hrecord, .inr (by rw [hrecordr])⟩
      · unfold subtreeMove
        rw [hhost]
        rfl
      · unfold subtreeMove
        rw [hhost]
        exact hedit
    · exact .inr (Reference.leads_target
        (Path.resolve_rebased hs ht hfile hne hhost hproper hgoal habs hups rfl))
  obtain ⟨new, hbecomes, hnew⟩ := h.leads hr hhas ha (m := ⟨host, r.resolved, goal⟩) hphost hown
    hsame hplan hfor hdry hdone hleads hfound
  exact ⟨host, goal, new, hhost, hgoal, hbecomes, hnew⟩

/-- Notes in which a directory holds one of its own name, and a note at the root that links to itself. -/
def nest : FileTree := ⟨.ofList
  [(["w"], Entry.directory), (["w", "a"], .directory), (["w", "a", "a"], .directory),
    (["w", "a", "a", "y.md"], .file "# Y\n".toUTF8 newMode),
    (["w", "a", "x.md"], .file "[y](a/y.md)\n".toUTF8 newMode),
    (["w", "a", "z.md"], .file "[y](../a/a/y.md)\n".toUTF8 newMode),
    (["w", "s.md"], .file "[s](./s.md)\n".toUTF8 newMode)]⟩

/-- The notes when something in them has moved. -/
def nestAfter (source target : String) : FileTree :=
  (nest.rename (Path.locate (location ["w"]) source)
    (Path.locate (location ["w"]) target)).toOption.getD nest

def keeperOfNest : Keeper := (Keeper.make shelfProject nest).scan.1

/-- A keeper of the notes that is about to hear of a move. -/
def keeperAfter (source target : String) : Keeper :=
  { keeperOfNest with tree := nestAfter source target }

/-- The link of the note at the root to itself. -/
def selfLink : Reference := ⟨some "s", 10, 4, .markdownInline, 1, "s.md", "./s.md"⟩

/-- A link that has two readings in the directory. -/
def nestLink : Reference := ⟨some "y", 10, 4, .markdownInline, 1, "a/x.md", "a/y.md"⟩

/-- A link that leads out of the directory and back in. -/
def climbingLink : Reference := ⟨some "y", 15, 4, .markdownInline, 1, "a/z.md", "../a/a/y.md"⟩

def scannableNest : Scannable shelfProject ["w"] :=
  scannableNotes nest (by decide +kernel) (by decide +kernel) (by decide +kernel)

theorem scanned_nest :
    SameTree (Keeper.make shelfProject nest) keeperOfNest ∧ keeperOfNest.InStep :=
  scannableNest.scanned

theorem tree_keeperOfNest : keeperOfNest.tree = nest := scanned_nest.1.tree

theorem rooted_keeperOfNest : keeperOfNest.Rooted ["w"] := scannableNest.rooted

theorem nest_has : keeperOfNest.index.Has selfLink ∧ keeperOfNest.index.Has nestLink ∧
    keeperOfNest.index.Has climbingLink := by
  have hself : selfLink ∈ keeperOfNest.index.recordsFrom "s.md" := by decide +kernel
  have hlink : nestLink ∈ keeperOfNest.index.recordsFrom "a/x.md" := by decide +kernel
  have hclimbing : climbingLink ∈ keeperOfNest.index.recordsFrom "a/z.md" := by decide +kernel
  exact ⟨scanned_nest.2.valid.has hself, scanned_nest.2.valid.has hlink,
    scanned_nest.2.valid.has hclimbing⟩

theorem nest_moved {target : String} (hp : Proper target)
    (hok : (nest.rename (Path.locate (location ["w"]) "s.md")
      (Path.locate (location ["w"]) target)).isOk = true) :
    TreeStep ["w"] keeperOfNest.tree (.moved "s.md" target) (nestAfter "s.md" target) := by
  have hthere : nest.entryAt ["w"] "s.md" = some (.file "[s](./s.md)\n".toUTF8 newMode) := by
    decide +kernel
  rw [tree_keeperOfNest]
  exact .moved (by decide) hp hthere (eq_ok_of_isOk hok nest)

theorem nest_directoryMoved :
    TreeStep ["w"] keeperOfNest.tree (.directoryMoved "a" "b") (nestAfter "a" "b") := by
  have hthere : nest.entryAt ["w"] "a" = some .directory := by decide +kernel
  have hfree : nest.entryAt ["w"] "b" = none := by decide +kernel
  have hok : (nest.rename (Path.locate (location ["w"]) "a")
      (Path.locate (location ["w"]) "b")).isOk = true := by decide +kernel
  rw [tree_keeperOfNest]
  exact .directoryMoved (by decide) (by decide) hthere
    hfree (eq_ok_of_isOk hok nest)

/-- The note at the root is found twice, once under its path and once under its name. -/
theorem candidates_selfLink (source target : String) :
    (keeperAfter source target).candidates "s.md" = [selfLink] := by
  have hhits : (spellings "s.md").flatMap keeperOfNest.index.lookup = [selfLink, selfLink] := by
    decide +kernel
  unfold candidates keeperAfter
  dsimp only
  rw [hhits, List.mergeSort_of_pairwise (by decide)]
  decide

theorem writes_moved {target : String}
    (hfile : (nestAfter "s.md" target).isDirectory
      ((keeperAfter "s.md" target).locate target) = false) :
    ((keeperAfter "s.md" target).apply (.moved "s.md" target)).1.tree =
        ((keeperAfter "s.md" target).revise
          ((keeperAfter "s.md" target).planFileMove "s.md" target)).1.tree ∧
      ((keeperAfter "s.md" target).apply (.moved "s.md" target)).2.revision =
        ((keeperAfter "s.md" target).revise
          ((keeperAfter "s.md" target).planFileMove "s.md" target)).2 := by
  refine apply_writes (keeperAfter "s.md" target) (.moved "s.md" target) fun source other hop => ?_
  obtain ⟨rfl, rfl⟩ := Operation.moved.inj hop
  exact hfile

theorem writes_directoryMoved :
    ((keeperAfter "a" "b").apply (.directoryMoved "a" "b")).1.tree =
        ((keeperAfter "a" "b").revise
          ((keeperAfter "a" "b").planDirectoryMove "a" "b")).1.tree ∧
      ((keeperAfter "a" "b").apply (.directoryMoved "a" "b")).2.revision =
        ((keeperAfter "a" "b").revise
          ((keeperAfter "a" "b").planDirectoryMove "a" "b")).2 :=
  apply_writes (keeperAfter "a" "b") (.directoryMoved "a" "b") fun _ _ hop => nomatch hop

theorem failures_directoryMoved :
    ((keeperAfter "a" "b").apply (.directoryMoved "a" "b")).2.revision.failures = [] := by
  rw [writes_directoryMoved.2]
  decide +kernel

theorem failures_moved :
    ((keeperAfter "s.md" "t.md").apply (.moved "s.md" "t.md")).2.revision.failures = [] := by
  rw [(writes_moved (by decide +kernel)).2]
  unfold planFileMove
  rw [candidates_selfLink]
  decide +kernel

theorem dryRun_keeperOfNest : keeperOfNest.project.settings.dryRun = false := by
  rw [scanned_nest.1.project]
  rfl

theorem sound_nestAfter : (nestAfter "s.md" "t.md").Sound ["w"] ∧ (nestAfter "a" "b").Sound ["w"] :=
  ⟨sound_of_below (by decide) (by decide) (by decide +kernel) (by decide +kernel),
    sound_of_below (by decide) (by decide) (by decide +kernel) (by decide +kernel)⟩

end Keeper

end LinkKeeper
