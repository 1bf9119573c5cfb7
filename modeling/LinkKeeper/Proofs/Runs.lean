import LinkKeeper.Proofs.Maintaining

/-!
# Runs

A run begins with a scan. Then the tree changes, the change is reported, and the keeper
answers; and so on. The answers go by the index as earlier answers have left it, and they
write to the tree themselves, so that an error would be carried on. There is none: after
every answer the index is the one that a new keeper would make of the tree as it is.
-/

namespace LinkKeeper

open FileTree

namespace Keeper

variable {k : Keeper} {p : Project} {root : Spine} {t after : FileTree} {op : Operation}

/-- The keepers that come of scanning a tree and of answering what happens to it. -/
inductive Run (p : Project) (root : Spine) : Keeper → Prop where
  | scan {t : FileTree} (hs : t.Sound root) (hp : p.Plain root t) :
      Run p root (Keeper.make p t).scan.1
  | step {k : Keeper} {op : Operation} {after : FileTree} (h : Run p root k)
      (hstep : TreeStep root k.tree op after) (hs : after.Sound root) (hp : p.Plain root after) :
      Run p root (({ k with tree := after } : Keeper).apply op).1

/-- A keeper that has just scanned its tree is in step. -/
theorem scan_inStep (hroot : p.root = location root) (hs : t.Sound root) (hc : p.Clear root t) :
    SameTree (Keeper.make p t) (Keeper.make p t).scan.1 ∧ (Keeper.make p t).scan.1.InStep := by
  have hr : (Keeper.make p t).Rooted root := ⟨hroot, hs⟩
  have hnil : ∀ s, (Keeper.make p t).index.recordsFrom s = [] := by
    intro s
    simp [Keeper.make, Index.empty, Index.recordsFrom, Index.references]
  have hb : (Keeper.make p t).BlankBut (fun _ => True) fun _ => False := by
    refine ⟨⟨Index.valid_empty, Index.settled_empty.mono fun s hf => hf.elim, ?_, ?_⟩,
      fun s _ => hnil s⟩
    · intro s hne
      exact absurd (hnil s) hne
    · intro s hn
      exact absurd (.inl trivial) hn
  obtain ⟨hsame, hin⟩ := hb.scanUnder hr hc (.inl rfl) fun s _ _ => rfl
  unfold Keeper.scan
  dsimp only
  exact ⟨hsame.trans (sameTree_note _ _), hin.note _⟩

/-- A tree that a project can scan. -/
structure Scannable (p : Project) (root : Spine) where
  tree : FileTree
  located : p.root = location root
  sound : tree.Sound root
  clear : p.Clear root tree

/-- The keeper that has scanned the tree. -/
def Scannable.keeper (s : Scannable p root) : Keeper := (Keeper.make p s.tree).scan.1

theorem Scannable.scanned (s : Scannable p root) :
    SameTree (Keeper.make p s.tree) s.keeper ∧ s.keeper.InStep :=
  scan_inStep s.located s.sound s.clear

theorem Scannable.rooted (s : Scannable p root) : s.keeper.Rooted root :=
  s.scanned.1.rooted ⟨s.located, s.sound⟩

/-- Beside the log an operation does what its answer does. -/
theorem Answered.apply (h : ({ k with log := [] } : Keeper).Answered root
    (({ k with log := [] } : Keeper).answer op).1) : k.Answered root (k.apply op).1 := by
  unfold Keeper.apply
  dsimp only at h ⊢
  generalize ({ k with log := [] } : Keeper).answer op = answer at h ⊢
  obtain ⟨done, report⟩ := answer
  exact ⟨h.project, h.keeps, h.inStep.of_index ⟨rfl, rfl⟩ rfl⟩

/-- **A change and its answer.** The keeper was in step with the tree before, and is with the tree after. -/
theorem InStep.apply (h : k.InStep) (hr : k.Rooted root) (hstep : TreeStep root k.tree op after)
    (hs : after.Sound root) (hc : k.project.Clear root after) :
    ({ k with tree := after } : Keeper).Answered root
      (({ k with tree := after } : Keeper).apply op).1 := by
  have hquiet : ({ k with log := [] } : Keeper).InStep := h.of_index ⟨rfl, rfl⟩ rfl
  have hr' : ({ k with log := [] } : Keeper).Rooted root := ⟨hr.located, hr.sound⟩
  exact Answered.apply (hquiet.answer hr' hstep hs hc)

/-- To answer the move of a file, nothing else has to be clear about the tree. -/
theorem InStep.apply_moved (h : k.InStep) (hr : k.Rooted root) {source target : String}
    (hstep : TreeStep root k.tree (.moved source target) after) (hs : after.Sound root) :
    ({ k with tree := after } : Keeper).Answered root
      (({ k with tree := after } : Keeper).apply (.moved source target)).1 := by
  have hquiet : ({ k with log := [] } : Keeper).InStep := h.of_index ⟨rfl, rfl⟩ rfl
  have hr' : ({ k with log := [] } : Keeper).Rooted root := ⟨hr.located, hr.sound⟩
  exact Answered.apply (hquiet.answer_moved hr' hstep hs)

/-- Every keeper of a run is in step, and its tree is one that can be scanned. -/
theorem Run.inStep (hroot : p.root = location root) (hempty : "" ∉ p.settings.ignoredDirectories)
    (h : Run p root k) : k.project = p ∧ k.Rooted root ∧ p.Clear root k.tree ∧ k.InStep := by
  induction h with
  | scan hs hp =>
      have hc : p.Clear root _ := ⟨hempty, hp⟩
      obtain ⟨hsame, hin⟩ := scan_inStep hroot hs hc
      exact ⟨hsame.project, hsame.rooted ⟨hroot, hs⟩, by rw [hsame.tree]; exact hc, hin⟩
  | step h hstep hs hp ih =>
      have hc : p.Clear root _ := ⟨hempty, hp⟩
      obtain ⟨hproject, hr, -, hin⟩ := ih
      have hanswer := hin.apply hr hstep hs (by rw [hproject]; exact hc)
      -- the answer may have written to the tree, but no more than texts and backups
      obtain ⟨changed, hkeeps⟩ := hanswer.keeps
      have hsame := hanswer.project.trans hproject
      exact ⟨hsame, ⟨by rw [hsame]; exact hroot, hkeeps.sound⟩, clear_of_keepsBut hc hkeeps,
        hanswer.inStep⟩

/--
**Keeping up is as good as starting over.**

After every answer of a run the index holds for each file the references, in their order,
and for each key the references, in some order, that a new keeper would find by scanning
the tree as it stands then. That takes in the files which the answers have revised, those
they could not revise, and those that cannot be read.
-/
theorem Run.index_eq_scan (hroot : p.root = location root)
    (hempty : "" ∉ p.settings.ignoredDirectories) (h : Run p root k) :
    (∀ s, k.index.recordsFrom s = (Keeper.make p k.tree).scan.1.index.recordsFrom s) ∧
    ∀ key, (k.index.references (k.index.byTarget.numbers key)).Perm
      ((Keeper.make p k.tree).scan.1.index.references
        ((Keeper.make p k.tree).scan.1.index.byTarget.numbers key)) := by
  obtain ⟨hproject, hr, hc, hin⟩ := h.inStep hroot hempty
  obtain ⟨hsame, hfresh⟩ := scan_inStep hroot hr.sound hc
  have heq : ∀ s, k.index.recordsFrom s =
      (Keeper.make p k.tree).scan.1.index.recordsFrom s := by
    intro s
    have hmade : SameTree (Keeper.make p k.tree) k := ⟨hproject, rfl⟩
    rw [hin.current s not_false, hfresh.current s not_false, hsame.expected, hmade.expected]
  exact ⟨heq, hin.valid.bucket_perm hin.settled hfresh.valid hfresh.settled heq⟩

/-- Two notes, the first with a link to the second. -/
def twoNotes : FileTree := ⟨.ofList
  [(["w"], Entry.directory), (["w", "a.md"], .file "[b](b.md)\n".toUTF8 newMode),
    (["w", "b.md"], .file "# B\n".toUTF8 newMode)]⟩

/-- The same when the second has got another name. -/
def twoNotesMoved : FileTree := (twoNotes.rename "/w/b.md" "/w/c.md").toOption.getD twoNotes

/-- A keeper of the two notes that has been told of the new name. -/
def keeperOfNotes : Keeper :=
  (({ (Keeper.make (.make "/w" .defaults) twoNotes).scan.1 with
    tree := twoNotesMoved } : Keeper).apply (.moved "b.md" "c.md")).1

theorem index_eq_scan_of_notes :
    Run (.make "/w" .defaults) ["w"] keeperOfNotes ∧
    keeperOfNotes.index.recordsFrom "a.md" =
      (Keeper.make (.make "/w" .defaults) keeperOfNotes.tree).scan.1.index.recordsFrom "a.md" := by
  have hs : twoNotes.Sound ["w"] :=
    sound_of_below (by decide) (by decide) (by decide +kernel) (by decide +kernel)
  have hmoved : twoNotesMoved.Sound ["w"] :=
    sound_of_below (by decide) (by decide) (by decide +kernel) (by decide +kernel)
  have hp : (Project.make "/w" .defaults).Plain ["w"] twoNotes := plain_of_below (by decide +kernel)
  have hpmoved : (Project.make "/w" .defaults).Plain ["w"] twoNotesMoved :=
    plain_of_below (by decide +kernel)
  have hroot : (Project.make "/w" .defaults).root = location ["w"] := by decide
  have hempty : "" ∉ (Project.make "/w" .defaults).settings.ignoredDirectories := by decide +kernel
  have hrenamed : twoNotes.rename (Path.locate (location ["w"]) "b.md")
      (Path.locate (location ["w"]) "c.md") = .ok twoNotesMoved := by
    have hok : (twoNotes.rename "/w/b.md" "/w/c.md").isOk = true := by decide +kernel
    exact eq_ok_of_isOk hok twoNotes
  have hstep : TreeStep ["w"] (Keeper.make (.make "/w" .defaults) twoNotes).scan.1.tree
      (.moved "b.md" "c.md") twoNotesMoved := by
    have hthere : twoNotes.entryAt ["w"] "b.md" = some (.file "# B\n".toUTF8 newMode) := by
      decide +kernel
    rw [(scan_inStep hroot hs ⟨hempty, hp⟩).1.tree]
    exact .moved ⟨by decide, by decide, by decide⟩ ⟨by decide, by decide, by decide⟩ hthere hrenamed
  have hrun : Run (.make "/w" .defaults) ["w"] keeperOfNotes :=
    (Run.scan hs hp).step hstep hmoved hpmoved
  exact ⟨hrun, (Run.index_eq_scan hroot hempty hrun).1 "a.md"⟩

/-! ## An empty name among the ignored ones -/

/--
Settings that ignore directories without a name. What lies at the root is in such a
directory, and so every directory at the root is passed over, but not what is in it.
-/
def nameless : Project :=
  .make "/w" { Settings.defaults with ignoredDirectories := [""], pathExtensions := ["md"] }

/-- A tree with one directory and nothing in it. -/
def onlyDocs : FileTree := ⟨.ofList [(["w"], Entry.directory), (["w", "docs"], .directory)]⟩

/-- The same with a note in the directory. -/
def docsWithNote : FileTree :=
  onlyDocs.put ["w", "docs", "a.md"] (.file "[b](b.md)\n".toUTF8 newMode)

/-- A keeper of the directory that has been told of the note. -/
def keeperOfDocs : Keeper :=
  (({ (Keeper.make nameless onlyDocs).scan.1 with tree := docsWithNote } : Keeper).apply
    (.created "docs/a.md")).1

/-- A new note is read when it is reported, and a scan would not get to it. -/
theorem index_ne_scan_of_nameless :
    nameless.root = location ["w"] ∧ nameless.ignores "docs/a.md" = false ∧
    Run nameless ["w"] keeperOfDocs ∧
    (keeperOfDocs.index.recordsFrom "docs/a.md").length = 1 ∧
    (Keeper.make nameless keeperOfDocs.tree).scan.1.index.recordsFrom "docs/a.md" = [] := by
  have hs : onlyDocs.Sound ["w"] :=
    sound_of_below (by decide) (by decide) (by decide +kernel) (by decide +kernel)
  have hafter : docsWithNote.Sound ["w"] :=
    sound_of_below (by decide) (by decide) (by decide +kernel) (by decide +kernel)
  have hp : nameless.Plain ["w"] onlyDocs := plain_of_below (by decide +kernel)
  have hpafter : nameless.Plain ["w"] docsWithNote := plain_of_below (by decide +kernel)
  have hstep : TreeStep ["w"] onlyDocs (.created "docs/a.md") docsWithNote := by
    have hfree : onlyDocs.entryAt ["w"] "docs/a.md" = none := by decide +kernel
    have hthere : docsWithNote.entryAt ["w"] "docs/a.md" ≠ none := by decide +kernel
    refine .created ⟨by decide, by decide, by decide⟩ hfree hthere fun other hother => ?_
    rw [docsWithNote, getElem?_put, if_neg]
    rintro rfl
    exact hother (List.prefix_refl _)
  have htree : (Keeper.make nameless onlyDocs).scan.1.tree = onlyDocs := rfl
  rw [← htree] at hstep
  exact ⟨by decide, by decide +kernel, (Run.scan hs hp).step hstep hafter hpafter,
    by decide +kernel, by decide +kernel⟩

end Keeper

end LinkKeeper
