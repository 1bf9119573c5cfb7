import LinkKeeper.Proofs.Following
import LinkKeeper.Proofs.Runs

/-!
# Links that a move has nothing to do with

A move is answered by edits of links that lead to what has moved. A link leads there when
one of its two readings does, from the directory of its file or from the root. A link with
neither reading there is left alone, byte for byte, whatever else is edited around it.

Both readings count, also when the other one leads to something that is there: a link like
`d/b.md` follows a file `d/b.md` of the root that moves, though read from its own directory
it leads to another file of that name.
-/

namespace LinkKeeper

open FileTree
open Path (Proper)

namespace Operation

/-- Whether an operation is a move. -/
def isMove : Operation → Bool
  | .moved _ _ | .directoryMoved _ _ => true
  | .created _ | .deleted _ | .modified _ => false

/-- Whether something with this path has moved. -/
def carries : Operation → String → Bool
  | .moved source _, path => path == source
  | .directoryMoved source _, path => Path.isUnder source path
  | .created _, _ | .deleted _, _ | .modified _, _ => false

/-- Whether a file has moved over this one. -/
def overwrites : Operation → String → Bool
  | .moved _ target, path => path == target
  | .created _, _ | .deleted _, _ | .directoryMoved _ _, _ | .modified _, _ => false

end Operation

namespace Keeper

variable {k : Keeper} {root : Spine} {after : FileTree} {op : Operation} {r : Reference}
  {stale : String → Prop}

theorem InStep.proper_target (h : k.InStep) {source old : String} (hs : Proper source)
    (hold : old ∈ k.index.targetsUnder source) : Proper old := by
  obtain ⟨hunder, id, record, hrecord, hpath⟩ := Index.mem_targetsUnder.mp hold
  refine hs.of_isUnder ?_ hunder
  rcases hpath with rfl | rfl
  · rw [Index.Settled.key h.settled hrecord]
    exact Path.normalize_normalize _
  · exact Path.normalize_resolve _ _

/-- A file with records that neither moves nor is replaced stays as it is. -/
theorem InStep.not_touched (h : k.InStep) (hr : k.Rooted root)
    (hstep : TreeStep root k.tree op after) (hmove : op.isMove = true) (hhas : k.index.Has r)
    (hstays : op.carries r.source = false) (hkept : op.overwrites r.source = false) :
    op.touches r.source = false := by
  cases hstep with
  | created hp free there same => exact absurd hmove (by simp [Operation.isMove])
  | deleted hp there => exact absurd hmove (by simp [Operation.isMove])
  | modified hp there content mode => exact absurd hmove (by simp [Operation.isMove])
  | moved hs ht there renamed =>
      rw [Operation.carries] at hstays
      rw [Operation.overwrites] at hkept
      rw [Operation.touches, hstays, hkept]
      rfl
  | @directoryMoved source target after hs ht there free renamed =>
      rw [Operation.carries] at hstays
      rw [Operation.touches, hstays, Bool.false_or]
      -- below the free place there was no file with records
      cases hu : Path.isUnder target r.source with
      | false => rfl
      | true =>
          have hmem := h.valid.mem_recordsFrom_iff.mpr ⟨rfl, hhas⟩
          rw [h.current r.source not_false, expected_below_free hr ht free hu] at hmem
          exact absurd hmem (by simp)

/-- **The edits of a file that stays.** Each is for a reference in it that means something that has moved. -/
theorem InStep.mem_edits_of_not_touched (h : k.InStep) {t : FileTree}
    (hstep : TreeStep root t op after) {file : String} (hnot : op.touches file = false) {e : Edit}
    (he : e ∈ (({ k with tree := after } : Keeper).preview op).edits file) :
    ∃ q, k.index.Has q ∧ q.source = file ∧ e.IsFor q ∧
      ∃ path, Proper path ∧ op.carries path = true ∧ Edit.means q path = true := by
  have hnone : ∀ {e : Edit}, e ∉ (∅ : EditPlan).edits file := by
    intro e he
    rw [EditPlan.edits_empty] at he
    exact absurd he (by simp)
  cases hstep with
  | created hp free there same => exact absurd he hnone
  | deleted hp there => exact absurd he hnone
  | modified hp there content mode => exact absurd he hnone
  | @moved source target content mode after hs ht there renamed =>
      have hne : file ≠ source ∧ file ≠ target := by simpa [Operation.touches] using hnot
      rcases mem_edits_planFileMove.mp he with ⟨q, hq, hfile, hedit⟩ | ⟨-, hfile, -⟩
      · have hhost : q.source = file := by
          unfold fileMove at hfile
          dsimp only at hfile
          split at hfile
          · exact absurd hfile hne.2
          · exact hfile.symm
        obtain ⟨hfor, hmeans⟩ := Edit.of_inbound? hedit
        exact ⟨q, has_of_mem_candidates hq, hhost, hfor, source, hs, by simp [Operation.carries],
          hmeans⟩
      · exact absurd hfile hne.2
  | @directoryMoved source target after hs ht there free renamed =>
      obtain ⟨-, hout⟩ : Path.isUnder source file = false ∧ Path.isUnder target file = false := by
        simpa [Operation.touches] using hnot
      rcases mem_edits_planDirectoryMove.mp he with
        ⟨old, hold, new, hnew, q, hq, hfile, hedit⟩ | ⟨-, moved, hmoved, hfile, -⟩
      · have hhas : k.index.Has q := Index.has_of_mem_lookup hq
        have hhost : q.source = file := by
          unfold subtreeMove at hfile
          dsimp only at hfile
          cases hrebased : Path.rebase? q.source source target with
          | none =>
              rw [hrebased] at hfile
              exact hfile.symm
          | some other =>
              rw [hrebased] at hfile
              have hin := Path.isUnder_of_rebase? (h.proper_source hhas).normal hs ht hrebased
              rw [Option.getD_some] at hfile
              rw [hfile, hin.2] at hout
              exact absurd hout (by simp)
        obtain ⟨hfor, hmeans⟩ := Edit.of_inbound? hedit
        have hproper := h.proper_target hs hold
        exact ⟨q, hhas, hhost, hfor, old, hproper,
          (Path.isUnder_of_rebase? hproper.normal hs ht hnew).1, hmeans⟩
      · have hmem := (h.valid.mem_sourcesUnder.mp hmoved).1
        have hproper := (isSource_iff.mp (h.sources moved hmem)).1
        have hin := Path.isUnder_of_rebase? hproper.normal hs ht hfile
        rw [hin.2] at hout
        exact absurd hout (by simp)

theorem InStep.proper_preview (h : k.InStep) {t : FileTree} (hstep : TreeStep root t op after) :
    ∀ pair ∈ (({ k with tree := after } : Keeper).preview op).toList, Proper pair.1 := by
  have hbut : ({ k with tree := after } : Keeper).InStepBut fun _ => True :=
    ⟨h.valid, h.settled.mono fun _ hf => hf.elim, h.sources, fun _ hn => absurd trivial hn⟩
  have hnone : ∀ pair ∈ (∅ : EditPlan).toList, Proper pair.1 := by
    intro pair hpair
    have hnil : (∅ : EditPlan).toList = [] := rfl
    rw [hnil] at hpair
    exact absurd hpair (by simp)
  cases hstep with
  | created hp free there same => exact hnone
  | deleted hp there => exact hnone
  | modified hp there content mode => exact hnone
  | moved hs ht there renamed => exact hbut.proper_planFileMove ht
  | directoryMoved hs ht there free renamed => exact hbut.proper_planDirectoryMove hs ht

/-- What the answer to a move writes is its plan. -/
theorem apply_writes_of_step (hr : k.Rooted root) (hstep : TreeStep root k.tree op after)
    (ha : after.Sound root) :
    (({ k with tree := after } : Keeper).apply op).1.tree =
        (({ k with tree := after } : Keeper).revise
          (({ k with tree := after } : Keeper).preview op)).1.tree ∧
      (({ k with tree := after } : Keeper).apply op).2.revision =
        (({ k with tree := after } : Keeper).revise
          (({ k with tree := after } : Keeper).preview op)).2 := by
  refine apply_writes _ op fun source target hop => ?_
  subst hop
  cases hstep with
  | moved hs ht there renamed =>
      have hr' : ({ k with tree := after } : Keeper).Rooted root := ⟨hr.located, ha⟩
      cases hdir : after.isDirectory (({ k with tree := after } : Keeper).locate target) with
      | false => rfl
      | true =>
          rw [hr'.locate_eq, ha.isDirectory_iff ht, hr.sound.entryAt_moved hs ht there renamed ht,
            if_pos rfl] at hdir
          exact absurd hdir (by simp)

/-- A project at `/w`. -/
def shelfProject : Project := .make "/w" { Settings.defaults with pathExtensions := ["md"] }

/-- Notes that can be scanned, as a check of their entries shows. -/
def scannableNotes (tree : FileTree)
    (hholds : ∀ n < ["w"].length + 1, tree.Holds (["w"].take n))
    (hbelow : ∀ pair ∈ tree.below ["w"], (∀ name ∈ pair.1, IsFileName name) ∧
      tree.Holds (["w"] ++ pair.1.dropLast) ∧ pair.2.isLink = false)
    (hplain : ∀ pair ∈ tree.below ["w"], pair.2.isDirectory = true →
      shelfProject.isOwn (String.intercalate "/" pair.1) = false) :
    Scannable shelfProject ["w"] where
  tree := tree
  located := by decide
  sound := sound_of_below (by decide) (by decide) hholds hbelow
  clear := ⟨by decide +kernel, plain_of_below hplain⟩

/-- Notes in which `d/b.md` means one file from the root and another one from `p`. -/
def shelf : FileTree := ⟨.ofList
  [(["w"], Entry.directory), (["w", "d"], .directory), (["w", "p"], .directory),
    (["w", "p", "d"], .directory), (["w", "d", "b.md"], .file "# Root B\n".toUTF8 newMode),
    (["w", "e.md"], .file "# E\n".toUTF8 newMode),
    (["w", "p", "a.md"], .file "[x](d/b.md)\n".toUTF8 newMode),
    (["w", "p", "d", "b.md"], .file "# B\n".toUTF8 newMode),
    (["w", "q.md"], .file "[y](e.md)\n".toUTF8 newMode)]⟩

def keeperOfShelf : Keeper := (Keeper.make shelfProject shelf).scan.1

/-- The notes when the file of the root has got another name. -/
def shelfRenamed : FileTree :=
  (shelf.rename (Path.locate (location ["w"]) "d/b.md")
    (Path.locate (location ["w"]) "d/c.md")).toOption.getD shelf

/-- The notes when one of those with a link has been put in the place of the other. -/
def shelfReplaced : FileTree :=
  (shelf.rename (Path.locate (location ["w"]) "p/a.md")
    (Path.locate (location ["w"]) "q.md")).toOption.getD shelf

/-- The link with two readings. -/
def shelfLink : Reference := ⟨some "x", 10, 4, .markdownInline, 1, "p/a.md", "d/b.md"⟩

/-- A link that has nothing to do with it. -/
def otherShelfLink : Reference := ⟨some "y", 8, 4, .markdownInline, 1, "q.md", "e.md"⟩

def scannableShelf : Scannable shelfProject ["w"] :=
  scannableNotes shelf (by decide +kernel) (by decide +kernel) (by decide +kernel)

theorem scanned_shelf :
    SameTree (Keeper.make shelfProject shelf) keeperOfShelf ∧ keeperOfShelf.InStep :=
  scannableShelf.scanned

theorem tree_keeperOfShelf : keeperOfShelf.tree = shelf := scanned_shelf.1.tree

theorem rooted_keeperOfShelf : keeperOfShelf.Rooted ["w"] := scannableShelf.rooted

theorem shelf_has : keeperOfShelf.index.Has shelfLink ∧ keeperOfShelf.index.Has otherShelfLink := by
  have hlink : shelfLink ∈ keeperOfShelf.index.recordsFrom "p/a.md" := by decide +kernel
  have hother : otherShelfLink ∈ keeperOfShelf.index.recordsFrom "q.md" := by decide +kernel
  exact ⟨scanned_shelf.2.valid.has hlink, scanned_shelf.2.valid.has hother⟩

theorem shelf_renamed :
    TreeStep ["w"] keeperOfShelf.tree (.moved "d/b.md" "d/c.md") shelfRenamed ∧
      shelfRenamed.Sound ["w"] := by
  have hthere : shelf.entryAt ["w"] "d/b.md" = some (.file "# Root B\n".toUTF8 newMode) := by
    decide +kernel
  have hok : (shelf.rename (Path.locate (location ["w"]) "d/b.md")
      (Path.locate (location ["w"]) "d/c.md")).isOk = true := by decide +kernel
  rw [tree_keeperOfShelf]
  exact ⟨.moved (by decide) (by decide) hthere
      (eq_ok_of_isOk hok shelf),
    sound_of_below (by decide) (by decide) (by decide +kernel) (by decide +kernel)⟩

theorem shelf_replaced :
    TreeStep ["w"] keeperOfShelf.tree (.moved "p/a.md" "q.md") shelfReplaced := by
  have hthere : shelf.entryAt ["w"] "p/a.md" =
      some (.file "[x](d/b.md)\n".toUTF8 newMode) := by decide +kernel
  have hok : (shelf.rename (Path.locate (location ["w"]) "p/a.md")
      (Path.locate (location ["w"]) "q.md")).isOk = true := by decide +kernel
  rw [tree_keeperOfShelf]
  exact .moved (by decide) (by decide) hthere
    (eq_ok_of_isOk hok shelf)

end Keeper

end LinkKeeper
