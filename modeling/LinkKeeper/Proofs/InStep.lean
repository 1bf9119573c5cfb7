import LinkKeeper.Keeper
import LinkKeeper.Proofs.Found
import LinkKeeper.Proofs.Indexing
import LinkKeeper.Proofs.Trees

/-!
# An index in step with its tree

What the index should hold for a file can be said without the index: nothing, if the file
is not one that is read or cannot be read, and otherwise what is found in it now. A keeper
is in step when its index holds that for every file and files every record under what its
link says.

An operation is answered in several steps, and between them the index is behind for some
files. `InStepBut` says for which. A change of the tree adds the files that it touched,
re-filing a bucket adds the files whose keys it changed, and each file that is read anew
or forgotten is taken off again.
-/

namespace LinkKeeper

open FileTree
open Path (locate spine Proper)

namespace Keeper

/-- Whether a path may be the file of a reference. -/
def isSource (k : Keeper) (path : String) : Bool :=
  Path.normalize path == path && !Path.escapes path && k.project.monitors path

/-- The references that are filed when a path is read. -/
def parsed (k : Keeper) (path : String) : List Reference :=
  match k.tree.readText (k.locate path) k.project.settings.lenientText with
  | .ok content => filed (Links.find k.project.rule path content).references
  | .error _ => []

/-- The references that the index should hold for a path. -/
def expected (k : Keeper) (path : String) : List Reference :=
  if k.isSource path then k.parsed path else []

/-- A keeper of a tree that is well-formed below its root. -/
structure Rooted (k : Keeper) (root : Spine) : Prop where
  located : k.project.root = FileTree.location root
  sound : k.tree.Sound root

/-- Except for some files, the index holds what it should. -/
structure InStepBut (k : Keeper) (stale : String → Prop) : Prop where
  valid : k.index.Valid
  settled : k.index.SettledBut stale
  sources : ∀ s, k.index.recordsFrom s ≠ [] → k.isSource s = true
  current : ∀ s, ¬ stale s → k.index.recordsFrom s = k.expected s

/-- The index holds what it should. -/
def InStep (k : Keeper) : Prop := k.InStepBut fun _ => False

variable {k : Keeper} {root : Spine} {stale : String → Prop}

theorem InStepBut.mono (h : k.InStepBut stale) {more : String → Prop}
    (hs : ∀ s, stale s → more s) : k.InStepBut more :=
  ⟨h.valid, h.settled.mono hs, h.sources, fun s hn => h.current s fun hst => hn (hs s hst)⟩

/-- What is read is not the root. -/
theorem nonempty_of_reads {s : Settings} {path : String} (h : s.reads path = true) : path ≠ "" := by
  rintro rfl
  rw [Settings.reads] at h
  exact Bool.noConfusion h

theorem isSource_iff {path : String} :
    k.isSource path = true ↔ Proper path ∧ k.project.monitors path = true := by
  rw [isSource, Bool.and_eq_true, Bool.and_eq_true, beq_iff_eq, Bool.not_eq_true']
  constructor
  · rintro ⟨⟨hn, he⟩, hm⟩
    have hreads : k.project.settings.reads path = true := by
      rw [Project.monitors, Bool.and_eq_true] at hm
      exact hm.2
    exact ⟨⟨hn, nonempty_of_reads hreads, he⟩, hm⟩
  · rintro ⟨hp, hm⟩
    exact ⟨⟨hp.normal, hp.inside⟩, hm⟩

theorem InStepBut.proper (h : k.InStepBut stale) {r : Reference} {s : String}
    (hr : r ∈ k.index.recordsFrom s) : Proper s :=
  (isSource_iff.mp (h.sources s (List.ne_nil_of_mem hr))).1

@[simp] theorem project_note (k : Keeper) (e : LogEntry) : (k.note e).project = k.project := rfl
@[simp] theorem tree_note (k : Keeper) (e : LogEntry) : (k.note e).tree = k.tree := rfl
@[simp] theorem index_note (k : Keeper) (e : LogEntry) : (k.note e).index = k.index := rfl
@[simp] theorem project_mapIndex (k : Keeper) (f : Index → Index) :
    (k.mapIndex f).project = k.project := rfl
@[simp] theorem tree_mapIndex (k : Keeper) (f : Index → Index) : (k.mapIndex f).tree = k.tree := rfl
@[simp] theorem index_mapIndex (k : Keeper) (f : Index → Index) :
    (k.mapIndex f).index = f k.index := rfl

/-! ## What a path should hold -/

theorem parsed_of_ok {path content : String}
    (h : k.tree.readText (k.locate path) k.project.settings.lenientText = .ok content) :
    k.parsed path = filed (Links.find k.project.rule path content).references := by
  unfold parsed
  rw [h]

theorem parsed_of_error {path : String} {fault : Fault}
    (h : k.tree.readText (k.locate path) k.project.settings.lenientText = .error fault) :
    k.parsed path = [] := by
  unfold parsed
  rw [h]

theorem Rooted.locate_eq (h : k.Rooted root) (path : String) :
    k.locate path = Path.locate (FileTree.location root) path := by
  rw [Keeper.locate, Project.locate, h.located]

theorem Rooted.readText_eq_ok (h : k.Rooted root) {path content : String} (hp : Proper path)
    {lenient : Bool} : k.tree.readText (k.locate path) lenient = .ok content ↔
      ∃ bytes mode, k.tree.entryAt root path = some (.file bytes mode) ∧
        asText? lenient bytes = some content := by
  rw [h.locate_eq, h.sound.readText_eq_ok hp]

/-- A path where no file stands holds nothing. -/
theorem Rooted.expected_of_not_file (h : k.Rooted root) {path : String}
    (hf : ∀ bytes mode, k.tree.entryAt root path ≠ some (.file bytes mode)) :
    k.expected path = [] := by
  rw [expected]
  split
  · rename_i hs
    cases hread : k.tree.readText (k.locate path) k.project.settings.lenientText with
    | ok content =>
        obtain ⟨bytes, mode, he, _⟩ := (h.readText_eq_ok (isSource_iff.mp hs).1).mp hread
        exact absurd he (hf bytes mode)
    | error fault => exact parsed_of_error hread
  · rfl

/-- What a path should hold depends on what stands there, and on nothing else in the tree. -/
theorem Rooted.expected_congr (h : k.Rooted root) {other : Keeper} (h' : other.Rooted root)
    (hproject : other.project = k.project) {path : String}
    (he : Proper path → other.tree.entryAt root path = k.tree.entryAt root path) :
    other.expected path = k.expected path := by
  have hsource : other.isSource path = k.isSource path := by rw [isSource, isSource, hproject]
  rw [expected, expected, hsource]
  split
  · rename_i hs
    have hp : Proper path := (isSource_iff.mp hs).1
    have hsame : ∀ content, other.tree.readText (other.locate path)
        other.project.settings.lenientText = .ok content ↔
        k.tree.readText (k.locate path) k.project.settings.lenientText = .ok content := by
      intro content
      rw [h'.readText_eq_ok hp, h.readText_eq_ok hp, he hp, hproject]
    cases hk : k.tree.readText (k.locate path) k.project.settings.lenientText with
    | ok content => rw [parsed_of_ok hk, parsed_of_ok ((hsame content).mpr hk), hproject]
    | error fault =>
        cases ho : other.tree.readText (other.locate path)
            other.project.settings.lenientText with
        | ok content =>
            rw [(hsame content).mp ho] at hk
            exact absurd hk (by simp)
        | error fault => rw [parsed_of_error hk, parsed_of_error ho]
  · rfl

/-! ## Steps that change the index -/

/-- Two keepers of one project and one tree. -/
structure SameTree (k other : Keeper) : Prop where
  project : other.project = k.project
  tree : other.tree = k.tree

theorem SameTree.refl (k : Keeper) : SameTree k k := ⟨rfl, rfl⟩

theorem SameTree.trans {a b c : Keeper} (h : SameTree a b) (h' : SameTree b c) : SameTree a c :=
  ⟨h'.project.trans h.project, h'.tree.trans h.tree⟩

theorem SameTree.rooted {other : Keeper} (h : SameTree k other) (hr : k.Rooted root) :
    other.Rooted root :=
  ⟨by rw [h.project]; exact hr.located, by rw [h.tree]; exact hr.sound⟩

theorem SameTree.isSource {other : Keeper} (h : SameTree k other) (path : String) :
    other.isSource path = k.isSource path := by
  rw [Keeper.isSource, Keeper.isSource, h.project]

theorem SameTree.expected {other : Keeper} (h : SameTree k other) (path : String) :
    other.expected path = k.expected path := by
  unfold Keeper.expected parsed
  rw [h.isSource, Keeper.locate, Keeper.locate, h.project, h.tree]

/-- The log does not matter. -/
theorem InStepBut.of_index {other : Keeper} (h : k.InStepBut stale) (hs : SameTree k other)
    (hi : other.index = k.index) : other.InStepBut stale where
  valid := by rw [hi]; exact h.valid
  settled := by rw [hi]; exact h.settled
  sources := by
    intro s hne
    rw [hs.isSource]
    exact h.sources s (by rw [← hi]; exact hne)
  current := by
    intro s hn
    rw [hi, hs.expected]
    exact h.current s hn

theorem sameTree_note (k : Keeper) (e : LogEntry) : SameTree k (k.note e) := ⟨rfl, rfl⟩

theorem sameTree_warn (k : Keeper) (message : String) (fields : List (String × FieldValue)) :
    SameTree k (k.warn message fields) := ⟨rfl, rfl⟩

theorem InStepBut.note (h : k.InStepBut stale) (e : LogEntry) : (k.note e).InStepBut stale :=
  h.of_index (sameTree_note k e) rfl

theorem InStepBut.warn (h : k.InStepBut stale) (message : String)
    (fields : List (String × FieldValue)) : (k.warn message fields).InStepBut stale :=
  h.of_index (sameTree_warn k message fields) rfl

/-- A file without records is filed wrongly nowhere. -/
theorem settledBut_of_nil {ix : Index} (hv : ix.Valid) (hs : ix.SettledBut stale) {path : String}
    (hnil : ix.recordsFrom path = []) : ix.SettledBut fun s => stale s ∧ s ≠ path := by
  intro id record hr
  refine (hs id record hr).imp_right fun hst => ⟨hst, fun he => ?_⟩
  have hmem := hv.mem_recordsFrom.mpr ⟨he, id, record, hr, rfl⟩
  rw [hnil] at hmem
  exact absurd hmem (by simp)

/-- A file that holds nothing and should hold nothing is in step. -/
theorem InStepBut.of_nil (h : k.InStepBut stale) {path : String}
    (hnil : k.index.recordsFrom path = []) (he : k.expected path = []) :
    k.InStepBut fun s => stale s ∧ s ≠ path where
  valid := h.valid
  settled := settledBut_of_nil h.valid h.settled hnil
  sources := h.sources
  current := by
    intro s hn
    by_cases hs : s = path
    · rw [hs, hnil, he]
    · exact h.current s fun hst => hn ⟨hst, hs⟩

theorem sameTree_forget (k : Keeper) (path : String) : SameTree k (k.forget path) := ⟨rfl, rfl⟩

theorem InStepBut.recordsFrom_forget (h : k.InStepBut stale) (path s : String) :
    (k.forget path).index.recordsFrom s = if s = path then [] else k.index.recordsFrom s :=
  h.valid.recordsFrom_removeSource path s

/-- Forgetting a file leaves the others as they were. -/
theorem InStepBut.forget (h : k.InStepBut stale) {path : String} (hp : stale path) :
    (k.forget path).InStepBut stale where
  valid := h.valid.removeSource path
  settled := (h.valid.settledBut_removeSource h.settled path).mono fun s hs => hs.1
  sources := by
    intro s hne
    rw [h.recordsFrom_forget] at hne
    split at hne
    · exact absurd rfl hne
    · exact h.sources s hne
  current := by
    intro s hn
    have hne : s ≠ path := by
      rintro rfl
      exact hn hp
    rw [h.recordsFrom_forget, if_neg hne, (sameTree_forget k path).expected]
    exact h.current s hn

/-- Forgetting a file that should hold nothing brings it in step. -/
theorem InStepBut.forget_settles (h : k.InStepBut stale) {path : String}
    (he : k.expected path = []) :
    (k.forget path).InStepBut fun s => stale s ∧ s ≠ path := by
  have hmore : k.InStepBut fun s => stale s ∨ s = path := h.mono fun s hs => .inl hs
  have hforgotten := @InStepBut.forget k _ hmore path (.inr rfl)
  have hnil : (k.forget path).index.recordsFrom path = [] := by
    rw [h.recordsFrom_forget, if_pos rfl]
  have hexp : (k.forget path).expected path = [] := by
    rw [(sameTree_forget k path).expected, he]
  exact (hforgotten.of_nil hnil hexp).mono fun s hs => ⟨hs.1.resolve_right hs.2, hs.2⟩

/-! ## Reading one file -/

theorem sameTree_indexFile (k : Keeper) (path : String) :
    SameTree k (k.indexFile path).1 := by
  unfold indexFile
  split
  · exact .refl k
  · dsimp only
    split <;> exact ⟨by simp, by simp⟩

/-- What reading a file does to the index, and whether it says that it went well. -/
theorem indexFile_cases (k : Keeper) (path : String) :
    (∃ content n, k.tree.readText (k.locate path) k.project.settings.lenientText = .ok content ∧
      k.indexFile path = ((k.indexFile path).1, .ok n) ∧ (k.indexFile path).1.index =
        k.index.replaceSource path (Links.find k.project.rule path content).references) ∨
    (∃ fault, k.tree.readText (k.locate path) k.project.settings.lenientText = .error fault ∧
      k.indexFile path = (k, .error fault)) := by
  unfold indexFile
  split
  · rename_i fault hread
    exact .inr ⟨fault, hread, rfl⟩
  · rename_i content hread
    refine .inl ⟨content, _, hread, rfl, ?_⟩
    dsimp only
    split <;> simp

/-- **A file that can be read is in step once it has been.** -/
theorem InStepBut.indexFile (h : k.InStepBut stale) {path : String}
    (hs : k.isSource path = true) {content : String}
    (hread : k.tree.readText (k.locate path) k.project.settings.lenientText = .ok content)
    (hindex : (k.indexFile path).1.index =
      k.index.replaceSource path (Links.find k.project.rule path content).references) :
    (k.indexFile path).1.InStepBut fun s => stale s ∧ s ≠ path := by
  have hsame := sameTree_indexFile k path
  have hfrom : ∀ s, (k.indexFile path).1.index.recordsFrom s =
      if s = path then filed (Links.find k.project.rule path content).references
      else k.index.recordsFrom s := by
    intro s
    rw [hindex, h.valid.recordsFrom_replaceSource fun r hr => Links.source_of_mem_find hr]
    rfl
  refine ⟨?_, ?_, ?_, ?_⟩
  · rw [hindex]
    exact h.valid.replaceSource path _
  · rw [hindex]
    exact h.valid.settledBut_replaceSource h.settled path _
  · intro s hne
    rw [hsame.isSource]
    rw [hfrom] at hne
    split at hne
    · rename_i he
      rw [he]
      exact hs
    · exact h.sources s hne
  · intro s hn
    rw [hfrom, hsame.expected]
    split
    · rename_i he
      rw [he, expected, if_pos hs, parsed_of_ok hread]
    · rename_i hne
      exact h.current s fun hst => hn ⟨hst, hne⟩

/-- A file that cannot be read should hold nothing. -/
theorem expected_of_error {path : String} {fault : Fault}
    (hread : k.tree.readText (k.locate path) k.project.settings.lenientText = .error fault) :
    k.expected path = [] := by
  rw [expected, parsed_of_error hread]
  exact ite_self _

/-- A path that is not read should hold nothing. -/
theorem expected_of_not_monitored {path : String} (hm : k.project.monitors path = false) :
    k.expected path = [] := by
  rw [expected, isSource, hm, Bool.and_false, if_neg (by simp)]

/-- A path that is not read holds nothing. -/
theorem InStepBut.recordsFrom_of_not_monitored (h : k.InStepBut stale) {path : String}
    (hm : k.project.monitors path = false) : k.index.recordsFrom path = [] := by
  by_cases hne : k.index.recordsFrom path = []
  · exact hne
  · have hs := h.sources path hne
    rw [isSource, hm, Bool.and_false] at hs
    exact absurd hs (by simp)

end Keeper

end LinkKeeper
