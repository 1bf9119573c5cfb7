import LinkKeeper.Proofs.Exhaustive
import LinkKeeper.Proofs.Lagging

/-!
# A file read anew

A file that is new or has changed is read into the index. What the index held for it before does
not matter, however far it was from the text: the records are those of the text, and the records
of all other files are where they were.

A file that cannot be read has no records. A change sees to it that they go. A creation does not:
where the index still held records for the place, they stay.
-/

namespace LinkKeeper

open FileTree (readText)

theorem FileTree.isDirectory_of_isFile {t : FileTree} {location : String}
    (h : t.isFile location = true) : t.isDirectory location = false := by
  unfold isFile at h
  unfold isDirectory
  split at h
  · rename_i hentry
    rw [hentry]
  · exact absurd h Bool.false_ne_true

namespace Index

variable {ix mid after : Index} {path : String}

/-- Two indexes hold the same records, under the same numbers and keys, for all but some files. -/
def SameBut (changed : String → Prop) (ix after : Index) : Prop :=
  ∀ (id : Nat) (record : Record), ¬ changed record.reference.source →
    (after.records[id]? = some record ↔ ix.records[id]? = some record)

theorem SameBut.refl (changed : String → Prop) (ix : Index) : SameBut changed ix ix :=
  fun _ _ _ => .rfl

theorem SameBut.trans {changed : String → Prop} (h : SameBut changed ix mid)
    (h' : SameBut changed mid after) : SameBut changed ix after :=
  fun id record hr => (h' id record hr).trans (h id record hr)

/-- Taking the records of a file off strikes the rows with these records. -/
theorem Valid.getElem?_removeSource_eq_filter (h : ix.Valid) (path : String) (id : Nat) :
    (ix.removeSource path).records[id]? =
      (ix.records[id]?).filter fun record => record.reference.source != path := by
  simp only [getElem?_removeSource, h.sources.mem_numbers]
  cases ix.records[id]? with
  | none => simp
  | some record =>
      by_cases hs : record.reference.source = path
      · simp [hs, Option.filter]
      · simp [hs, Option.filter]

theorem Valid.sameBut_removeSource (h : ix.Valid) (path : String) :
    SameBut (· = path) ix (ix.removeSource path) := by
  intro id record hr
  rw [h.getElem?_removeSource_eq_filter, Option.filter_eq_some_iff, bne_iff_ne]
  exact and_iff_left hr

/-- A new record has a number that no other record has. -/
theorem Valid.sameBut_insert (h : ix.Valid) {changed : String → Prop} {r : Reference}
    (hr : changed r.source) : SameBut changed ix (ix.insert r) := by
  intro id record hrecord
  simp only [Index.insert, Std.TreeMap.getElem?_insert, Std.compare_eq_iff_eq]
  split
  · rename_i he
    subst he
    refine iff_of_false (fun he => hrecord ?_) ?_
    · rw [← Option.some.inj he]
      exact hr
    · rw [h.fresh]
      exact Option.some_ne_none record ∘ Eq.symm
  · exact .rfl

theorem Valid.sameBut_foldl_insert (h : ix.Valid) {changed : String → Prop}
    {references : List Reference} (hr : ∀ r ∈ references, changed r.source) :
    SameBut changed ix (references.foldl Index.insert ix) := by
  induction references generalizing ix with
  | nil => exact .refl changed ix
  | cons r rest ih =>
      exact (h.sameBut_insert (hr r List.mem_cons_self)).trans
        (ih (h.insert r) fun q hq => hr q (List.mem_cons_of_mem _ hq))

/-- Nothing is known of the keys where every file may be out of date. -/
theorem settledBut_all (ix : Index) : ix.SettledBut fun _ => True := fun _ _ _ => .inr trivial

/-- One index is another with new records put in place of those of a file. -/
structure Refreshed (ix after : Index) (path : String) (references : List Reference) : Prop where
  valid : after.Valid
  recordsFrom : after.recordsFrom path = references
  /-- The new records are filed under what their links say. -/
  settled : after.SettledBut (· ≠ path)
  sameBut : SameBut (· = path) ix after
  others : ∀ other, other ≠ path → after.recordsFrom other = ix.recordsFrom other

theorem Valid.refreshed_removeSource (h : ix.Valid) (path : String) :
    Refreshed ix (ix.removeSource path) path [] where
  valid := h.removeSource path
  recordsFrom := by rw [h.recordsFrom_removeSource, if_pos rfl]
  settled := (h.settledBut_removeSource (settledBut_all ix) path).mono fun _ hs => hs.2
  sameBut := h.sameBut_removeSource path
  others := fun other hne => by rw [h.recordsFrom_removeSource, if_neg hne]

theorem Valid.refreshed_replaceSource (h : ix.Valid) {references : List Reference}
    (hs : ∀ r ∈ references, r.source = path) :
    Refreshed ix (ix.replaceSource path references) path (Keeper.filed references) where
  valid := h.replaceSource path references
  recordsFrom := by
    rw [h.recordsFrom_replaceSource hs, if_pos rfl]
    rfl
  settled := (h.settledBut_replaceSource (settledBut_all ix) path references).mono fun _ hs => hs.2
  sameBut := (h.sameBut_removeSource path).trans
    ((h.removeSource path).sameBut_foldl_insert fun r hr => hs r (List.mem_filter.mp hr).1)
  others := fun other hne => by rw [h.recordsFrom_replaceSource hs, if_neg hne]

end Index

namespace Keeper

open Index (Refreshed)

variable {k : Keeper} {path : String}

/-- Reading a file puts the records of its text in place of those it had, or changes nothing. -/
theorem refreshed_indexFile (hv : k.index.Valid) (path : String) :
    (∃ content n, k.tree.readText (k.locate path) k.project.settings.lenientText = .ok content ∧
      k.indexFile path = ((k.indexFile path).1, .ok n) ∧
      Refreshed k.index (k.indexFile path).1.index path (k.parsed path)) ∨
    (∃ fault, k.tree.readText (k.locate path) k.project.settings.lenientText = .error fault ∧
      k.indexFile path = (k, .error fault)) := by
  rcases k.indexFile_cases path with ⟨content, n, hread, hrun, hindex⟩ | hfault
  · refine .inl ⟨content, n, hread, hrun, ?_⟩
    rw [hindex, parsed_of_ok hread]
    exact hv.refreshed_replaceSource fun r hr => Links.source_of_mem_find hr
  · exact .inr hfault

/-- A file that has changed is read anew, and forgotten if that does not go well. -/
theorem refreshed_onModified (hv : k.index.Valid) (hm : k.project.monitors path = true)
    (hf : k.tree.isFile (k.locate path) = true) :
    Refreshed k.index (k.onModified path).index path (k.parsed path) := by
  unfold onModified
  dsimp only
  rw [hm, hf, Bool.not_true, Bool.or_false, if_neg Bool.false_ne_true]
  rcases refreshed_indexFile hv path with ⟨_, n, -, hrun, hnew⟩ | ⟨fault, hread, hrun⟩
  · rw [hrun]
    exact hnew
  · rw [hrun, parsed_of_error hread]
    exact hv.refreshed_removeSource path

/-- A file that is new is read, and nothing is done if that does not go well. -/
theorem refreshed_onCreated (hv : k.index.Valid) (hm : k.project.monitors path = true)
    (hf : k.tree.isFile (k.locate path) = true) :
    (∃ content, k.tree.readText (k.locate path) k.project.settings.lenientText = .ok content ∧
      Refreshed k.index (k.onCreated path).index path (k.parsed path)) ∨
    (∃ fault, k.tree.readText (k.locate path) k.project.settings.lenientText = .error fault ∧
      (k.onCreated path).index = k.index) := by
  unfold onCreated
  dsimp only
  rw [FileTree.isDirectory_of_isFile hf, if_neg Bool.false_ne_true, hm, Bool.not_true,
    if_neg Bool.false_ne_true]
  rcases refreshed_indexFile hv path with ⟨content, n, hread, hrun, hnew⟩ | ⟨fault, hread, hrun⟩
  · refine .inl ⟨content, hread, ?_⟩
    rw [hrun]
    exact hnew
  · refine .inr ⟨fault, hread, ?_⟩
    rw [hrun]
    rfl

/--
**Reading a file anew brings its records in step, whatever the index held for it.**

After a change or a creation the records of a file are those of its text, and all others are as
they were. After a change that leaves a file that cannot be read it has none. After a creation
that does, the index is as it was.
-/
theorem apply_refreshes (hv : k.index.Valid) (hm : k.project.monitors path = true)
    (hf : k.tree.isFile (k.locate path) = true) :
    Refreshed k.index (k.apply (.modified path)).1.index path (k.parsed path) ∧
    ((∃ content, k.tree.readText (k.locate path) k.project.settings.lenientText = .ok content) →
      Refreshed k.index (k.apply (.created path)).1.index path (k.parsed path)) ∧
    (∀ fault, k.tree.readText (k.locate path) k.project.settings.lenientText = .error fault →
      (k.apply (.created path)).1.index = k.index) := by
  rw [(sameTree_apply k _).2, (sameTree_apply k _).2]
  have hmodified : Refreshed k.index (onModified { k with log := [] } path).index path
      (k.parsed path) := refreshed_onModified (k := { k with log := [] }) hv hm hf
  have hcreated := refreshed_onCreated (k := { k with log := [] }) hv hm hf
  refine ⟨hmodified, fun hread => ?_, fun fault hread => ?_⟩
  · rcases hcreated with ⟨_, -, hnew⟩ | ⟨fault, herror, -⟩
    · exact hnew
    · obtain ⟨content, hok⟩ := hread
      exact absurd (hok.symm.trans herror) (by simp)
  · rcases hcreated with ⟨content, hok, -⟩ | ⟨_, -, hsame⟩
    · exact absurd (hok.symm.trans hread) (by simp)
    · exact hsame

/-- A tree with one file, of these bytes. -/
def treeOfNote (bytes : ByteArray) : FileTree :=
  (FileTree.empty.put ["w"] .directory).put ["w", "a.md"] (.file bytes FileTree.newMode)

/-- A link that is no longer in the file. -/
def formerLink : Reference := ⟨some "b", 8, 4, .markdownInline, 1, "a.md", "b.md"⟩

/-- A link of another file. -/
def otherLink : Reference := ⟨some "a", 8, 4, .markdownInline, 1, "c.md", "a.md"⟩

/-- A keeper that has read the file when another link was in it. -/
def keeperOfNote (bytes : ByteArray) : Keeper :=
  ⟨.make "/w" { Settings.defaults with pathExtensions := ["md"] }, treeOfNote bytes,
    (indexHolding formerLink).replaceSource "c.md" [otherLink], []⟩

theorem valid_keeperOfNote (bytes : ByteArray) : (keeperOfNote bytes).index.Valid :=
  (reachable_holding formerLink).valid.replaceSource "c.md" [otherLink]

/-- The text of the file as it is now. -/
def latterText : ByteArray := "[d](d.md)\n".toUTF8

/-- A byte that is no text. -/
def noText : ByteArray := ⟨#[0xFF]⟩

/-- What is in the file now takes the place of the former link, and what is no text leaves none, if it is a change. -/
theorem apply_refreshes_note :
    ((keeperOfNote latterText).apply (.created "a.md")).1.index.recordsFrom "a.md" =
      [⟨some "d", 8, 4, .markdownInline, 1, "a.md", "d.md"⟩] ∧
    ((keeperOfNote latterText).apply (.created "a.md")).1.index.recordsFrom "c.md" = [otherLink] ∧
    ((keeperOfNote noText).apply (.modified "a.md")).1.index.recordsFrom "a.md" = [] ∧
    ((keeperOfNote noText).apply (.created "a.md")).1.index = (keeperOfNote noText).index := by
  have hmonitors : (keeperOfNote latterText).project.monitors "a.md" = true := by decide +kernel
  have hnew := (apply_refreshes (valid_keeperOfNote latterText) hmonitors (by decide +kernel)).2.1
  have hnone := apply_refreshes (valid_keeperOfNote noText) hmonitors (by decide +kernel)
  have hread : ((keeperOfNote latterText).tree.readText ((keeperOfNote latterText).locate "a.md")
      false).isOk = true := by decide +kernel
  have hlatter := hnew ⟨_, FileTree.eq_ok_of_isOk hread ""⟩
  have herror : (keeperOfNote noText).tree.readText ((keeperOfNote noText).locate "a.md") false =
      .error (.notText "/w/a.md") := by
    have hdecode : Text.decode? noText = none := by decide +kernel
    have hbytes : (keeperOfNote noText).tree.read ((keeperOfNote noText).locate "a.md") =
        .ok noText := rfl
    rw [readText, hbytes]
    dsimp only
    rw [hdecode]
    rfl
  refine ⟨hlatter.recordsFrom.trans ?_, (hlatter.others "c.md" (by decide)).trans ?_,
    hnone.1.recordsFrom.trans ?_, hnone.2.2 _ herror⟩
  · decide +kernel
  · decide +kernel
  · decide +kernel

/-- Created with a byte that is no text, the file keeps the record of its former text. -/
theorem created_keeps_formerLink :
    (keeperOfNote noText).index.Valid ∧
    (keeperOfNote noText).project.monitors "a.md" = true ∧
    (keeperOfNote noText).tree.isFile ((keeperOfNote noText).locate "a.md") = true ∧
    ((keeperOfNote noText).tree.readText ((keeperOfNote noText).locate "a.md")
      (keeperOfNote noText).project.settings.lenientText).isOk = false ∧
    ((keeperOfNote noText).apply (.created "a.md")).1.index.recordsFrom "a.md" = [formerLink] :=
  ⟨valid_keeperOfNote _, by decide +kernel, by decide +kernel, by decide +kernel,
    by decide +kernel⟩

end Keeper

end LinkKeeper
