import LinkKeeper.Proofs.Planning
import LinkKeeper.Proofs.Revising
import LinkKeeper.Proofs.Splicing

/-!
# What a plan makes of a file

Seen from one file, carrying out a plan is one splice or nothing: whatever comes before and
behind it in the plan concerns other files and backups. With edits that are for references
of the file this says how the file reads afterwards, link by link. When nothing is written,
because nothing should be or because it went wrong, every link is the one that was there.
-/

namespace LinkKeeper

open FileTree
open Path (Proper)

/-- The bytes of a text are read as the text. -/
theorem decode?_toUTF8 (text : String) : Text.decode? text.toUTF8 = some text := by
  have hvalid : text.toUTF8.IsValidUTF8 := text.isValidUTF8
  rw [Text.decode?, String.fromUTF8?, dif_pos hvalid]
  rfl

theorem toUTF8_of_decode? {bytes : ByteArray} {content : String}
    (h : Text.decode? bytes = some content) : content.toUTF8 = bytes := by
  rw [Text.decode?, String.fromUTF8?] at h
  split at h
  · exact Option.some.inj h ▸ rfl
  · exact absurd h (by simp)

theorem asText?_toUTF8 (lenient : Bool) (text : String) :
    asText? lenient text.toUTF8 = some text := by
  rw [asText?, decode?_toUTF8]

/-- How a path below a root reads. -/
def ReadsAs (root : Spine) (t : FileTree) (lenient : Bool) (path content : String) : Prop :=
  t.readText (Path.locate (location root) path) lenient = .ok content

variable {root : Spine} {t after : FileTree} {options : WriteOptions} {file content : String}
  {lenient : Bool}

/-- A path reads as another did when the same stands there. -/
theorem ReadsAs.congr (h : ReadsAs root t lenient file content) (ht : t.Sound root)
    (ha : after.Sound root) (hp : Proper file) {other : String} (ho : Proper other)
    (hsame : after.entryAt root other = t.entryAt root file) :
    ReadsAs root after lenient other content := by
  unfold ReadsAs at h ⊢
  rw [ht.readText_eq_ok hp] at h
  rw [ha.readText_eq_ok ho, hsame]
  exact h

/-- Where something can be read something stands. -/
theorem ReadsAs.there (h : ReadsAs root t lenient file content) (ht : t.Sound root)
    (hp : Proper file) : t.entryAt root file ≠ none := by
  unfold ReadsAs at h
  obtain ⟨bytes, mode, he, -⟩ := (ht.readText_eq_ok hp).mp h
  simp [he]

/-- Revising a file leaves it as it is, or makes of it what the edits make of its text. -/
theorem ReadsAs.reviseFile (h : ReadsAs root t options.lenient file content) (ht : t.Sound root)
    (hp : Proper file) (hown : Settings.isOwnName (Path.baseName file) = false)
    (edits : List Edit) :
    (ReadsAs root (reviseFile (location root) options t file edits).tree options.lenient file
        content ∧
      (options.dryRun = true ∨ (Edit.splice content edits).applied = 0 ∨
        ∃ fault, (reviseFile (location root) options t file edits).result = .error fault)) ∨
    ReadsAs root (reviseFile (location root) options t file edits).tree options.lenient file
      (Edit.splice content edits).text := by
  have hread : t.readText (Path.locate (location root) file) options.lenient = .ok content := h
  obtain ⟨bytes, mode, he, -⟩ := (ht.readText_eq_ok hp).mp hread
  unfold LinkKeeper.reviseFile
  dsimp only
  rw [hread]
  dsimp only
  split
  · rename_i hnothing
    exact .inl ⟨h, hnothing.elim (fun h0 => .inr (.inl h0)) .inl⟩
  · rcases KeepsBut.replaceText ht hp he with ⟨⟨e, herr⟩, hkeeps⟩ | ⟨hok, hnew, hkeeps⟩
    · split
      · rename_i done other heq
        rw [heq] at hkeeps
        exact .inl ⟨h.congr ht hkeeps.sound hp hp (hkeeps.same file hp not_false hown),
          .inr (.inr ⟨_, rfl⟩)⟩
      · rename_i done heq
        rw [heq] at herr
        exact absurd herr (by simp)
    · split
      · rename_i done other heq
        rw [heq] at hok
        exact absurd hok (by simp)
      · rename_i done heq
        rw [heq] at hnew hkeeps
        refine .inr ?_
        unfold ReadsAs
        rw [hkeeps.sound.readText_eq_ok hp]
        exact ⟨_, mode, hnew, asText?_toUTF8 _ _⟩

/-! ## The steps of a plan -/

theorem Batch.tree_step (b : Batch) (file : String) (edits : List Edit) :
    (b.step (location root) options (file, edits)).tree =
      (LinkKeeper.reviseFile (location root) options b.tree file edits).tree := by
  unfold Batch.step
  dsimp only
  split <;> rfl

/-- A failure is reported, and what has been reported stays. -/
theorem Batch.failures_step (b : Batch) (file : String) (edits : List Edit) :
    ∃ more, (b.step (location root) options (file, edits)).report.failures =
        b.report.failures ++ more ∧
      ((∃ fault, (LinkKeeper.reviseFile (location root) options b.tree file edits).result =
        .error fault) → more ≠ []) := by
  unfold Batch.step
  dsimp only
  split
  · exact ⟨_, rfl, fun _ => by simp⟩
  · rename_i hok
    exact ⟨[], by simp, fun ⟨fault, herr⟩ => absurd (hok.symm.trans herr) (by simp)⟩
  · rename_i hok
    exact ⟨[], by simp, fun ⟨fault, herr⟩ => absurd (hok.symm.trans herr) (by simp)⟩

theorem Batch.failures_foldl (root : Spine) (options : WriteOptions) (b : Batch)
    (pairs : List (String × List Edit)) :
    b.report.failures <+: (pairs.foldl (Batch.step (location root) options) b).report.failures := by
  induction pairs generalizing b with
  | nil => exact List.prefix_refl _
  | cons pair pairs ih =>
      obtain ⟨more, hmore, -⟩ := @Batch.failures_step root options b pair.1 pair.2
      rw [List.foldl_cons]
      refine List.IsPrefix.trans ?_ (ih _)
      rw [hmore]
      exact List.prefix_append _ _

theorem Batch.tree_foldl_other (options : WriteOptions) (b : Batch) (hb : b.tree.Sound root)
    (h : ReadsAs root b.tree lenient file content) (hp : Proper file)
    (hown : Settings.isOwnName (Path.baseName file) = false) {pairs : List (String × List Edit)}
    (hpairs : ∀ pair ∈ pairs, Proper pair.1) (hnot : file ∉ pairs.map (·.1)) :
    (pairs.foldl (Batch.step (location root) options) b).tree.Sound root ∧
      ReadsAs root (pairs.foldl (Batch.step (location root) options) b).tree lenient file
        content := by
  induction pairs generalizing b with
  | nil => exact ⟨hb, h⟩
  | cons pair pairs ih =>
      obtain ⟨other, edits⟩ := pair
      have hne : file ≠ other := by
        intro he
        exact hnot (by rw [he]; exact List.mem_cons_self)
      have hkeeps : KeepsBut root b.tree (b.step (location root) options (other, edits)).tree
          fun path => path = other := by
        rw [Batch.tree_step]
        rcases KeepsBut.reviseFile hb options (hpairs _ List.mem_cons_self) edits with
          ⟨-, hkeeps⟩ | hkeeps
        · exact hkeeps
        · exact hkeeps.mono fun path hf => hf.elim
      have hsame := hkeeps.same file hp hne hown
      rw [List.foldl_cons]
      exact ih _ hkeeps.sound (h.congr hb hkeeps.sound hp hp hsame)
        (fun pair hm => hpairs pair (List.mem_cons_of_mem _ hm))
        fun hm => hnot (List.mem_cons_of_mem _ hm)

/-! ## A whole plan -/

theorem Edit.splice_nil (content : String) : (Edit.splice content []).applied = 0 := by
  have hnone : Edit.ordered [] = [] := by rw [Edit.ordered, List.mergeSort_nil, Edit.distinct]
  rw [Edit.splice, hnone]
  rfl

/-- **What a plan makes of a file.** The edits that it has for the file apply together, or not at all. -/
theorem ReadsAs.reviseAll (h : ReadsAs root t options.lenient file content) (ht : t.Sound root)
    (hp : Proper file) (hown : Settings.isOwnName (Path.baseName file) = false) {plan : EditPlan}
    (hplan : ∀ pair ∈ plan.toList, Proper pair.1) :
    ∃ text, ReadsAs root (reviseAll (location root) options t plan).tree options.lenient file
        text ∧
      (text = (Edit.splice content (plan.edits file)).text ∨
        text = content ∧ (options.dryRun = true ∨
          (Edit.splice content (plan.edits file)).applied = 0 ∨
          (reviseAll (location root) options t plan).report.failures ≠ [])) := by
  have hdistinct : (plan.toList.map (·.1)).Nodup := by
    have hpairwise := Std.TreeMap.distinct_keys_toList (t := plan)
    rw [List.Nodup, List.pairwise_map]
    refine hpairwise.imp fun hne he => hne ?_
    rw [he]
    exact Std.compare_eq_iff_eq.mpr rfl
  unfold LinkKeeper.reviseAll
  cases hfile : plan[file]? with
  | none =>
      have hnot : file ∉ plan.toList.map (·.1) := by
        intro hm
        obtain ⟨⟨other, edits⟩, hpair, hother⟩ := List.mem_map.mp hm
        rw [Std.TreeMap.mem_toList_iff_getElem?_eq_some] at hpair
        rw [← hother, hpair] at hfile
        exact absurd hfile (by simp)
      have hkept := (Batch.tree_foldl_other options ⟨t, [], .empty⟩ ht h hp hown hplan hnot).2
      refine ⟨content, hkept, .inr ⟨rfl, .inr (.inl ?_)⟩⟩
      rw [EditPlan.edits, hfile]
      exact Edit.splice_nil content
  | some edits =>
      have hedits : plan.edits file = edits := by
        rw [EditPlan.edits, hfile]
        rfl
      obtain ⟨front, back, hsplit⟩ := List.append_of_mem
        (Std.TreeMap.mem_toList_iff_getElem?_eq_some.mpr hfile)
      rw [hsplit, List.map_append, List.map_cons, List.nodup_append] at hdistinct
      obtain ⟨-, hback, hfront⟩ := hdistinct
      rw [hsplit] at hplan
      rw [hsplit, List.foldl_append, List.foldl_cons, hedits]
      -- up to the file, at the file, and behind it
      obtain ⟨hsound, hread⟩ := Batch.tree_foldl_other options ⟨t, [], .empty⟩ ht h hp hown
        (fun pair hm => hplan pair (List.mem_append_left _ hm))
        (fun hm => hfront file hm file List.mem_cons_self rfl)
      generalize front.foldl (Batch.step (location root) options) ⟨t, [], .empty⟩ = b
        at hsound hread ⊢
      have hstep := hread.reviseFile hsound hp hown edits
      rw [← Batch.tree_step] at hstep
      have hsound' : (b.step (location root) options (file, edits)).tree.Sound root := by
        rw [Batch.tree_step]
        rcases KeepsBut.reviseFile hsound options hp edits with ⟨-, hkeeps⟩ | hkeeps <;>
          exact hkeeps.sound
      have hlast : ∀ text, ReadsAs root (b.step (location root) options (file, edits)).tree
          options.lenient file text → ReadsAs root
          (back.foldl (Batch.step (location root) options)
            (b.step (location root) options (file, edits))).tree options.lenient file text :=
        fun text hr => (Batch.tree_foldl_other options _ hsound' hr hp hown
          (fun pair hm => hplan pair (List.mem_append_right _ (List.mem_cons_of_mem _ hm)))
          (List.nodup_cons.mp hback).1).2
      rcases hstep with ⟨hr, hwhy⟩ | hr
      · refine ⟨content, hlast content hr, .inr ⟨rfl, ?_⟩⟩
        rcases hwhy with hdry | hzero | hfault
        · exact .inl hdry
        · exact .inr (.inl hzero)
        · obtain ⟨more, hmore, hne⟩ := @Batch.failures_step root options b file edits
          have hpre := Batch.failures_foldl root options
            (b.step (location root) options (file, edits)) back
          refine .inr (.inr fun hnil => hne hfault ?_)
          rw [hnil, List.prefix_nil, hmore] at hpre
          exact (List.append_eq_nil_iff.mp hpre).2
      · exact ⟨_, hlast _ hr, .inl rfl⟩

/--
**What a plan makes of the links of a file.**

When the edits are for references of the file, each of these gets the link of its first edit
or keeps its own, and nothing else in the file changes. All keep their own only when nothing
should be written or something could not be.
-/
theorem ReadsAs.relinked (h : ReadsAs root t options.lenient file content) (ht : t.Sound root)
    (hp : Proper file) (hown : Settings.isOwnName (Path.baseName file) = false) {plan : EditPlan}
    (hplan : ∀ pair ∈ plan.toList, Proper pair.1) {references : List Reference}
    (hlaid : Links.Laid content.toList references)
    (hfor : ∀ e ∈ plan.edits file, ∃ r ∈ references, e.IsFor r) :
    ∃ (text : String) (link : Reference → String),
      ReadsAs root (LinkKeeper.reviseAll (location root) options t plan).tree options.lenient
        file text ∧
      Relinked link references content text ∧
      (link = Edit.linkOf (plan.edits file) ∨ link = (·.target) ∧ (options.dryRun = true ∨
        (LinkKeeper.reviseAll (location root) options t plan).report.failures ≠ [])) := by
  obtain ⟨hrelinked, -, hzero⟩ := Edit.splice_relinked hlaid hfor
  obtain ⟨text, hreads, htext⟩ := h.reviseAll ht hp hown hplan
  rcases htext with rfl | ⟨rfl, hwhy⟩
  · exact ⟨_, _, hreads, hrelinked, .inl rfl⟩
  · refine ⟨_, (·.target), hreads, hlaid.relinked, ?_⟩
    rcases hwhy with hdry | happlied | hfailed
    · exact .inr ⟨rfl, .inl hdry⟩
    · rw [hzero happlied]
      exact .inl rfl
    · exact .inr ⟨rfl, .inr hfailed⟩

end LinkKeeper
