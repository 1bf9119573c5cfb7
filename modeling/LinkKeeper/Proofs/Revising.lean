import LinkKeeper.Proofs.Trees

/-!
# What a revision leaves alone

A plan is carried out file by file, and each file by itself. What a revision changes in
the tree is therefore quickly said: the files that its report names, and backups beside
files of the plan. Everything else is as it was, also when a file could not be revised.
-/

namespace LinkKeeper

open FileTree
open Path (spine Proper)

/-! ## Backups -/

/-- An ending of at least three characters turns a proper path into another. -/
theorem Path.Proper.append {path ending : String} (h : Proper path)
    (hs : ∀ c ∈ ending.toList, Path.isSeparator c = false) (hlong : 2 < ending.toList.length) :
    Proper (path ++ ending) ∧ path ++ ending ≠ path ∧
      ending.toList <:+ (Path.baseName (path ++ ending)).toList ∧
      (spine (path ++ ending)).dropLast = (spine path).dropLast := by
  obtain ⟨front, last, hseg, hpath, -, -⟩ := h.exists_join
  have hplain := (Path.tidy_segments path).plain
  have hl : ∀ c ∈ last ++ ending.toList, Path.isSeparator c = false := by
    intro c hc
    rcases List.mem_append.mp hc with hc | hc
    · exact hplain last (by rw [hseg]; simp) c hc
    · exact hs c hc
  have hname : Path.IsName (last ++ ending.toList) := by
    have hlength : 2 < (last ++ ending.toList).length := by
      rw [List.length_append]
      omega
    refine ⟨?_, ?_, ?_⟩ <;> intro he <;> rw [he] at hlength <;>
      simp [Path.here, Path.above] at hlength
  have hjoin : path ++ ending = Path.join (front ++ [last ++ ending.toList]) := by
    rw [← String.toList_inj, String.toList_append, Path.toList_join]
    have htext : path.toList = ['/'].intercalate (front ++ [last]) := by
      rw [← Path.toList_join, ← hpath]
    rw [htext]
    by_cases hf : front = []
    · subst hf
      simp
    · rw [Text.intercalate_append hf (by simp), Text.intercalate_append hf (by simp)]
      simp
  have ht : Path.Tidy (front ++ [last ++ ending.toList]) := by
    refine Path.tidy_names ?_ ?_ <;> intro s hs <;> rcases List.mem_append.mp hs with hs | hs
    · exact h.names s (by rw [hseg]; exact List.mem_append_left _ hs)
    · rw [List.mem_singleton.mp hs]
      exact hname
    · exact hplain s (by rw [hseg]; exact List.mem_append_left _ hs)
    · rw [List.mem_singleton.mp hs]
      exact hl
  refine ⟨?_, ?_, ?_, ?_⟩
  · rw [hjoin]
    refine Path.proper_join ht (fun s hs => ?_) (by simp)
    rcases List.mem_append.mp hs with hs | hs
    · exact h.names s (by rw [hseg]; exact List.mem_append_left _ hs)
    · rw [List.mem_singleton.mp hs]
      exact hname
  · intro he
    have := congrArg (fun s => s.toList.length) he
    simp only [String.toList_append, List.length_append] at this
    omega
  · rw [hjoin, Path.baseName_join hl, String.toList_ofList]
    exact List.suffix_append _ _
  · rw [hjoin, Path.spine_join ht, spine, hseg, List.map_append, List.map_append,
      List.map_singleton, List.map_singleton, List.dropLast_concat, List.dropLast_concat]

theorem isOwnName_of_suffix {name : String} (h : Settings.backupEnding.toList <:+ name.toList) :
    Settings.isOwnName name = true := by
  rw [Settings.isOwnName, Bool.or_eq_true]
  rw [String.endsWith_eq_endsWith_toSlice, String.Slice.endsWith_string_iff, String.copy_toSlice]
  exact .inl h

/-- The backup of a path. It lies beside it. -/
theorem Path.Proper.backup {path : String} (h : Proper path) :
    Proper (path ++ Settings.backupEnding) ∧ path ++ Settings.backupEnding ≠ path ∧
      Settings.isOwnName (Path.baseName (path ++ Settings.backupEnding)) = true ∧
      (spine (path ++ Settings.backupEnding)).dropLast = (spine path).dropLast := by
  have hplain : ∀ c ∈ Settings.backupEnding.toList, Path.isSeparator c = false := by
    simp [Settings.backupEnding, Path.isSeparator]
  obtain ⟨hp, hne, hsuffix, hbeside⟩ :=
    @Path.Proper.append path Settings.backupEnding h hplain (by decide)
  exact ⟨hp, hne, isOwnName_of_suffix hsuffix, hbeside⟩

theorem locate_append (root : Spine) {path : String} (h : Proper path) (ending : String)
    (ha : Path.isAbsolute (path ++ ending) = false) :
    Path.locate (location root) (path ++ ending) = Path.locate (location root) path ++ ending := by
  have hfalse : ¬ (false || false) = true := by simp
  rw [Path.locate, Path.locate, ha, h.isAbsolute, Path.isEmpty_location, if_neg hfalse,
    if_neg hfalse]
  split <;> rw [← String.append_assoc]

/-! ## One file -/

/-- A tree in which nothing but some files and backups has changed, and no path but backups was taken. -/
structure KeepsBut (root : Spine) (t after : FileTree) (changed : String → Prop) : Prop where
  sound : after.Sound root
  same : ∀ path, Proper path → ¬ changed path → Settings.isOwnName (Path.baseName path) = false →
    after.entryAt root path = t.entryAt root path
  free : ∀ path, Proper path → Settings.isOwnName (Path.baseName path) = false →
    t.entryAt root path = none → after.entryAt root path = none
  directories : ∀ path, Proper path → (after.entryAt root path = some .directory ↔
    t.entryAt root path = some .directory)

variable {root : Spine} {t after : FileTree}

theorem KeepsBut.refl (h : t.Sound root) (changed : String → Prop) : KeepsBut root t t changed :=
  ⟨h, fun _ _ _ _ => rfl, fun _ _ _ he => he, fun _ _ => Iff.rfl⟩

theorem KeepsBut.mono {changed more : String → Prop} (h : KeepsBut root t after changed)
    (hs : ∀ path, changed path → more path) : KeepsBut root t after more :=
  ⟨h.sound, fun path hp hn hown => h.same path hp (fun hc => hn (hs path hc)) hown, h.free,
    h.directories⟩

theorem KeepsBut.trans {last : FileTree} {changed : String → Prop}
    (h : KeepsBut root t after changed) (h' : KeepsBut root after last changed) :
    KeepsBut root t last changed :=
  ⟨h'.sound, fun path hp hn hown => (h'.same path hp hn hown).trans (h.same path hp hn hown),
    fun path hp hown he => h'.free path hp hown (h.free path hp hown he),
    fun path hp => (h'.directories path hp).trans (h.directories path hp)⟩

/-- Putting a text in the place of a file changes that file, or nothing but its backup. -/
theorem KeepsBut.replaceText (h : t.Sound root) {options : WriteOptions} {file text : String}
    (hp : Proper file) {old : ByteArray} {mode : Nat}
    (he : t.entryAt root file = some (.file old mode)) :
    ((∃ e, (t.replaceText options (Path.locate (location root) file) text).2 = some e) ∧
      KeepsBut root t (t.replaceText options (Path.locate (location root) file) text).1
        fun _ => False) ∨
    ((t.replaceText options (Path.locate (location root) file) text).2 = none ∧
      (t.replaceText options (Path.locate (location root) file) text).1.entryAt root file =
        some (.file text.toUTF8 mode) ∧
      KeepsBut root t (t.replaceText options (Path.locate (location root) file) text).1
        fun path => path = file) := by
  obtain ⟨hback, hne, hown, -⟩ := hp.backup
  have hcopy : ∀ copied, (if options.backups then
      t.copy (Path.locate (location root) file)
        (Path.locate (location root) file ++ Settings.backupEnding) else .ok t) = .ok copied →
      KeepsBut root t copied (fun _ => False) ∧
        copied.entryAt root file = some (.file old mode) := by
    intro copied hc
    split at hc
    · rw [← locate_append root hp _ hback.isAbsolute] at hc
      obtain ⟨hsound, hnotdir, content, kept, hentries⟩ := h.of_copy hback hc
      have hother : ∀ path, Proper path → path ≠ file ++ Settings.backupEnding →
          copied.entryAt root path = t.entryAt root path := by
        intro path hpath hneq
        rw [entryAt, hentries, if_neg]
        · rfl
        · intro hsame
          exact hneq (Path.eq_of_spine_eq hpath.normal hback.normal
            (List.append_cancel_left hsame).symm)
      have hplain : ∀ path, Settings.isOwnName (Path.baseName path) = false →
          path ≠ file ++ Settings.backupEnding := by
        rintro path hnot rfl
        rw [hown] at hnot
        exact absurd hnot (by simp)
      refine ⟨⟨hsound, fun path hpath _ hnot => hother path hpath (hplain path hnot),
        fun path hpath hnot hnone => (hother path hpath (hplain path hnot)).trans hnone,
        fun path hpath => ?_⟩, by rw [hother file hp (Ne.symm hne)]; exact he⟩
      by_cases hsame : path = file ++ Settings.backupEnding
      · rw [hsame, entryAt, hentries, if_pos rfl]
        simp [hnotdir]
      · rw [hother path hpath hsame]
    · obtain rfl := Except.ok.inj hc
      exact ⟨.refl h _, he⟩
  unfold FileTree.replaceText
  cases hc : (if options.backups then
      t.copy (Path.locate (location root) file)
        (Path.locate (location root) file ++ Settings.backupEnding) else .ok t) with
  | error e => exact .inl ⟨⟨e, rfl⟩, .refl h _⟩
  | ok copied =>
      obtain ⟨hkeeps, hfile⟩ := hcopy copied hc
      dsimp only
      rw [hkeeps.sound.replace_file hp hfile]
      have hnew : (copied.put (root ++ spine file) (.file text.toUTF8 mode)).entryAt root file =
          some (.file text.toUTF8 mode) := by
        rw [entryAt, getElem?_put, if_pos rfl]
      have hother : ∀ path, Proper path → path ≠ file →
          (copied.put (root ++ spine file) (.file text.toUTF8 mode)).entryAt root path =
            copied.entryAt root path := by
        intro path hpath hneq
        rw [entryAt, getElem?_put, if_neg]
        · rfl
        · intro hsame
          exact hneq (Path.eq_of_spine_eq hpath.normal hp.normal
            (List.append_cancel_left hsame).symm)
      refine .inr ⟨rfl, hnew, ?_⟩
      refine (hkeeps.mono fun _ hf => hf.elim).trans
        ⟨hkeeps.sound.sound_replaced hp hfile _, fun path hpath hneq _ => hother path hpath hneq,
          fun path hpath _ hnone => ?_, fun path hpath => ?_⟩
      · rw [hother path hpath]
        · exact hnone
        · rintro rfl
          rw [hfile] at hnone
          exact absurd hnone (by simp)
      · by_cases hsame : path = file
        · rw [hsame, hnew, hfile]
          simp
        · rw [hother path hpath hsame]

/-- **A revision of a file changes that file and says so, or leaves everything but its backup alone.** -/
theorem KeepsBut.reviseFile (h : t.Sound root) (options : WriteOptions) {file : String}
    (hp : Proper file) (edits : List Edit) :
    ((∃ n, (reviseFile (location root) options t file edits).result = .ok (n + 1)) ∧
      KeepsBut root t (reviseFile (location root) options t file edits).tree
        fun path => path = file) ∨
    KeepsBut root t (reviseFile (location root) options t file edits).tree fun _ => False := by
  unfold LinkKeeper.reviseFile
  dsimp only
  cases hread : t.readText (Path.locate (location root) file) options.lenient with
  | error fault => exact .inr (.refl h _)
  | ok content =>
      obtain ⟨bytes, mode, he, -⟩ := (h.readText_eq_ok hp).mp hread
      dsimp only
      split
      · exact .inr (.refl h _)
      · rename_i happlied
        rcases KeepsBut.replaceText h hp he with ⟨⟨e, herr⟩, hkeeps⟩ | ⟨hok, -, hkeeps⟩
        · split
          · rename_i after other heq
            rw [heq] at hkeeps
            exact .inr hkeeps
          · rename_i after heq
            rw [heq] at herr
            exact absurd herr (by simp)
        · split
          · rename_i after other heq
            rw [heq] at hok
            exact absurd hok (by simp)
          · rename_i after heq
            rw [heq] at hkeeps
            refine .inl ⟨⟨(Edit.splice content edits).applied - 1, ?_⟩, hkeeps⟩
            have hpos : (Edit.splice content edits).applied ≠ 0 := fun h0 => happlied (.inl h0)
            dsimp only
            rw [Nat.sub_add_cancel (Nat.pos_of_ne_zero hpos)]

/-! ## A plan -/

/-- The files that a report names as revised. -/
def RevisionReport.revised (r : RevisionReport) : List String := r.files.map (·.1)

/-- What one step of a plan does: the report names the file, or only its backup may have changed. -/
theorem Batch.keeps_step {b : Batch} (h : b.tree.Sound root) (options : WriteOptions)
    {file : String} (hp : Proper file) (edits : List Edit) :
    ((b.step (location root) options (file, edits)).report.revised = b.report.revised ++ [file] ∧
      KeepsBut root b.tree (b.step (location root) options (file, edits)).tree
        fun path => path = file) ∨
    ((∃ more, (b.step (location root) options (file, edits)).report.revised =
        b.report.revised ++ more ∧ more ⊆ [file]) ∧
      KeepsBut root b.tree (b.step (location root) options (file, edits)).tree fun _ => False) := by
  unfold Batch.step
  dsimp only
  rcases KeepsBut.reviseFile h options hp edits with ⟨⟨n, hn⟩, hkeeps⟩ | hkeeps
  · rw [hn]
    exact .inl ⟨by simp [RevisionReport.revised], hkeeps⟩
  · cases (reviseFile (location root) options b.tree file edits).result with
    | error fault => exact .inr ⟨⟨[], by simp [RevisionReport.revised], by simp⟩, hkeeps⟩
    | ok n =>
        cases n with
        | zero => exact .inr ⟨⟨[], by simp, by simp⟩, hkeeps⟩
        | succ n => exact .inr ⟨⟨[file], by simp [RevisionReport.revised], by simp⟩, hkeeps⟩

/-- **Carrying out a plan changes the files that are reported as revised, and backups.** -/
theorem KeepsBut.foldl_step {b : Batch}
    (h : KeepsBut root t b.tree fun path => path ∈ b.report.revised) (options : WriteOptions)
    {pairs : List (String × List Edit)}
    (hp : ∀ pair ∈ pairs, Proper pair.1) :
    KeepsBut root t (pairs.foldl (Batch.step (location root) options) b).tree
      (fun path => path ∈ (pairs.foldl (Batch.step (location root) options) b).report.revised) ∧
    ∀ path ∈ (pairs.foldl (Batch.step (location root) options) b).report.revised,
      path ∈ b.report.revised ∨ path ∈ pairs.map (·.1) := by
  induction pairs generalizing b with
  | nil => exact ⟨h, fun path hm => .inl hm⟩
  | cons pair pairs ih =>
      obtain ⟨file, edits⟩ := pair
      have hfile : Proper file := hp (file, edits) (List.mem_cons_self ..)
      have hstep : KeepsBut root t (b.step (location root) options (file, edits)).tree
            (fun path => path ∈ (b.step (location root) options (file, edits)).report.revised) ∧
          ∀ path ∈ (b.step (location root) options (file, edits)).report.revised,
            path ∈ b.report.revised ∨ path = file := by
        rcases Batch.keeps_step h.sound options hfile edits with
          ⟨hnames, hkeeps⟩ | ⟨⟨more, hnames, hmore⟩, hkeeps⟩
        · rw [hnames]
          refine ⟨(h.mono fun path hm => List.mem_append_left _ hm).trans
            (hkeeps.mono fun path he => ?_), fun path hm => ?_⟩
          · rw [he]
            exact List.mem_append_right _ (List.mem_singleton.mpr rfl)
          · exact (List.mem_append.mp hm).imp_right List.mem_singleton.mp
        · rw [hnames]
          refine ⟨(h.mono fun path hm => List.mem_append_left _ hm).trans
            (hkeeps.mono fun path hf => hf.elim), fun path hm => ?_⟩
          exact (List.mem_append.mp hm).imp_right fun hm => List.mem_singleton.mp (hmore hm)
      rw [List.foldl_cons]
      obtain ⟨hkeeps, hnames⟩ := ih hstep.1 fun pair hm => hp pair (List.mem_cons_of_mem _ hm)
      refine ⟨hkeeps, fun path hm => ?_⟩
      rcases hnames path hm with hm | hm
      · refine (hstep.2 path hm).imp_right fun he => ?_
        rw [he]
        exact List.mem_cons_self ..
      · exact .inr (List.mem_cons_of_mem _ hm)

theorem KeepsBut.reviseAll (h : t.Sound root) (options : WriteOptions) {plan : EditPlan}
    (hp : ∀ pair ∈ plan.toList, Proper pair.1) :
    KeepsBut root t (reviseAll (location root) options t plan).tree
      (fun path => path ∈ (reviseAll (location root) options t plan).report.revised) ∧
    ∀ path ∈ (reviseAll (location root) options t plan).report.revised,
      path ∈ plan.toList.map (·.1) := by
  have hstart : KeepsBut root t (⟨t, [], .empty⟩ : Batch).tree
      fun path => path ∈ (⟨t, [], .empty⟩ : Batch).report.revised := .refl h _
  obtain ⟨hkeeps, hnames⟩ := hstart.foldl_step options hp
  refine ⟨hkeeps, fun path hm => (hnames path hm).resolve_left fun hnone => ?_⟩
  exact absurd hnone (by simp [RevisionReport.revised, RevisionReport.empty])

end LinkKeeper
