import LinkKeeper.Proofs.Alike
import LinkKeeper.Proofs.Rewriting

/-!
# Plans that are carried out in full

A plan may name several edits for one place, and of these the first counts; and a backup may
take the place of a file that the plan is for. Where neither happens a plan comes to what it
says: when nothing goes wrong, each file of it has all its edits, and the report counts them.

The induction is over the files of the plan. What carries it is that revising a file writes to
two places at most, so that the files that are still to come read as they did in the beginning.
-/

namespace LinkKeeper

open FileTree
open Path (Proper)

/-- Where revising a file may write: the file itself, and its backup if there are any. -/
def WriteOptions.Writes (options : WriteOptions) (file path : String) : Prop :=
  path = file ∨ (options.backups = true ∧ path = file ++ Settings.backupEnding)

variable {root : Spine} {t : FileTree} {options : WriteOptions} {file content : String}

/-! ## One file -/

/-- Revising a file leaves all other places alone. -/
theorem Batch.step_other {b : Batch} (hb : b.tree.Sound root) (options : WriteOptions)
    (hp : Proper file) (edits : List Edit) :
    (b.step (location root) options (file, edits)).tree.Sound root ∧
      ∀ path, Proper path → ¬ options.Writes file path →
        (b.step (location root) options (file, edits)).tree.entryAt root path =
          b.tree.entryAt root path := by
  have hself : ∀ path, ¬ options.Writes file path →
      Abreast root b.tree b.tree (· = path) (b.step (location root) options (file, edits)).tree
        (b.step (location root) options (file, edits)).tree := by
    intro path hnot
    have halike : AlikeBut root b.tree b.tree (· = path) := ⟨hb, hb, fun _ _ _ => rfl⟩
    exact (halike.step rfl options hp (fun he => hnot (.inl he.symm))
      (fun hbackups he => hnot (.inr ⟨hbackups, he.symm⟩)) edits).1
  refine ⟨?_, fun path hpath hnot => (hself path hnot).left path hpath rfl⟩
  rw [Batch.tree_step]
  rcases KeepsBut.reviseFile hb options hp edits with ⟨-, hkeeps⟩ | hkeeps <;> exact hkeeps.sound

/-- A revision that goes well puts the spliced text in the place of the file. -/
theorem ReadsAs.reviseFile_ok (h : ReadsAs root t options.lenient file content)
    (hwrite : options.dryRun = false) {edits : List Edit}
    (happlied : (Edit.splice content edits).applied ≠ 0) {n : Nat}
    (hok : (LinkKeeper.reviseFile (location root) options t file edits).result = .ok n) :
    n = (Edit.splice content edits).applied ∧
      (t.replaceText options (Path.locate (location root) file)
        (Edit.splice content edits).text).2 = none ∧
      (LinkKeeper.reviseFile (location root) options t file edits).tree =
        (t.replaceText options (Path.locate (location root) file)
          (Edit.splice content edits).text).1 := by
  have hread : t.readText (Path.locate (location root) file) options.lenient = .ok content := h
  unfold LinkKeeper.reviseFile at hok ⊢
  dsimp only at hok ⊢
  rw [hread] at hok ⊢
  dsimp only at hok ⊢
  rw [if_neg (by simp [happlied, hwrite])] at hok ⊢
  split
  · rename_i heq
    rw [heq] at hok
    exact absurd hok (by simp)
  · rename_i heq
    rw [heq] at hok ⊢
    exact ⟨(Except.ok.inj hok).symm, rfl, rfl⟩

/-- What revising a file comes to, if it can be read and nothing goes wrong. -/
theorem ReadsAs.revised (h : ReadsAs root t options.lenient file content) (ht : t.Sound root)
    (hp : Proper file) (hwrite : options.dryRun = false) {edits : List Edit}
    (happlied : (Edit.splice content edits).applied ≠ 0) {n : Nat}
    (hok : (LinkKeeper.reviseFile (location root) options t file edits).result = .ok n) :
    n = (Edit.splice content edits).applied ∧
      ReadsAs root (LinkKeeper.reviseFile (location root) options t file edits).tree
        options.lenient file (Edit.splice content edits).text := by
  obtain ⟨bytes, mode, he, -⟩ := (ht.readText_eq_ok hp).mp h
  obtain ⟨hn, hnone, htree⟩ := h.reviseFile_ok hwrite happlied hok
  refine ⟨hn, ?_⟩
  rw [htree]
  rcases KeepsBut.replaceText ht hp he with ⟨⟨e, herr⟩, -⟩ | ⟨-, hnew, hkeeps⟩
  · exact absurd (hnone.symm.trans herr) (by simp)
  · exact (hkeeps.sound.readText_eq_ok hp).mpr ⟨_, mode, hnew, asText?_toUTF8 _ _⟩

/-- What a text is put in the place of is kept in the backup. -/
theorem FileTree.Sound.replaceText_backup (h : t.Sound root) (hp : Proper file)
    {old : ByteArray} {mode : Nat} (he : t.entryAt root file = some (.file old mode))
    (hon : options.backups = true) {text : String}
    (hnone : (t.replaceText options (Path.locate (location root) file) text).2 = none) :
    (t.replaceText options (Path.locate (location root) file) text).1.entryAt root
      (file ++ Settings.backupEnding) = some (.file old mode) := by
  obtain ⟨hback, hne, -, -⟩ := hp.backup
  unfold replaceText at hnone ⊢
  rw [if_pos hon, ← locate_append root hp _ hback.isAbsolute] at hnone ⊢
  cases hc : t.copy (Path.locate (location root) file)
      (Path.locate (location root) (file ++ Settings.backupEnding)) with
  | error e =>
      rw [hc] at hnone
      exact absurd hnone (by simp)
  | ok copied =>
      obtain ⟨hsound, hbackup, hfile⟩ : copied.Sound root ∧
          copied.entryAt root (file ++ Settings.backupEnding) = some (.file old mode) ∧
          copied.entryAt root file = some (.file old mode) := by
        have heq := h.copy_eq hback (h.entry_some hp he true)
        rw [hc] at heq
        split at heq
        · exact absurd heq (by simp)
        · exact absurd heq (by simp)
        · exact absurd heq (by simp)
        all_goals
          obtain ⟨_, hcopied, hsound, hentries⟩ := heq
          obtain rfl := Except.ok.inj hcopied
          refine ⟨hsound, by rw [entryAt, hentries, if_pos rfl], ?_⟩
          rw [entryAt, hentries, if_neg]
          · exact he
          · intro hsame
            exact hne (Path.eq_of_spine_eq hback.normal hp.normal (List.append_cancel_left hsame))
      dsimp only
      rw [hsound.replace_file hp hfile]
      dsimp only
      rw [entryAt_put copied root hp _ hback, if_neg hne]
      exact hbackup

/-- The backup of a file that has been revised is the file as it was. -/
theorem ReadsAs.backedUp (h : ReadsAs root t options.lenient file content) (ht : t.Sound root)
    (hp : Proper file) (hwrite : options.dryRun = false) (hon : options.backups = true)
    {edits : List Edit} (happlied : (Edit.splice content edits).applied ≠ 0) {n : Nat}
    (hok : (LinkKeeper.reviseFile (location root) options t file edits).result = .ok n) :
    (LinkKeeper.reviseFile (location root) options t file edits).tree.entryAt root
      (file ++ Settings.backupEnding) = t.entryAt root file := by
  obtain ⟨bytes, mode, he, -⟩ := (ht.readText_eq_ok hp).mp h
  obtain ⟨-, hnone, htree⟩ := h.reviseFile_ok hwrite happlied hok
  rw [htree, ht.replaceText_backup hp he hon hnone, he]

/-- A step that adds no failure has revised its file. -/
theorem Batch.step_ok {b : Batch} {edits : List Edit}
    (hnone : (b.step (location root) options (file, edits)).report.failures = []) :
    ∃ n, (LinkKeeper.reviseFile (location root) options b.tree file edits).result = .ok n ∧
      (n ≠ 0 → (b.step (location root) options (file, edits)).report.files =
        b.report.files ++ [(file, n)]) := by
  cases hresult : (LinkKeeper.reviseFile (location root) options b.tree file edits).result with
  | error fault =>
      obtain ⟨more, hmore, hne⟩ := @Batch.failures_step root options b file edits
      rw [hnone] at hmore
      exact absurd (List.append_eq_nil_iff.mp hmore.symm).2 (hne ⟨fault, hresult⟩)
  | ok n =>
      refine ⟨n, rfl, fun hpos => ?_⟩
      unfold Batch.step
      dsimp only
      rw [hresult]
      cases n with
      | zero => exact absurd rfl hpos
      | succ n => rfl

/-! ## A whole plan -/

/-- Each file of a plan can be read and has edits, and its edits are for references of it. -/
def Fresh (root : Spine) (t : FileTree) (options : WriteOptions)
    (pairs : List (String × List Edit)) : Prop :=
  ∀ pair ∈ pairs, Proper pair.1 ∧ pair.2 ≠ [] ∧ ∃ content references,
    ReadsAs root t options.lenient pair.1 content ∧
    Links.Laid content.toList references ∧ ∀ e ∈ pair.2, ∃ r ∈ references, e.IsFor r

/-- No file of a plan is written to for another one. -/
def Separate (options : WriteOptions) (pairs : List (String × List Edit)) : Prop :=
  pairs.Pairwise fun a b => ¬ options.Writes a.1 b.1 ∧ ¬ options.Writes b.1 a.1

/-- The files of a list are those of a plan in which the first edit for each place counts. -/
def counted (pairs : List (String × List Edit)) : List (String × Nat) :=
  pairs.map fun pair => (pair.1, (Edit.ordered pair.2).length)

theorem Batch.foldl_other {b : Batch} (hb : b.tree.Sound root)
    {pairs : List (String × List Edit)} (hpairs : ∀ pair ∈ pairs, Proper pair.1) :
    (pairs.foldl (Batch.step (location root) options) b).tree.Sound root ∧
      ∀ path, Proper path → (∀ pair ∈ pairs, ¬ options.Writes pair.1 path) →
        (pairs.foldl (Batch.step (location root) options) b).tree.entryAt root path =
          b.tree.entryAt root path := by
  induction pairs generalizing b with
  | nil => exact ⟨hb, fun _ _ _ => rfl⟩
  | cons pair pairs ih =>
      obtain ⟨hsound, hsame⟩ :=
        Batch.step_other hb options (hpairs pair List.mem_cons_self) pair.2
      obtain ⟨hlast, hrest⟩ := ih hsound fun other hm => hpairs other (List.mem_cons_of_mem _ hm)
      rw [List.foldl_cons]
      refine ⟨hlast, fun path hpath hnot => ?_⟩
      exact (hrest path hpath fun other hm => hnot other (List.mem_cons_of_mem _ hm)).trans
        (hsame path hpath (hnot pair List.mem_cons_self))

/-- **A list of files is revised in full if nothing goes wrong.** -/
theorem Batch.foldl_fresh {b : Batch} (hb : b.tree.Sound root) (hwrite : options.dryRun = false)
    {pairs : List (String × List Edit)} (hfresh : Fresh root b.tree options pairs)
    (hseparate : Separate options pairs)
    (hnone : (pairs.foldl (Batch.step (location root) options) b).report.failures = []) :
    (pairs.foldl (Batch.step (location root) options) b).report.files =
        b.report.files ++ counted pairs ∧
      ∀ pair ∈ pairs, ∀ content, ReadsAs root b.tree options.lenient pair.1 content →
        ReadsAs root (pairs.foldl (Batch.step (location root) options) b).tree options.lenient
          pair.1 (Edit.splice content pair.2).text := by
  induction pairs generalizing b with
  | nil => exact ⟨by simp [counted], by simp⟩
  | cons pair pairs ih =>
      obtain ⟨file, edits⟩ := pair
      obtain ⟨hp, hne, content, references, hread, hlaid, hfor⟩ := hfresh _ List.mem_cons_self
      have hpairs : ∀ pair ∈ pairs, Proper pair.1 :=
        fun pair hm => (hfresh pair (List.mem_cons_of_mem _ hm)).1
      have happlied : (Edit.splice content edits).applied = (Edit.ordered edits).length :=
        (Edit.splice_fresh hlaid hfor).2.2
      have hpos : (Edit.splice content edits).applied ≠ 0 := fun hzero =>
        hne (Edit.ordered_eq_nil (List.eq_nil_of_length_eq_zero (happlied.symm.trans hzero)))
      obtain ⟨hhead, htail⟩ := List.pairwise_cons.mp hseparate
      rw [List.foldl_cons] at hnone ⊢
      have hstep : (b.step (location root) options (file, edits)).report.failures = [] := by
        have hpre := Batch.failures_foldl root options
          (b.step (location root) options (file, edits)) pairs
        rw [hnone] at hpre
        exact List.prefix_nil.mp hpre
      obtain ⟨n, hok, hfiles⟩ := Batch.step_ok hstep
      obtain ⟨rfl, hnew⟩ := hread.revised hb hp hwrite hpos hok
      obtain ⟨hsound, hsame⟩ := Batch.step_other hb options hp edits
      have hkept : ∀ pair ∈ pairs, ∀ text, ReadsAs root b.tree options.lenient pair.1 text →
          ReadsAs root (b.step (location root) options (file, edits)).tree options.lenient pair.1
            text := fun pair hm text htext =>
        htext.congr hb hsound (hpairs pair hm) (hpairs pair hm)
          (hsame pair.1 (hpairs pair hm) (hhead pair hm).1)
      obtain ⟨hcount, htexts⟩ := ih hsound (fun pair hm => by
          obtain ⟨hproper, hsome, text, more, htext, hrest⟩ :=
            hfresh pair (List.mem_cons_of_mem _ hm)
          exact ⟨hproper, hsome, text, more, hkept pair hm text htext, hrest⟩) htail hnone
      refine ⟨?_, fun pair hm text htext => ?_⟩
      · rw [hcount, hfiles hpos, happlied, List.append_assoc]
        rfl
      · rcases List.mem_cons.mp hm with rfl | hm
        · -- the file itself is not touched again
          obtain rfl : text = content := Except.ok.inj (htext.symm.trans hread)
          obtain ⟨hlast, hrest⟩ := @Batch.foldl_other root options _ hsound pairs hpairs
          rw [← Batch.tree_step] at hnew
          exact hnew.congr hsound hlast hp hp (hrest file hp fun other hother =>
            (hhead other hother).2)
        · exact htexts pair hm text (hkept pair hm text htext)

/-- A step that adds no failure leaves the file as it was in the backup. -/
theorem Batch.step_backup {b : Batch} (hb : b.tree.Sound root) (hwrite : options.dryRun = false)
    (hon : options.backups = true) {edits : List Edit}
    (hfresh : Fresh root b.tree options [(file, edits)])
    (hnone : (b.step (location root) options (file, edits)).report.failures = []) :
    (b.step (location root) options (file, edits)).tree.entryAt root
      (file ++ Settings.backupEnding) = b.tree.entryAt root file := by
  obtain ⟨hp, hne, content, references, hread, hlaid, hfor⟩ := hfresh _ List.mem_cons_self
  obtain ⟨n, hok, -⟩ := Batch.step_ok hnone
  have happlied := (Edit.splice_fresh hlaid hfor).2.2
  rw [Batch.tree_step]
  refine hread.backedUp hb hp hwrite hon (fun hzero => hne ?_) hok
  exact Edit.ordered_eq_nil (List.eq_nil_of_length_eq_zero (happlied.symm.trans hzero))

/-- The files of a plan are not written to for each other if none has the name of a backup. -/
theorem separate_of_no_backups {plan : EditPlan}
    (h : options.backups = true → ∀ pair ∈ plan.toList, ∀ other ∈ plan.toList,
      other.1 ≠ pair.1 ++ Settings.backupEnding) : Separate options plan.toList := by
  have hdistinct : plan.toList.Pairwise fun a b => a.1 ≠ b.1 :=
    (Std.TreeMap.distinct_keys_toList (t := plan)).imp fun hne he =>
      hne (Std.compare_eq_iff_eq.mpr he)
  refine (List.pairwise_iff_forall_sublist.mpr fun {a b} hsub => ?_)
  have ha : a ∈ plan.toList := hsub.mem (by simp)
  have hb : b ∈ plan.toList := hsub.mem (by simp)
  have hne : a.1 ≠ b.1 := List.pairwise_iff_forall_sublist.mp hdistinct hsub
  exact ⟨fun hw => hw.elim (fun he => hne he.symm) fun ⟨hon, he⟩ => h hon a ha b hb he,
    fun hw => hw.elim hne fun ⟨hon, he⟩ => h hon b hb a ha he⟩

end LinkKeeper
