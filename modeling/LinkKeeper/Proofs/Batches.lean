import Mathlib.Data.List.Forall2
import LinkKeeper.Proofs.Carrying

/-!
# Each file of a plan by itself

What a plan does to one of its files is what a revision of this file alone would do, whatever becomes
of the others. A revision writes to the file and to its backup and nowhere else, it writes to both or
to neither, and the places of two files of a plan are apart as long as none is the backup of another.

A file that cannot be read is the one thing that another file can have a say in: where a directory is
missing on its way, the backup of another file may have taken the name. So what is reported is the
same then, and the reason need not be.
-/

namespace LinkKeeper

open FileTree
open Path (locate spine Proper)

/-- Where revising a file may write, as names from the top. -/
def WriteOptions.Takes (options : WriteOptions) (root : Spine) (file : String) (place : Spine) : Prop :=
  ∃ path, options.Writes file path ∧ place = root ++ spine path

variable {root : Spine} {t after : FileTree} {options : WriteOptions} {file text : String}
  {edits : List Edit}

/-! ## One file -/

/-- A text has been put in the place of a file, behind a backup if there is to be one. -/
structure Rewritten (root : Spine) (options : WriteOptions) (t after : FileTree)
    (file text : String) : Prop where
  sound : after.Sound root
  content : ∃ old mode, t.entryAt root file = some (.file old mode) ∧
    after.entryAt root file = some (.file text.toUTF8 mode)
  backup : options.backups = true →
    after.entryAt root (file ++ Settings.backupEnding) = t.entryAt root file
  other : ∀ place, ¬ options.Takes root file place → after.entries[place]? = t.entries[place]?

/-- Putting a text in the place of a file is refused without a trace, or done as a whole. -/
theorem FileTree.Sound.replaceText_cases (h : t.Sound root) (options : WriteOptions)
    (text : String) (hp : Proper file) {old : ByteArray} {mode : Nat}
    (he : t.entryAt root file = some (.file old mode)) :
    (∃ e, t.replaceText options (locate (location root) file) text = (t, some e)) ∨
    ∃ after, t.replaceText options (locate (location root) file) text = (after, none) ∧
      Rewritten root options t after file text := by
  obtain ⟨hback, hne, -, -⟩ := hp.backup
  have hapart : root ++ spine (file ++ Settings.backupEnding) ≠ root ++ spine file := fun hsame =>
    hne (Path.eq_of_spine_eq hback.normal hp.normal (List.append_cancel_left hsame))
  -- once the backup is made, if there is to be one, the file is replaced
  have hreplaced : ∀ {copied : FileTree}, copied.Sound root →
      copied.entryAt root file = some (.file old mode) →
      (options.backups = true →
        copied.entryAt root (file ++ Settings.backupEnding) = t.entryAt root file) →
      (∀ place, ¬ options.Takes root file place → copied.entries[place]? = t.entries[place]?) →
      Rewritten root options t (copied.put (root ++ spine file) (.file text.toUTF8 mode)) file text := by
    intro copied hsound hfile hbackup hother
    refine ⟨hsound.sound_replaced hp hfile _, ⟨old, mode, he, ?_⟩, fun hon => ?_, fun place hnot => ?_⟩
    · rw [entryAt, getElem?_put, if_pos rfl]
    · rw [entryAt, getElem?_put, if_neg (Ne.symm hapart)]
      exact hbackup hon
    · rw [getElem?_put, if_neg]
      · exact hother place hnot
      · rintro rfl
        exact hnot ⟨file, .inl rfl, rfl⟩
  unfold FileTree.replaceText
  cases hon : options.backups with
  | false =>
      rw [if_neg Bool.false_ne_true]
      dsimp only
      rw [h.replace_file hp he]
      exact .inr ⟨_, rfl, hreplaced h he (by simp [hon]) fun _ _ => rfl⟩
  | true =>
      rw [if_pos rfl, ← locate_append root hp _ hback.isAbsolute]
      have hcopy := h.copy_eq hback (h.entry_some hp he true)
      -- what a copy that is made leaves
      have hdone : ∀ {copied : FileTree}, copied.Sound root →
          (∀ other : Spine, copied.entries[other]? =
            if root ++ spine (file ++ Settings.backupEnding) = other then some (.file old mode)
            else t.entries[other]?) →
          copied.entryAt root file = some (.file old mode) ∧
          Rewritten root options t (copied.put (root ++ spine file) (.file text.toUTF8 mode))
            file text := by
        intro copied hsound hentries
        have hfile : copied.entryAt root file = some (.file old mode) := by
          rw [entryAt, hentries, if_neg hapart]
          exact he
        refine ⟨hfile, hreplaced hsound hfile (fun _ => ?_) fun place hnot => ?_⟩
        · rw [entryAt, hentries, if_pos rfl, he]
        · rw [hentries, if_neg]
          rintro rfl
          exact hnot ⟨_, .inr ⟨hon, rfl⟩, rfl⟩
      split at hcopy
      · rw [hcopy]
        exact .inl ⟨_, rfl⟩
      · rw [hcopy]
        exact .inl ⟨_, rfl⟩
      · rw [hcopy]
        exact .inl ⟨_, rfl⟩
      all_goals
        obtain ⟨copied, hcopied, hsound, hentries⟩ := hcopy
        obtain ⟨hfile, hrewritten⟩ := hdone hsound hentries
        rw [hcopied]
        dsimp only
        rw [hsound.replace_file hp hfile]
        exact .inr ⟨_, rfl, hrewritten⟩

/-- The root is no file, and so nothing is made of edits for it. -/
theorem reviseFile_root (h : t.Grounded root) :
    reviseFile (location root) options t "" edits = ⟨t, [], .error (.ofSystem .isDirectory)⟩ := by
  unfold reviseFile
  dsimp only
  rw [readText, FileTree.read, h.entry_root]

/-- **A revision does nothing to the tree, or rewrites the file and counts its edits.** -/
theorem reviseFile_cases (h : t.Sound root) (hnormal : Path.normalize file = file)
    (hinside : Path.escapes file = false) (options : WriteOptions) (edits : List Edit) :
    ((reviseFile (location root) options t file edits).tree = t ∧
      ∀ n, (reviseFile (location root) options t file edits).result = .ok (n + 1) →
        options.dryRun = true) ∨
    Proper file ∧ options.dryRun = false ∧
      ∃ n text, (reviseFile (location root) options t file edits).result = .ok (n + 1) ∧
        Rewritten root options t (reviseFile (location root) options t file edits).tree file text := by
  by_cases hempty : file = ""
  · subst hempty
    rw [reviseFile_root h.grounded]
    exact .inl ⟨rfl, fun n hn => absurd hn (by simp)⟩
  have hp : Proper file := ⟨hnormal, hempty, hinside⟩
  unfold reviseFile
  dsimp only
  cases hread : t.readText (locate (location root) file) options.lenient with
  | error fault => exact .inl ⟨rfl, fun n hn => absurd hn (by simp)⟩
  | ok content =>
      obtain ⟨bytes, mode, he, -⟩ := (h.readText_eq_ok hp).mp hread
      dsimp only
      split
      · rename_i hskip
        refine .inl ⟨rfl, fun n hn => hskip.resolve_left fun hzero => ?_⟩
        rw [hzero] at hn
        exact absurd hn (by simp)
      · rename_i hwrite
        obtain ⟨happlied, hdry⟩ := not_or.mp hwrite
        rcases h.replaceText_cases options (Edit.splice content edits).text hp he with
          ⟨e, hrefused⟩ | ⟨after, hdone, hrewritten⟩
        · rw [hrefused]
          exact .inl ⟨rfl, fun n hn => absurd hn (by simp)⟩
        · rw [hdone]
          obtain ⟨n, hn⟩ := Nat.exists_eq_succ_of_ne_zero happlied
          exact .inr ⟨hp, by simpa using hdry, n, _, by rw [hn], hrewritten⟩

/-! ## What other files have a say in -/

/-- Two places hold the same, or a file each. -/
def SameKind (a b : Option Entry) : Prop :=
  a = b ∨ (∃ content mode, a = some (.file content mode)) ∧ ∃ content mode, b = some (.file content mode)

theorem SameKind.trans {a b c : Option Entry} (h : SameKind a b) (h' : SameKind b c) : SameKind a c := by
  rcases h with rfl | ⟨ha, hb⟩
  · exact h'
  · rcases h' with rfl | ⟨-, hc⟩
    · exact .inr ⟨ha, hb⟩
    · exact .inr ⟨ha, hc⟩

namespace FileTree

variable {u : FileTree}

/-- A look-up that finds nothing goes by the kinds of what stands on its way. -/
theorem descend_congr {follow : Bool} {go go' : Option (Spine → List String → Except SystemError Spot)}
    {dir names : Spine} (hn : ∀ name ∈ names, name ≠ "" ∧ name ≠ "." ∧ name ≠ "..")
    (hl : ∀ front target, front <+: names → t.entries[dir ++ front]? ≠ some (.link target))
    (hk : ∀ front, front <+: names → front ≠ [] →
      SameKind t.entries[dir ++ front]? u.entries[dir ++ front]?)
    (hfound : ∀ place entry, t.descend follow go dir names ≠ .ok (.found place entry)) :
    u.descend follow go' dir names = t.descend follow go dir names := by
  induction names generalizing dir with
  | nil => exact absurd rfl (hfound dir .directory)
  | cons name names ih =>
      obtain ⟨hempty, hhere, habove⟩ := hn name List.mem_cons_self
      have hskip : ¬ (name = "" ∨ name = ".") := not_or.mpr ⟨hempty, hhere⟩
      have hkind := hk [name] (by simp) (by simp)
      rw [descend, if_neg hskip, if_neg habove] at hfound
      rw [descend, descend, if_neg hskip, if_neg hskip, if_neg habove, if_neg habove]
      split
      · rfl
      · rename_i hshort
        rw [if_neg hshort] at hfound
        dsimp only at hfound ⊢
        rcases hkind with hsame | ⟨⟨content, mode, ht⟩, content', mode', hu⟩
        · rw [← hsame]
          cases hentry : t.entries[dir ++ [name]]? with
          | none => rfl
          | some entry =>
              rw [hentry] at hfound
              cases entry with
              | directory =>
                  dsimp only at hfound ⊢
                  refine ih (fun other hm => hn other (List.mem_cons_of_mem _ hm))
                    (fun front target hf => ?_) (fun front hf hne => ?_) hfound
                  · simpa using hl (name :: front) target (List.cons_prefix_cons.mpr ⟨rfl, hf⟩)
                  · simpa using hk (name :: front) (List.cons_prefix_cons.mpr ⟨rfl, hf⟩) (by simp)
              | file content mode => rfl
              | link target => exact absurd hentry (hl [name] target (by simp))
        · rw [ht] at hfound
          rw [ht, hu]
          dsimp only at hfound ⊢
          cases hnames : names.isEmpty with
          | true =>
              rw [hnames] at hfound
              exact absurd rfl (hfound _ _)
          | false => rfl

/-- A file is read alike in two trees that have the same there and the same kinds on the way. -/
theorem Sound.readText_congr (h : t.Sound root) (h' : u.Sound root) (hp : Proper file)
    (he : t.entryAt root file = u.entryAt root file)
    (hk : ∀ front, front <+: spine file → front ≠ [] →
      SameKind t.entries[root ++ front]? u.entries[root ++ front]?) (lenient : Bool) :
    t.readText (locate (location root) file) lenient =
      u.readText (locate (location root) file) lenient := by
  have hread : t.entry true (locate (location root) file) =
      u.entry true (locate (location root) file) := by
    cases hu : u.entryAt root file with
    | some entry => rw [h.entry_some hp (he.trans hu), h'.entry_some hp hu]
    | none =>
        obtain ⟨go, hlook⟩ := h.grounded.look_locate hp true
        obtain ⟨go', hlook'⟩ := h'.grounded.look_locate hp true
        have hnone := h.look_none hp (he.trans hu) true
        rw [hlook] at hnone
        rw [FileTree.entry, FileTree.entry, hlook, hlook',
          descend_congr (name_of_spine hp) (h.linkless_below _) hk hnone]
  rw [readText, readText, FileTree.read, FileTree.read, hread]

end FileTree

variable {u : FileTree} {apart : String → Prop}

/-- A file that is read alike in two trees fares alike, away from where they differ. -/
theorem AlikeBut.result_eq (h : AlikeBut root t u apart) (hp : Proper file) (hfile : ¬ apart file)
    (hbackup : options.backups = true → ¬ apart (file ++ Settings.backupEnding))
    (hread : t.readText (locate (location root) file) options.lenient =
      u.readText (locate (location root) file) options.lenient) :
    (LinkKeeper.reviseFile (location root) options t file edits).result =
      (LinkKeeper.reviseFile (location root) options u file edits).result := by
  unfold LinkKeeper.reviseFile
  dsimp only
  rw [← hread]
  cases ht : t.readText (locate (location root) file) options.lenient with
  | error fault => rfl
  | ok content =>
      obtain ⟨bytes, mode, he, -⟩ := (h.left.readText_eq_ok hp).mp ht
      dsimp only
      split
      · rfl
      · have hsame : (t.replaceText options (locate (location root) file)
              (Edit.splice content edits).text).2 =
            (u.replaceText options (locate (location root) file)
              (Edit.splice content edits).text).2 :=
          (h.replaceText options hp hfile hbackup he).2
        generalize t.replaceText options (locate (location root) file) _ = first at hsame ⊢
        generalize u.replaceText options (locate (location root) file) _ = second at hsame ⊢
        obtain ⟨t', e⟩ := first
        obtain ⟨u', e'⟩ := second
        obtain rfl : e = e' := hsame
        cases e <;> rfl

/-! ## What a list of files does to the tree -/

/-- The entry of a report for a file that could not be revised. -/
def failure? (file : String) : Except Fault Nat → Option (String × String)
  | .error fault => some (file, fault.message)
  | .ok _ => none

/-- The entry of a report for a file in which edits have applied. -/
def success? (file : String) : Except Fault Nat → Option (String × Nat)
  | .ok (n + 1) => some (file, n + 1)
  | _ => none

theorem name_of_failure? {result : Except Fault Nat} {entry : String × String}
    (h : failure? file result = some entry) : entry.1 = file := by
  cases result with
  | error fault => rw [← Option.some.inj h]
  | ok n => exact absurd h (by simp [failure?])

theorem name_of_success? {result : Except Fault Nat} {entry : String × Nat}
    (h : success? file result = some entry) : entry.1 = file := by
  rcases result with fault | _ | n
  · exact absurd h (by simp [success?])
  · exact absurd h (by simp [success?])
  · rw [← Option.some.inj h]

theorem Batch.report_step (b : Batch) (root : String) (options : WriteOptions) (file : String)
    (edits : List Edit) :
    (b.step root options (file, edits)).report =
      ⟨b.report.failures ++ (failure? file (reviseFile root options b.tree file edits).result).toList,
        b.report.files ++ (success? file (reviseFile root options b.tree file edits).result).toList⟩ := by
  unfold Batch.step
  dsimp only
  rcases (reviseFile root options b.tree file edits).result with fault | _ | n <;>
    simp [failure?, success?]

/--
What has come of some files: what the report has more, and that nothing else was written to but what
these files and their backups take.
-/
structure Ran (root : Spine) (options : WriteOptions) (pairs : List (String × List Edit))
    (b b' : Batch) : Prop where
  sound : b'.tree.Sound root
  files : ∃ more, b'.report.files = b.report.files ++ more ∧
    (∀ revised ∈ more, Proper revised.1 ∧ ∃ pair ∈ pairs, pair.1 = revised.1) ∧
    ∀ place, (∀ revised ∈ more, ¬ options.Takes root revised.1 place) →
      b'.tree.entries[place]? = b.tree.entries[place]?
  kinds : ∀ place, (∀ pair ∈ pairs, options.backups = true →
      place ≠ root ++ spine (pair.1 ++ Settings.backupEnding)) →
    SameKind b.tree.entries[place]? b'.tree.entries[place]?

variable {b b' : Batch} {pairs : List (String × List Edit)}

theorem Ran.refl (hb : b.tree.Sound root) : Ran root options [] b b :=
  ⟨hb, ⟨[], by simp, by simp, fun _ _ => rfl⟩, fun _ _ => .inl rfl⟩

theorem Ran.trans {b'' : Batch} {others : List (String × List Edit)} (h : Ran root options pairs b b')
    (h' : Ran root options others b' b'') : Ran root options (pairs ++ others) b b'' := by
  obtain ⟨more, hmore, hnames, hsame⟩ := h.files
  obtain ⟨more', hmore', hnames', hsame'⟩ := h'.files
  refine ⟨h'.sound, ⟨more ++ more', by rw [hmore', hmore, List.append_assoc], ?_, ?_⟩,
    fun place hplace => ?_⟩
  · rw [List.forall_mem_append]
    refine ⟨fun revised hr => ?_, fun revised hr => ?_⟩
    · obtain ⟨hp, pair, hpair, he⟩ := hnames revised hr
      exact ⟨hp, pair, List.mem_append_left _ hpair, he⟩
    · obtain ⟨hp, pair, hpair, he⟩ := hnames' revised hr
      exact ⟨hp, pair, List.mem_append_right _ hpair, he⟩
  · intro place hplace
    obtain ⟨hfirst, hsecond⟩ := List.forall_mem_append.mp hplace
    exact (hsame' place hsecond).trans (hsame place hfirst)
  · obtain ⟨hfirst, hsecond⟩ := List.forall_mem_append.mp hplace
    exact (h.kinds place hfirst).trans (h'.kinds place hsecond)

/-- One file writes to its places if it is reported as revised, and else nowhere. -/
theorem Batch.ran_step (hb : b.tree.Sound root) (hnormal : Path.normalize file = file)
    (hinside : Path.escapes file = false) (options : WriteOptions) (edits : List Edit) :
    Ran root options [(file, edits)] b (b.step (location root) options (file, edits)) := by
  have htree := @Batch.tree_step root options b file edits
  have hfiles := congrArg RevisionReport.files (b.report_step (location root) options file edits)
  -- only a file can be revised
  have hnames : ∀ revised ∈ (success? file
      (reviseFile (location root) options b.tree file edits).result).toList,
      Proper revised.1 ∧ ∃ pair ∈ [(file, edits)], pair.1 = revised.1 := by
    intro revised hr
    rw [Option.mem_toList] at hr
    cases hresult : (reviseFile (location root) options b.tree file edits).result with
    | error fault =>
        rw [hresult] at hr
        exact absurd hr (by simp [success?])
    | ok n =>
        have hempty : file ≠ "" := by
          rintro rfl
          rw [reviseFile_root hb.grounded] at hresult
          exact absurd hresult (by simp)
        rw [hresult] at hr
        cases n with
        | zero => exact absurd hr (by simp [success?])
        | succ n =>
            obtain rfl := Option.some.inj hr
            exact ⟨⟨hnormal, hempty, hinside⟩, _, List.mem_singleton_self _, rfl⟩
  rcases reviseFile_cases hb hnormal hinside options edits with
    ⟨hsame, -⟩ | ⟨hp, -, n, text, hresult, hrewritten⟩
  · rw [hsame] at htree
    exact ⟨by rwa [htree], ⟨_, hfiles, hnames, fun place _ => by rw [htree]⟩,
      fun place _ => .inl (by rw [htree])⟩
  · refine ⟨by rw [htree]; exact hrewritten.sound, ⟨_, hfiles, hnames, fun place hplace => ?_⟩,
      fun place hplace => ?_⟩
    · rw [htree]
      refine hrewritten.other place (hplace (file, n + 1) ?_)
      rw [hresult]
      exact List.mem_singleton_self _
    · rw [htree]
      by_cases hfile : place = root ++ spine file
      · obtain ⟨old, mode, hold, hnew⟩ := hrewritten.content
        rw [hfile]
        exact .inr ⟨⟨old, mode, hold⟩, _, _, hnew⟩
      · refine .inl (hrewritten.other place ?_).symm
        rintro ⟨path, rfl | ⟨hon, rfl⟩, rfl⟩
        · exact hfile rfl
        · exact hplace _ (List.mem_singleton_self _) hon rfl

/-- **What some files of a plan have come to**, one after the other. -/
theorem Batch.ran_foldl (options : WriteOptions) (hb : b.tree.Sound root)
    (hpairs : ∀ pair ∈ pairs, Path.normalize pair.1 = pair.1 ∧ Path.escapes pair.1 = false) :
    Ran root options pairs b (pairs.foldl (Batch.step (location root) options) b) := by
  induction pairs generalizing b with
  | nil => exact .refl hb
  | cons pair pairs ih =>
      obtain ⟨hnormal, hinside⟩ := hpairs pair List.mem_cons_self
      have hstep := Batch.ran_step hb hnormal hinside options pair.2
      exact hstep.trans (ih hstep.sound fun other hm => hpairs other (List.mem_cons_of_mem _ hm))

/-! ## One file of several -/

/-- Files that are apart do not write to each other's places. -/
theorem not_writes_both {a c path : String} (h : ¬ options.Writes a c ∧ ¬ options.Writes c a)
    (ha : options.Writes a path) (hc : options.Writes c path) : False := by
  rcases ha with rfl | ⟨hon, rfl⟩
  · exact h.2 hc
  · rcases hc with he | ⟨-, he⟩
    · exact h.1 (.inr ⟨hon, he.symm⟩)
    · exact h.1 (.inl (by simpa using he.symm))

theorem normalize_of_writes (hnormal : Path.normalize file = file)
    (hinside : Path.escapes file = false) {path : String} (h : options.Writes file path) :
    Path.normalize path = path := by
  rcases h with rfl | ⟨-, rfl⟩
  · exact hnormal
  · by_cases hempty : file = ""
    · subst hempty
      decide +kernel
    · exact (Proper.backup ⟨hnormal, hempty, hinside⟩).1.normal

/-- The other files leave the places of a file alone. -/
theorem Ran.entryAt_eq (h : Ran root options pairs b b') (hnormal : Path.normalize file = file)
    (hinside : Path.escapes file = false)
    (hapart : ∀ pair ∈ pairs, ¬ options.Writes pair.1 file ∧ ¬ options.Writes file pair.1)
    {path : String} (hpath : options.Writes file path) :
    b'.tree.entryAt root path = b.tree.entryAt root path := by
  obtain ⟨more, -, hnames, hsame⟩ := h.files
  refine hsame _ fun revised hr => ?_
  rintro ⟨other, hother, he⟩
  obtain ⟨hrevised, pair, hpair, hname⟩ := hnames revised hr
  obtain rfl := Path.eq_of_spine_eq (normalize_of_writes hnormal hinside hpath)
    (normalize_of_writes hrevised.normal hrevised.inside hother) (List.append_cancel_left he)
  rw [← hname] at hother
  exact not_writes_both (hapart pair hpair) hother hpath

/-- So the tree is the one from before to who looks at these places alone. -/
theorem Ran.alikeBut (h : Ran root options pairs b b') (hb : b.tree.Sound root)
    (hnormal : Path.normalize file = file) (hinside : Path.escapes file = false)
    (hapart : ∀ pair ∈ pairs, ¬ options.Writes pair.1 file ∧ ¬ options.Writes file pair.1) :
    AlikeBut root b'.tree b.tree fun path => ¬ options.Writes file path :=
  ⟨h.sound, hb, fun _ _ hpath => h.entryAt_eq hnormal hinside hapart (not_not.mp hpath)⟩

/-- A file and its backup become what they would have become before. -/
theorem Ran.entryAt_reviseFile (h : Ran root options pairs b b') (hb : b.tree.Sound root)
    (hnormal : Path.normalize file = file) (hinside : Path.escapes file = false)
    (hapart : ∀ pair ∈ pairs, ¬ options.Writes pair.1 file ∧ ¬ options.Writes file pair.1)
    {path : String} (hpath : options.Writes file path) :
    (reviseFile (location root) options b'.tree file edits).tree.entryAt root path =
      (reviseFile (location root) options b.tree file edits).tree.entryAt root path := by
  by_cases hempty : file = ""
  · subst hempty
    rw [reviseFile_root hb.grounded, reviseFile_root h.sound.grounded]
    exact h.entryAt_eq hnormal hinside hapart hpath
  have hp : Proper file := ⟨hnormal, hempty, hinside⟩
  have halike := h.alikeBut hb hnormal hinside hapart
  obtain ⟨habreast, -⟩ := halike.reviseFile options hp (not_not.mpr (.inl rfl))
    (fun hon => not_not.mpr (.inr ⟨hon, rfl⟩)) edits
  refine habreast.alike.same path ?_ (not_not.mpr hpath)
  rcases hpath with rfl | ⟨-, rfl⟩
  · exact hp
  · exact hp.backup.1

/-- A path below the backup of a file of a list, where there are backups. -/
def UnderBackup (options : WriteOptions) (pairs : List (String × List Edit)) (path : String) : Prop :=
  options.backups = true ∧ ∃ pair ∈ pairs, Path.isUnder (pair.1 ++ Settings.backupEnding) path = true

/-- After other files a file fares as it would have done before, but for the reason of a refusal. -/
theorem Ran.result_cases (h : Ran root options pairs b b') (edits : List Edit)
    (hb : b.tree.Sound root)
    (hpairs : ∀ pair ∈ pairs, Path.normalize pair.1 = pair.1 ∧ Path.escapes pair.1 = false)
    (hnormal : Path.normalize file = file) (hinside : Path.escapes file = false)
    (hapart : ∀ pair ∈ pairs, ¬ options.Writes pair.1 file ∧ ¬ options.Writes file pair.1) :
    (reviseFile (location root) options b'.tree file edits).result =
        (reviseFile (location root) options b.tree file edits).result ∨
      UnderBackup options pairs file ∧
        ∃ fault fault', (reviseFile (location root) options b'.tree file edits).result = .error fault ∧
          (reviseFile (location root) options b.tree file edits).result = .error fault' := by
  by_cases hempty : file = ""
  · subst hempty
    rw [reviseFile_root hb.grounded, reviseFile_root h.sound.grounded]
    exact .inl rfl
  have hp : Proper file := ⟨hnormal, hempty, hinside⟩
  have halike := h.alikeBut hb hnormal hinside hapart
  have hfile : ¬ ¬ options.Writes file file := not_not.mpr (.inl rfl)
  have hbackup : options.backups = true →
      ¬ ¬ options.Writes file (file ++ Settings.backupEnding) :=
    fun hon => not_not.mpr (.inr ⟨hon, rfl⟩)
  by_cases hunder : UnderBackup options pairs file
  · obtain ⟨-, hsame⟩ := halike.reviseFile options hp hfile hbackup edits
    generalize (reviseFile (location root) options b'.tree file edits).result = after at hsame ⊢
    generalize (reviseFile (location root) options b.tree file edits).result = before at hsame ⊢
    cases after with
    | ok n =>
        cases before with
        | ok m => exact .inl (congrArg Except.ok (Option.some.inj hsame))
        | error fault => exact absurd hsame (by simp [Except.toOption])
    | error fault =>
        cases before with
        | ok m => exact absurd hsame (by simp [Except.toOption])
        | error fault' => exact .inr ⟨hunder, fault, fault', rfl, rfl⟩
  · refine .inl (halike.result_eq hp hfile hbackup ?_)
    refine (hb.readText_congr h.sound hp (h.entryAt_eq hnormal hinside hapart (.inl rfl)).symm
      (fun front hfront _ => h.kinds _ fun pair hpair hon hsame => hunder ⟨hon, pair, hpair, ?_⟩)
      options.lenient).symm
    obtain ⟨hpairNormal, hpairInside⟩ := hpairs pair hpair
    rw [Path.isUnder_iff_spine
      (normalize_of_writes hpairNormal hpairInside (.inr ⟨hon, rfl⟩)) hnormal,
      ← List.append_cancel_left hsame]
    exact hfront

/-! ## Reports -/

/-- Two entries for one file, with one reason unless the file lies below a backup. -/
def SameFailure (options : WriteOptions) (pairs : List (String × List Edit))
    (a c : String × String) : Prop :=
  a.1 = c.1 ∧ (a.2 = c.2 ∨ UnderBackup options pairs a.1)

/-- What is reported about some files, each of them revised alone. -/
def failuresOf (root : Spine) (options : WriteOptions) (t : FileTree)
    (pairs : List (String × List Edit)) : List (String × String) :=
  pairs.filterMap fun pair =>
    failure? pair.1 (reviseFile (location root) options t pair.1 pair.2).result

/-- The counts that are reported of some files, each of them revised alone. -/
def countsOf (root : Spine) (options : WriteOptions) (t : FileTree)
    (pairs : List (String × List Edit)) : List (String × Nat) :=
  pairs.filterMap fun pair =>
    success? pair.1 (reviseFile (location root) options t pair.1 pair.2).result

theorem failuresOf_cons (pair : String × List Edit) (pairs : List (String × List Edit)) :
    failuresOf root options t (pair :: pairs) =
      (failure? pair.1 (reviseFile (location root) options t pair.1 pair.2).result).toList ++
        failuresOf root options t pairs := by
  rw [failuresOf, List.filterMap_cons]
  cases failure? pair.1 (reviseFile (location root) options t pair.1 pair.2).result <;> rfl

theorem countsOf_cons (pair : String × List Edit) (pairs : List (String × List Edit)) :
    countsOf root options t (pair :: pairs) =
      (success? pair.1 (reviseFile (location root) options t pair.1 pair.2).result).toList ++
        countsOf root options t pairs := by
  rw [countsOf, List.filterMap_cons]
  cases success? pair.1 (reviseFile (location root) options t pair.1 pair.2).result <;> rfl

/-- **What is reported of a list of files is what is reported of each of them.** -/
theorem Ran.report_foldl {all done : List (String × List Edit)} (h : Ran root options done b b')
    (hb : b.tree.Sound root) (hsub : done ++ pairs ⊆ all)
    (hall : ∀ pair ∈ all, Path.normalize pair.1 = pair.1 ∧ Path.escapes pair.1 = false)
    (hseparate : Separate options (done ++ pairs)) :
    (pairs.foldl (Batch.step (location root) options) b').report.files =
        b'.report.files ++ countsOf root options b.tree pairs ∧
      ∃ told, (pairs.foldl (Batch.step (location root) options) b').report.failures =
          b'.report.failures ++ told ∧
        List.Forall₂ (SameFailure options all) told (failuresOf root options b.tree pairs) := by
  induction pairs generalizing done b' with
  | nil => exact ⟨by simp [countsOf], [], by simp, .nil⟩
  | cons pair pairs ih =>
      obtain ⟨file, edits⟩ := pair
      have hsplit : done ++ (file, edits) :: pairs = (done ++ [(file, edits)]) ++ pairs := by simp
      have hin : ∀ other ∈ done, other ∈ all := fun other hm => hsub (List.mem_append_left _ hm)
      obtain ⟨hnormal, hinside⟩ := hall (file, edits) (hsub (by simp))
      have hapart : ∀ other ∈ done, ¬ options.Writes other.1 file ∧ ¬ options.Writes file other.1 :=
        fun other hm => (List.pairwise_append.mp hseparate).2.2 other hm _ List.mem_cons_self
      have hcases := h.result_cases edits hb (fun other hm => hall other (hin other hm))
        hnormal hinside hapart
      have hstep := Batch.ran_step h.sound hnormal hinside options edits
      rw [hsplit] at hsub hseparate
      obtain ⟨hfiles, told, hfailures, hsame⟩ := ih (h.trans hstep) hsub hseparate
      rw [List.foldl_cons, hfiles, hfailures, b'.report_step, failuresOf_cons, countsOf_cons]
      dsimp only
      rcases hcases with heq | ⟨⟨hon, other, hother, hunder⟩, fault, fault', hafter, hbefore⟩
      · rw [heq]
        refine ⟨by rw [List.append_assoc], _, List.append_assoc _ _ _, List.rel_append ?_ hsame⟩
        exact List.forall₂_same.mpr fun entry _ => ⟨rfl, .inl rfl⟩
      · rw [hafter, hbefore]
        exact ⟨by rw [List.append_assoc]; rfl, _, List.append_assoc _ _ _,
          .cons ⟨rfl, .inr ⟨hon, other, hin other hother, hunder⟩⟩ hsame⟩

/-- A dry run leaves the tree and so finds each file as it is alone. -/
theorem Batch.foldl_dry (hdry : options.dryRun = true) :
    (pairs.foldl (Batch.step (location root) options) b).tree = b.tree ∧
      (pairs.foldl (Batch.step (location root) options) b).report =
        ⟨b.report.failures ++ failuresOf root options b.tree pairs,
          b.report.files ++ countsOf root options b.tree pairs⟩ := by
  induction pairs generalizing b with
  | nil => exact ⟨rfl, by simp [failuresOf, countsOf]⟩
  | cons pair pairs ih =>
      have htree : (b.step (location root) options (pair.1, pair.2)).tree = b.tree := by
        rw [Batch.tree_step]
        unfold reviseFile
        dsimp only
        split
        · rfl
        · rw [if_pos (.inr hdry)]
      obtain ⟨hlast, hreport⟩ := @ih (b.step (location root) options (pair.1, pair.2))
      rw [List.foldl_cons]
      refine ⟨hlast.trans htree, hreport.trans ?_⟩
      rw [htree, Batch.report_step, failuresOf_cons, countsOf_cons, List.append_assoc,
        List.append_assoc]

/-- A file that is not refused once it can be read fares in a dry run as it does in a real one. -/
theorem result_dry (h : ∀ content,
      t.readText (locate (location root) file) options.lenient = .ok content →
      ∃ n, (reviseFile (location root) { options with dryRun := false } t file edits).result = .ok n) :
    (reviseFile (location root) { options with dryRun := true } t file edits).result =
      (reviseFile (location root) { options with dryRun := false } t file edits).result := by
  unfold reviseFile at h ⊢
  dsimp only at h ⊢
  cases hread : t.readText (locate (location root) file) options.lenient with
  | error fault => rfl
  | ok content =>
      obtain ⟨n, hn⟩ := h content hread
      rw [hread] at hn
      dsimp only at hn ⊢
      rw [if_pos (.inr rfl)]
      split at hn <;> rename_i happlied
      · rw [if_pos happlied]
      · rw [if_neg happlied]
        split at hn
        · exact absurd hn (by simp)
        · rfl

/-! ## A whole plan -/

/--
What has come of a file of a plan, told by what comes of it alone. If it is refused, it is named once
among the failures, and if no edit applies it is not named at all; in both cases it is as it was, and
so is its backup. Else it is named once with its count, and its backup, if there is one, is the file
as it was.
-/
def FaresAs (root : Spine) (options : WriteOptions) (t : FileTree) (b : Batch) (file : String) :
    Except Fault Nat → Prop
  | .error _ =>
      (b.report.failures.map (·.1)).count file = 1 ∧ file ∉ b.report.files.map (·.1) ∧
        ∀ path, options.Writes file path → b.tree.entryAt root path = t.entryAt root path
  | .ok 0 =>
      file ∉ b.report.failures.map (·.1) ∧ file ∉ b.report.files.map (·.1) ∧
        ∀ path, options.Writes file path → b.tree.entryAt root path = t.entryAt root path
  | .ok (n + 1) =>
      file ∉ b.report.failures.map (·.1) ∧
        b.report.files.filter (fun entry => entry.1 == file) = [(file, n + 1)] ∧
        (options.dryRun = false → options.backups = true →
          b.tree.entryAt root (file ++ Settings.backupEnding) = t.entryAt root file)

/-- What is reported of a list of files is, for one of them, what is reported of it. -/
theorem filter_filterMap {α : Type} {f : String × List Edit → Option (String × α)}
    (hf : ∀ pair entry, f pair = some entry → entry.1 = pair.1)
    (hdistinct : (pairs.map (·.1)).Nodup) {pair : String × List Edit} (hpair : pair ∈ pairs) :
    (pairs.filterMap f).filter (fun entry => entry.1 == pair.1) = (f pair).toList := by
  have hfirst : ∀ first : String × List Edit,
      (f first).toList.filter (fun entry => entry.1 == pair.1) =
        if first.1 = pair.1 then (f first).toList else [] := by
    intro first
    cases hentry : f first with
    | none => simp
    | some entry =>
        rw [Option.toList_some, List.filter_singleton, hf first entry hentry]
        simp
  induction pairs with
  | nil => exact absurd hpair List.not_mem_nil
  | cons first pairs ih =>
      have hcons : (first :: pairs).filterMap f = (f first).toList ++ pairs.filterMap f := by
        rw [List.filterMap_cons]
        cases f first <;> rfl
      rw [List.map_cons, List.nodup_cons] at hdistinct
      rw [hcons, List.filter_append, hfirst]
      rcases List.mem_cons.mp hpair with rfl | hpair
      · have hnone : (pairs.filterMap f).filter (fun entry => entry.1 == pair.1) = [] := by
          rw [List.filter_eq_nil_iff]
          intro entry hentry
          obtain ⟨other, hother, hsome⟩ := List.mem_filterMap.mp hentry
          rw [hf other entry hsome, beq_iff_eq]
          exact fun he => hdistinct.1 (he ▸ List.mem_map_of_mem hother)
        rw [if_pos rfl, hnone, List.append_nil]
      · have hne : first.1 ≠ pair.1 := fun he => hdistinct.1 (he ▸ List.mem_map_of_mem hpair)
        rw [if_neg hne, List.nil_append, ih hdistinct.2 hpair]

theorem count_names {α : Type} (entries : List (String × α)) (file : String) :
    (entries.map (·.1)).count file = (entries.filter fun entry => entry.1 == file).length := by
  rw [List.count, List.countP_map, List.countP_eq_length_filter]
  rfl

theorem not_mem_names {α : Type} {entries : List (String × α)} {file : String} :
    file ∉ entries.map (·.1) ↔ (entries.filter fun entry => entry.1 == file) = [] := by
  rw [← List.count_eq_zero, count_names, List.length_eq_zero_iff]

theorem distinct_files (plan : EditPlan) : (plan.toList.map (·.1)).Nodup :=
  List.pairwise_map.mpr ((Std.TreeMap.distinct_keys_toList (t := plan)).imp fun hne he =>
    hne (Std.compare_eq_iff_eq.mpr he))

variable {plan : EditPlan}

/-- What is reported of a whole plan is what is reported of each of its files. -/
theorem report_reviseAll (ht : t.Sound root)
    (hfiles : ∀ pair ∈ plan.toList, Path.normalize pair.1 = pair.1 ∧ Path.escapes pair.1 = false)
    (hseparate : Separate options plan.toList) :
    (reviseAll (location root) options t plan).report.files = countsOf root options t plan.toList ∧
      List.Forall₂ (SameFailure options plan.toList)
        (reviseAll (location root) options t plan).report.failures
        (failuresOf root options t plan.toList) := by
  have hstart : Ran root options [] (⟨t, [], .empty⟩ : Batch) ⟨t, [], .empty⟩ := .refl ht
  have hsub : [] ++ plan.toList ⊆ plan.toList := List.Subset.refl _
  obtain ⟨hcounts, told, hfailures, hsame⟩ := hstart.report_foldl ht hsub hfiles hseparate
  rw [RevisionReport.empty, List.nil_append] at hcounts hfailures
  exact ⟨hcounts, by rw [reviseAll, RevisionReport.empty, hfailures]; exact hsame⟩

/-- The files that a plan reports as refused are those that are refused alone. -/
theorem refused_reviseAll (ht : t.Sound root)
    (hfiles : ∀ pair ∈ plan.toList, Path.normalize pair.1 = pair.1 ∧ Path.escapes pair.1 = false)
    (hseparate : Separate options plan.toList) :
    (reviseAll (location root) options t plan).report.failures.map (·.1) =
      (failuresOf root options t plan.toList).map (·.1) := by
  obtain ⟨-, hfailures⟩ := report_reviseAll ht hfiles hseparate
  exact List.forall₂_eq_eq_eq ▸ (List.forall₂_map_left_iff.mpr (List.forall₂_map_right_iff.mpr
    (hfailures.imp fun _ _ h => h.1)))

/-- In the places of a file of a plan stands what stands there when it is revised alone. -/
theorem entryAt_reviseAll (ht : t.Sound root)
    (hfiles : ∀ pair ∈ plan.toList, Path.normalize pair.1 = pair.1 ∧ Path.escapes pair.1 = false)
    (hseparate : Separate options plan.toList) {pair : String × List Edit}
    (hpair : pair ∈ plan.toList) {path : String} (hpath : options.Writes pair.1 path) :
    (reviseAll (location root) options t plan).tree.entryAt root path =
      (reviseFile (location root) options t pair.1 pair.2).tree.entryAt root path := by
  obtain ⟨hnormal, hinside⟩ := hfiles pair hpair
  -- the files before this one, and those behind it
  obtain ⟨front, back, hsplit⟩ := List.append_of_mem hpair
  rw [hsplit] at hseparate hfiles
  obtain ⟨-, hrest, hcross⟩ := List.pairwise_append.mp hseparate
  obtain ⟨hfront, hbehind⟩ := List.forall_mem_append.mp hfiles
  have hstart : (⟨t, [], .empty⟩ : Batch).tree.Sound root := ht
  have hbefore := Batch.ran_foldl options hstart hfront
  have hturn := Batch.ran_step hbefore.sound hnormal hinside options pair.2
  have hafter := Batch.ran_foldl options hturn.sound
    fun other hm => hbehind other (List.mem_cons_of_mem _ hm)
  rw [reviseAll, hsplit, List.foldl_append, List.foldl_cons,
    hafter.entryAt_eq hnormal hinside
      (fun other hm => ((List.pairwise_cons.mp hrest).1 other hm).symm) hpath, Batch.tree_step]
  exact hbefore.entryAt_reviseFile hstart hnormal hinside
    (fun other hm => hcross other hm pair List.mem_cons_self) hpath

/-- **Each file of a plan fares as it does alone.** -/
theorem faresAs_reviseAll (ht : t.Sound root)
    (hfiles : ∀ pair ∈ plan.toList, Path.normalize pair.1 = pair.1 ∧ Path.escapes pair.1 = false)
    (hseparate : Separate options plan.toList) {pair : String × List Edit}
    (hpair : pair ∈ plan.toList) :
    (reviseAll (location root) options t plan).tree.entryAt root pair.1 =
        (reviseFile (location root) options t pair.1 pair.2).tree.entryAt root pair.1 ∧
      FaresAs root options t (reviseAll (location root) options t plan) pair.1
        (reviseFile (location root) options t pair.1 pair.2).result := by
  obtain ⟨hnormal, hinside⟩ := hfiles pair hpair
  obtain ⟨hcounts, -⟩ := report_reviseAll ht hfiles hseparate
  have hnames := refused_reviseAll ht hfiles hseparate
  have hplaces : ∀ path, options.Writes pair.1 path →
      (reviseAll (location root) options t plan).tree.entryAt root path =
        (reviseFile (location root) options t pair.1 pair.2).tree.entryAt root path :=
    fun _ => entryAt_reviseAll ht hfiles hseparate hpair
  have huntouched : (reviseFile (location root) options t pair.1 pair.2).tree = t →
      ∀ path, options.Writes pair.1 path →
        (reviseAll (location root) options t plan).tree.entryAt root path = t.entryAt root path :=
    fun htree path hpath => (hplaces path hpath).trans (by rw [htree])
  refine ⟨hplaces pair.1 (.inl rfl), ?_⟩
  -- how often it is named
  have hcounted := filter_filterMap (f := fun pair : String × List Edit =>
      success? pair.1 (reviseFile (location root) options t pair.1 pair.2).result)
    (fun _ _ h => name_of_success? h) (distinct_files plan) hpair
  have hfailed := filter_filterMap (f := fun pair : String × List Edit =>
      failure? pair.1 (reviseFile (location root) options t pair.1 pair.2).result)
    (fun _ _ h => name_of_failure? h) (distinct_files plan) hpair
  rw [← failuresOf] at hfailed
  rw [← countsOf] at hcounted
  cases hresult : (reviseFile (location root) options t pair.1 pair.2).result with
  | error fault =>
      rw [hresult] at hfailed hcounted
      have htree := (reviseFile_cases ht hnormal hinside options pair.2).resolve_right
        (by simp [hresult])
      refine ⟨?_, ?_, huntouched htree.1⟩
      · rw [hnames, count_names, hfailed]
        rfl
      · rw [hcounts, not_mem_names, hcounted]
        rfl
  | ok n =>
      rw [hresult] at hfailed hcounted
      have hnotFailed : pair.1 ∉
          (reviseAll (location root) options t plan).report.failures.map (·.1) := by
        rw [hnames, not_mem_names, hfailed]
        rfl
      cases n with
      | zero =>
          have htree := (reviseFile_cases ht hnormal hinside options pair.2).resolve_right
            (by simp [hresult])
          refine ⟨hnotFailed, ?_, huntouched htree.1⟩
          rw [hcounts, not_mem_names, hcounted]
          rfl
      | succ n =>
          refine ⟨hnotFailed, by rw [hcounts, hcounted]; rfl, fun hwrite hon => ?_⟩
          rcases reviseFile_cases ht hnormal hinside options pair.2 with
            ⟨-, hdry⟩ | ⟨-, -, m, text, -, hrewritten⟩
          · exact absurd (hwrite.symm.trans (hdry n hresult)) (by simp)
          · rw [hplaces _ (.inr ⟨hon, rfl⟩)]
            exact hrewritten.backup hon

/-- A dry run reports what the run would, as long as nothing is refused that can be read. -/
theorem report_dry (ht : t.Sound root)
    (hfiles : ∀ pair ∈ plan.toList, Path.normalize pair.1 = pair.1 ∧ Path.escapes pair.1 = false)
    (hseparate : Separate { options with dryRun := false } plan.toList)
    (hwell : ∀ failure ∈
        (reviseAll (location root) { options with dryRun := false } t plan).report.failures,
      ∀ content, t.readText (locate (location root) failure.1) options.lenient ≠ .ok content) :
    (reviseAll (location root) { options with dryRun := true } t plan).report.files =
        (reviseAll (location root) { options with dryRun := false } t plan).report.files ∧
      List.Forall₂ (SameFailure options plan.toList)
        (reviseAll (location root) { options with dryRun := false } t plan).report.failures
        (reviseAll (location root) { options with dryRun := true } t plan).report.failures := by
  obtain ⟨hcounts, hfailures⟩ := report_reviseAll ht hfiles hseparate
  have hsame : ∀ pair ∈ plan.toList,
      (reviseFile (location root) { options with dryRun := true } t pair.1 pair.2).result =
        (reviseFile (location root) { options with dryRun := false } t pair.1 pair.2).result := by
    intro pair hpair
    refine result_dry fun content hread => ?_
    cases hresult :
        (reviseFile (location root) { options with dryRun := false } t pair.1 pair.2).result with
    | ok n => exact ⟨n, rfl⟩
    | error fault =>
        have hfares := (faresAs_reviseAll ht hfiles hseparate hpair).2
        rw [hresult] at hfares
        have hmem := List.count_pos_iff.mp (Nat.lt_of_lt_of_eq Nat.zero_lt_one hfares.1.symm)
        obtain ⟨failure, hfailure, hname⟩ := List.mem_map.mp hmem
        exact absurd (hname ▸ hread) (hwell failure hfailure content)
  have hfailuresOf : failuresOf root { options with dryRun := true } t plan.toList =
      failuresOf root { options with dryRun := false } t plan.toList :=
    List.filterMap_congr fun pair hpair => by rw [hsame pair hpair]
  have hcountsOf : countsOf root { options with dryRun := true } t plan.toList =
      countsOf root { options with dryRun := false } t plan.toList :=
    List.filterMap_congr fun pair hpair => by rw [hsame pair hpair]
  have hdry : (reviseAll (location root) { options with dryRun := true } t plan).report =
      ⟨failuresOf root { options with dryRun := false } t plan.toList,
        countsOf root { options with dryRun := false } t plan.toList⟩ := by
    rw [reviseAll, (Batch.foldl_dry rfl).2, hfailuresOf, hcountsOf]
    rfl
  rw [hdry]
  exact ⟨hcounts.symm, hfailures⟩

/-- A tree with one file. -/
def loneFile : FileTree :=
  (FileTree.empty.put ["p"] .directory).put ["p", "a.md"]
    (.file "[x](old.md)\n".toUTF8 420)

/-- The edit of the link in it. -/
def oneEdit : Edit := ⟨10, 4, 1, "old.md", "new.md"⟩

/-- A plan for this file, and for one that would have to lie below its backup. -/
def crowded : EditPlan := (({} : EditPlan).insert "a.md" [oneEdit]).insert "a.md.linkbak/x.md" [oneEdit]

theorem toList_crowded :
    crowded.toList = [("a.md", [oneEdit]), ("a.md.linkbak/x.md", [oneEdit])] := by
  decide +kernel

theorem sound_loneFile : loneFile.Sound ["p"] :=
  sound_of_below (by decide) (by decide) (by decide +kernel) (by decide +kernel)

theorem files_crowded : (∀ pair ∈ crowded.toList,
      Path.normalize pair.1 = pair.1 ∧ Path.escapes pair.1 = false) ∧
    ∀ pair ∈ crowded.toList, ∀ other ∈ crowded.toList,
      other.1 ≠ pair.1 ++ Settings.backupEnding := by
  rw [toList_crowded]
  decide +kernel

/-- What a run with backups refuses, and why. -/
theorem failures_crowded :
    (reviseAll (location ["p"]) ⟨true, false, false⟩ loneFile crowded).report.failures =
      [("a.md.linkbak/x.md", "io: Not a directory (os error 20)")] := by
  decide +kernel

end LinkKeeper
