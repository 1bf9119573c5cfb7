import LinkKeeper.Proofs.Batches

/-!
# A file when its turn comes

The files of a plan are revised one after the other, and a file may stand where the backup of another
one goes. By the time its turn comes it is not what it was. Here that is allowed: of every other file
of the plan it is shown that at its turn it stands as at the beginning, and in the end as its turn has
left it. So what a report says of such a file is what came of its turn, and a dry run says the same.
-/

namespace LinkKeeper

open FileTree
open Path (locate spine Proper)

/-- Whether a path is the backup of a file that a report names. -/
def RevisionReport.BackedUp (report : RevisionReport) (options : WriteOptions) (path : String) :
    Prop :=
  options.backups = true ∧ ∃ named ∈ report.files, path = named.1 ++ Settings.backupEnding

variable {root : Spine} {t : FileTree} {options : WriteOptions} {file content : String}
  {edits : List Edit} {plan : EditPlan} {pairs : List (String × List Edit)} {b b' : Batch}

/-! ## Before and behind its turn -/

/-- Other files leave a file alone, unless it is the backup of one that has been revised. -/
theorem Ran.entryAt_other (h : Ran root options pairs b b') (hp : Proper file)
    (hother : ∀ pair ∈ pairs, pair.1 ≠ file) (hnot : ¬ b'.report.BackedUp options file) :
    b'.tree.entryAt root file = b.tree.entryAt root file := by
  obtain ⟨more, hmore, hnames, hsame⟩ := h.files
  refine hsame _ fun revised hr => ?_
  rintro ⟨path, hwrites, he⟩
  obtain ⟨hrevised, pair, hpair, hname⟩ := hnames revised hr
  obtain rfl := Path.eq_of_spine_eq hp.normal
    (normalize_of_writes hrevised.normal hrevised.inside hwrites) (List.append_cancel_left he)
  rcases hwrites with rfl | ⟨hon, rfl⟩
  · exact hother pair hpair hname
  · exact hnot ⟨hon, revised, by rw [hmore]; exact List.mem_append_right _ hr, rfl⟩

/-- What a report says of a file it says from its turn on. -/
theorem Ran.mem_files_iff (h : Ran root options pairs b b')
    (hother : ∀ pair ∈ pairs, pair.1 ≠ file) {n : Nat} :
    (file, n) ∈ b'.report.files ↔ (file, n) ∈ b.report.files := by
  obtain ⟨more, hmore, hnames, -⟩ := h.files
  rw [hmore, List.mem_append, or_iff_left]
  intro hmem
  obtain ⟨-, pair, hpair, hname⟩ := hnames _ hmem
  exact hother pair hpair hname

theorem Ran.backedUp (h : Ran root options pairs b b') (hb : b.report.BackedUp options file) :
    b'.report.BackedUp options file := by
  obtain ⟨hon, named, hnamed, he⟩ := hb
  obtain ⟨more, hmore, -⟩ := h.files
  exact ⟨hon, named, by rw [hmore]; exact List.mem_append_left _ hnamed, he⟩

theorem Batch.ran_proper (options : WriteOptions) (hb : b.tree.Sound root)
    (hpairs : ∀ pair ∈ pairs, Proper pair.1) :
    Ran root options pairs b (pairs.foldl (Batch.step (location root) options) b) :=
  Batch.ran_foldl options hb fun pair hm => ⟨(hpairs pair hm).normal, (hpairs pair hm).inside⟩

/-- A report names only files of the plan. -/
theorem exists_pair_of_named (ht : t.Sound root) (hfiles : ∀ pair ∈ plan.toList, Proper pair.1)
    {n : Nat} (hnamed : (file, n) ∈ (reviseAll (location root) options t plan).report.files) :
    ∃ edits, (file, edits) ∈ plan.toList := by
  obtain ⟨more, hmore, hnames, -⟩ :=
    (Batch.ran_proper options (b := ⟨t, [], .empty⟩) ht hfiles).files
  rw [reviseAll, hmore, RevisionReport.empty, List.nil_append] at hnamed
  obtain ⟨-, ⟨other, edits⟩, hpair, rfl : other = file⟩ := hnames _ hnamed
  exact ⟨edits, hpair⟩

/-- A tree in which a file has its turn, and what has come of that in the end. -/
structure Turn (root : Spine) (options : WriteOptions) (t u : FileTree) (done : Batch)
    (file : String) (edits : List Edit) : Prop where
  sound : u.Sound root
  before : u.entryAt root file = t.entryAt root file
  behind : done.tree.entryAt root file =
    (reviseFile (location root) options u file edits).tree.entryAt root file
  named : ∀ n, (file, n) ∈ done.report.files ↔
    success? file (reviseFile (location root) options u file edits).result = some (file, n)
  failed : ∀ fault, (reviseFile (location root) options u file edits).result = .error fault →
    (file, fault.message) ∈ done.report.failures

/-- **A file that is no backup has its turn as if it were the first one, and the last.** -/
theorem exists_turn (ht : t.Sound root) (hfiles : ∀ pair ∈ plan.toList, Proper pair.1)
    (hpair : (file, edits) ∈ plan.toList)
    (hnot : ¬ (reviseAll (location root) options t plan).report.BackedUp options file) :
    ∃ u, Turn root options t u (reviseAll (location root) options t plan) file edits := by
  have hp := hfiles _ hpair
  -- the files before this one, and those behind it, are other ones
  obtain ⟨front, back, hsplit⟩ := List.append_of_mem hpair
  have hdistinct := distinct_files plan
  rw [hsplit, List.map_append, List.map_cons, List.nodup_append] at hdistinct
  obtain ⟨-, hrest, hapart⟩ := hdistinct
  have hfront : ∀ pair ∈ front, pair.1 ≠ file := fun pair hm =>
    hapart _ (List.mem_map_of_mem hm) _ List.mem_cons_self
  have hback : ∀ pair ∈ back, pair.1 ≠ file := fun pair hm he =>
    (List.nodup_cons.mp hrest).1 (List.mem_map.mpr ⟨pair, hm, he⟩)
  rw [hsplit] at hfiles
  obtain ⟨hfrontFiles, hbackFiles⟩ := List.forall_mem_append.mp hfiles
  have hbefore := Batch.ran_proper options (b := ⟨t, [], .empty⟩) ht hfrontFiles
  have hturn := Batch.ran_step hbefore.sound hp.normal hp.inside options edits
  have hbehind := Batch.ran_proper options hturn.sound
    fun pair hm => hbackFiles pair (List.mem_cons_of_mem _ hm)
  have hreport := Batch.report_step (front.foldl (Batch.step (location root) options)
    ⟨t, [], .empty⟩) (location root) options file edits
  rw [reviseAll, hsplit, List.foldl_append, List.foldl_cons] at hnot ⊢
  have hnotFront : ¬ ∃ n, (file, n) ∈
      (front.foldl (Batch.step (location root) options) ⟨t, [], .empty⟩).report.files := by
    rintro ⟨n, hmem⟩
    exact absurd ((hbefore.mem_files_iff hfront).mp hmem) List.not_mem_nil
  refine ⟨_, hbefore.sound,
    hbefore.entryAt_other hp hfront fun hb => hnot (hbehind.backedUp (hturn.backedUp hb)),
    ?_, fun n => ?_, fun fault hfault => ?_⟩
  · rw [hbehind.entryAt_other hp hback hnot, Batch.tree_step]
  · rw [hbehind.mem_files_iff hback, hreport, List.mem_append, Option.mem_toList,
      or_iff_right fun hmem => hnotFront ⟨n, hmem⟩]
  · refine (Batch.failures_foldl root options _ back).mem ?_
    rw [hreport, hfault]
    exact List.mem_append_right _ (List.mem_singleton_self _)

/-! ## What its turn comes to -/

/-- A file that cannot be read cannot be revised. -/
theorem reviseFile_unreadable
    (hread : ∀ content, ¬ ReadsAs root t options.lenient file content) :
    ∃ fault, (reviseFile (location root) options t file edits).result = .error fault := by
  unfold reviseFile
  dsimp only
  cases htext : t.readText (locate (location root) file) options.lenient with
  | error fault => exact ⟨fault, rfl⟩
  | ok content => exact absurd htext (hread content)

/-- A file that can be read is refused, or counts its edits and is rewritten if there are any. -/
theorem ReadsAs.reviseFile_cases (h : ReadsAs root t options.lenient file content)
    (ht : t.Sound root) (hp : Proper file) (hwrite : options.dryRun = false)
    (edits : List Edit) :
    (∃ fault, (LinkKeeper.reviseFile (location root) options t file edits).result = .error fault) ∨
    (LinkKeeper.reviseFile (location root) options t file edits).result =
        .ok (Edit.splice content edits).applied ∧
      ((Edit.splice content edits).applied ≠ 0 →
        Rewritten root options t (LinkKeeper.reviseFile (location root) options t file edits).tree file
          (Edit.splice content edits).text) := by
  have hread : t.readText (locate (location root) file) options.lenient = .ok content := h
  obtain ⟨bytes, mode, he, -⟩ := (ht.readText_eq_ok hp).mp hread
  unfold LinkKeeper.reviseFile
  dsimp only
  rw [hread]
  dsimp only
  by_cases hzero : (Edit.splice content edits).applied = 0
  · rw [if_pos (.inl hzero)]
    exact .inr ⟨rfl, absurd hzero⟩
  · rw [if_neg (by simp [hzero, hwrite])]
    rcases ht.replaceText_cases options (Edit.splice content edits).text hp he with
      ⟨e, hrefused⟩ | ⟨after, hdone, hrewritten⟩
    · rw [hrefused]
      exact .inl ⟨_, rfl⟩
    · rw [hdone]
      exact .inr ⟨rfl, fun _ => hrewritten⟩

theorem Turn.readsAs_iff {u : FileTree} {done : Batch} (h : Turn root options t u done file edits)
    (ht : t.Sound root) (hp : Proper file) :
    ReadsAs root u options.lenient file content ↔ ReadsAs root t options.lenient file content :=
  ⟨fun hread => hread.congr h.sound ht hp hp h.before.symm,
    fun hread => hread.congr ht h.sound hp hp h.before⟩

/-- **A file that a report names could be read, and has been spliced.** -/
theorem exists_content_of_named (ht : t.Sound root)
    (hfiles : ∀ pair ∈ plan.toList, Proper pair.1) (hwrite : options.dryRun = false) {n : Nat}
    (hnamed : (file, n) ∈ (reviseAll (location root) options t plan).report.files)
    (hnot : ¬ (reviseAll (location root) options t plan).report.BackedUp options file) :
    Proper file ∧ plan.edits file ≠ [] ∧ ∃ bytes mode content,
      t.entryAt root file = some (.file bytes mode) ∧
      asText? options.lenient bytes = some content ∧
      n = (Edit.splice content (plan.edits file)).applied ∧
      (reviseAll (location root) options t plan).tree.entryAt root file =
        some (.file (Edit.splice content (plan.edits file)).text.toUTF8 mode) := by
  obtain ⟨edits, hpair⟩ := exists_pair_of_named ht hfiles hnamed
  have hp := hfiles _ hpair
  have hedits : plan.edits file = edits := by
    rw [EditPlan.edits, Std.TreeMap.mem_toList_iff_getElem?_eq_some.mp hpair]
    rfl
  obtain ⟨u, hturn⟩ := exists_turn ht hfiles hpair hnot
  have hsuccess := (hturn.named n).mp hnamed
  have hread : ∃ content, ReadsAs root u options.lenient file content := by
    by_contra hnone
    obtain ⟨fault, hfault⟩ : ∃ fault,
        (reviseFile (location root) options u file edits).result = .error fault :=
      reviseFile_unreadable (not_exists.mp hnone)
    rw [hfault] at hsuccess
    exact absurd hsuccess (by simp [success?])
  obtain ⟨content, hread⟩ := hread
  rcases hread.reviseFile_cases hturn.sound hp hwrite edits with ⟨fault, hfault⟩ | ⟨hok, hrewritten⟩
  · rw [hfault] at hsuccess
    exact absurd hsuccess (by simp [success?])
  · rw [hok] at hsuccess
    cases happlied : (Edit.splice content edits).applied with
    | zero =>
        rw [happlied] at hsuccess
        exact absurd hsuccess (by simp [success?])
    | succ m =>
        rw [happlied] at hsuccess
        have hcount : m + 1 = n := congrArg Prod.snd (Option.some.inj hsuccess)
        obtain ⟨old, mode, hold, hnew⟩ := (hrewritten (by simp [happlied])).content
        obtain ⟨bytes, kept, he, htext⟩ :=
          (ht.readText_eq_ok hp).mp ((hturn.readsAs_iff ht hp).mp hread)
        rw [hturn.before, he] at hold
        obtain ⟨rfl, rfl⟩ := Entry.file.inj (Option.some.inj hold)
        rw [hedits]
        refine ⟨hp, ?_, bytes, kept, content, he, htext, by rw [happlied, hcount],
          hturn.behind.trans hnew⟩
        rintro rfl
        exact absurd happlied (by simp [Edit.splice, Edit.ordered, Edit.distinct])

/--
**Of a file that is no backup a dry run says what the run does**, if nothing that can be read is
refused.
-/
theorem mem_files_dry_iff (ht : t.Sound root) (hfiles : ∀ pair ∈ plan.toList, Proper pair.1)
    (hwell : ∀ failure ∈
        (reviseAll (location root) { options with dryRun := false } t plan).report.failures,
      ∀ content, ¬ ReadsAs root t options.lenient failure.1 content)
    (hnot : ¬ (reviseAll (location root) { options with dryRun := false } t plan).report.BackedUp
      { options with dryRun := false } file) {n : Nat} :
    (file, n) ∈ (reviseAll (location root) { options with dryRun := true } t plan).report.files ↔
      (file, n) ∈
        (reviseAll (location root) { options with dryRun := false } t plan).report.files := by
  have hdry : (reviseAll (location root) { options with dryRun := true } t plan).report.files =
      countsOf root { options with dryRun := true } t plan.toList := by
    rw [reviseAll, (Batch.foldl_dry rfl).2]
    rfl
  rw [hdry, countsOf, List.mem_filterMap]
  -- both say what a revision comes to, in the tree at the beginning and at the turn
  have hsame : ∀ edits, (file, edits) ∈ plan.toList →
      (success? file (reviseFile (location root) { options with dryRun := true } t file
        edits).result = some (file, n) ↔
      (file, n) ∈
        (reviseAll (location root) { options with dryRun := false } t plan).report.files) := by
    intro edits hpair
    have hp := hfiles _ hpair
    obtain ⟨u, hturn⟩ := exists_turn ht hfiles hpair hnot
    rw [hturn.named]
    by_cases hread : ∃ content, ReadsAs root t options.lenient file content
    · obtain ⟨content, hread⟩ := hread
      have htext : t.readText (locate (location root) file) options.lenient = .ok content := hread
      have hdryResult : (reviseFile (location root) { options with dryRun := true } t file
          edits).result = .ok (Edit.splice content edits).applied := by
        unfold reviseFile
        dsimp only
        rw [htext]
        dsimp only
        rw [if_pos (.inr rfl)]
      rcases ((hturn.readsAs_iff ht hp).mpr hread).reviseFile_cases hturn.sound hp rfl edits with
        ⟨fault, hfault⟩ | ⟨hok, -⟩
      · exact absurd hread (hwell _ (hturn.failed fault hfault) content)
      · rw [hok, hdryResult]
    · have hnone := not_exists.mp hread
      obtain ⟨fault, hfault⟩ : ∃ fault, (reviseFile (location root)
          { options with dryRun := true } t file edits).result = .error fault :=
        reviseFile_unreadable hnone
      obtain ⟨fault', hfault'⟩ : ∃ fault, (reviseFile (location root)
          { options with dryRun := false } u file edits).result = .error fault :=
        reviseFile_unreadable fun content hu => hnone content ((hturn.readsAs_iff ht hp).mp hu)
      rw [hfault, hfault']
      exact Iff.rfl
  constructor
  · rintro ⟨⟨other, edits⟩, hpair, hsuccess⟩
    obtain rfl : file = other := name_of_success? hsuccess
    exact (hsame edits hpair).mp hsuccess
  · intro hmem
    obtain ⟨edits, hpair⟩ := exists_pair_of_named ht hfiles hmem
    exact ⟨_, hpair, (hsame edits hpair).mpr hmem⟩

end LinkKeeper
