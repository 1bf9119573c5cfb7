import LinkKeeper.Proofs.Revising

/-!
# Trees that are alike but for some paths

Two trees may differ at a few paths and be alike at all others. Work that stays away from those
paths cannot tell them apart: it goes well in both or in neither, does the same to both, and
leaves the paths where they differ as they are. A revision reads and writes the files of its
plan and their backups, and so it is such work when none of these is a path where the trees
differ.
-/

namespace LinkKeeper

open FileTree
open Path (locate spine Proper)

namespace FileTree

variable {t u : FileTree} {root : Spine}

theorem entryAt_put (t : FileTree) (root : Spine) {place : String} (hplace : Proper place)
    (entry : Entry) {path : String} (hp : Proper path) :
    (t.put (root ++ spine place) entry).entryAt root path =
      if path = place then some entry else t.entryAt root path := by
  rw [entryAt, getElem?_put]
  by_cases h : path = place
  · rw [if_pos h, if_pos (by rw [h])]
  · rw [if_neg h, if_neg]
    · rfl
    · intro hsame
      exact h (Path.eq_of_spine_eq hp.normal hplace.normal (List.append_cancel_left hsame).symm)

/-- A look-up goes by what stands under the path, if its directory is there. -/
theorem Sound.look_congr (h : t.Sound root) (h' : u.Sound root) {path : String} (hp : Proper path)
    (hheld : t.Holds (root ++ (spine path).dropLast))
    (hheld' : u.Holds (root ++ (spine path).dropLast))
    (he : t.entryAt root path = u.entryAt root path) (follow : Bool) :
    t.look follow (locate (location root) path) = u.look follow (locate (location root) path) := by
  cases hu : u.entryAt root path with
  | none => rw [h.look_free hp hheld (he.trans hu), h'.look_free hp hheld' hu]
  | some entry => rw [h.look_some hp (he.trans hu), h'.look_some hp hu]

end FileTree

/-- Two trees that are well-formed below their root and alike but for some paths. -/
structure AlikeBut (root : Spine) (t u : FileTree) (apart : String → Prop) : Prop where
  left : t.Sound root
  right : u.Sound root
  same : ∀ path, Proper path → ¬ apart path → t.entryAt root path = u.entryAt root path

/-- What came of two trees when the same was done to both, away from the paths where they differ. -/
structure Abreast (root : Spine) (t u : FileTree) (apart : String → Prop) (t' u' : FileTree) :
    Prop where
  alike : AlikeBut root t' u' apart
  left : ∀ path, Proper path → apart path → t'.entryAt root path = t.entryAt root path
  right : ∀ path, Proper path → apart path → u'.entryAt root path = u.entryAt root path

variable {root : Spine} {t u t' u' : FileTree} {apart : String → Prop}

theorem AlikeBut.abreast (h : AlikeBut root t u apart) : Abreast root t u apart t u :=
  ⟨h, fun _ _ _ => rfl, fun _ _ _ => rfl⟩

theorem Abreast.trans {t'' u'' : FileTree} (h : Abreast root t u apart t' u')
    (h' : Abreast root t' u' apart t'' u'') : Abreast root t u apart t'' u'' :=
  ⟨h'.alike, fun path hp ha => (h'.left path hp ha).trans (h.left path hp ha),
    fun path hp ha => (h'.right path hp ha).trans (h.right path hp ha)⟩

/-! ## Questions -/

/-- Alike trees give the same text of a file. -/
theorem AlikeBut.readText (h : AlikeBut root t u apart) {path : String} (hp : Proper path)
    (hpath : ¬ apart path) (lenient : Bool) :
    (t.readText (locate (location root) path) lenient).toOption =
      (u.readText (locate (location root) path) lenient).toOption := by
  have hsame : ∀ content, t.readText (locate (location root) path) lenient = .ok content ↔
      u.readText (locate (location root) path) lenient = .ok content := by
    intro content
    rw [h.left.readText_eq_ok hp, h.right.readText_eq_ok hp, h.same path hp hpath]
  cases ht : t.readText (locate (location root) path) lenient with
  | ok content => rw [(hsame content).mp ht]
  | error fault =>
      cases hu : u.readText (locate (location root) path) lenient with
      | ok content =>
          rw [(hsame content).mpr hu] at ht
          exact absurd ht (by simp)
      | error other => rfl

/-- Where two trees have something or have nothing both, they answer alike whether it is there. -/
theorem AlikeBut.isThere (h : AlikeBut root t u apart) {path : String}
    (hn : Path.normalize path = path) (hin : Path.escapes path = false)
    (hapart : Proper path → apart path →
      t.entryAt root path ≠ none ∧ u.entryAt root path ≠ none) :
    t.isThere (locate (location root) path) = u.isThere (locate (location root) path) := by
  by_cases hempty : path = ""
  · rw [hempty, FileTree.isThere, FileTree.isThere, h.left.grounded.entry_root,
      h.right.grounded.entry_root]
  · have hp : Proper path := ⟨hn, hempty, hin⟩
    rw [Bool.eq_iff_iff, h.left.isThere_iff hp, h.right.isThere_iff hp]
    by_cases ha : apart path
    · exact iff_of_true (hapart hp ha).1 (hapart hp ha).2
    · rw [h.same path hp ha]

/-! ## Writing -/

theorem AlikeBut.put (h : AlikeBut root t u apart) {place : String} (hplace : Proper place)
    (hapart : ¬ apart place) {entry : Entry} (ht : (t.put (root ++ spine place) entry).Sound root)
    (hu : (u.put (root ++ spine place) entry).Sound root) :
    Abreast root t u apart (t.put (root ++ spine place) entry)
      (u.put (root ++ spine place) entry) := by
  have hkept : ∀ (v : FileTree) path, Proper path → apart path →
      (v.put (root ++ spine place) entry).entryAt root path = v.entryAt root path := by
    intro v path hp ha
    rw [entryAt_put v root hplace entry hp, if_neg]
    rintro rfl
    exact hapart ha
  refine ⟨⟨ht, hu, fun path hp ha => ?_⟩, hkept t, hkept u⟩
  rw [entryAt_put t root hplace entry hp, entryAt_put u root hplace entry hp, h.same path hp ha]

/-- A copy beside a file goes well in both trees or in neither. -/
theorem AlikeBut.copy (h : AlikeBut root t u apart) {file path : String} (hf : Proper file)
    (hp : Proper path) (hbeside : (spine path).dropLast = (spine file).dropLast)
    (hfile : ¬ apart file) (hpath : ¬ apart path) {content : ByteArray} {mode : Nat}
    (he : t.entryAt root file = some (.file content mode)) :
    (∃ e, t.copy (locate (location root) file) (locate (location root) path) = .error e ∧
      u.copy (locate (location root) file) (locate (location root) path) = .error e) ∨
    ∃ t' u', t.copy (locate (location root) file) (locate (location root) path) = .ok t' ∧
      u.copy (locate (location root) file) (locate (location root) path) = .ok u' ∧
      Abreast root t u apart t' u' := by
  have he' : u.entryAt root file = some (.file content mode) :=
    (h.same file hf hfile).symm.trans he
  have hheld := h.left.holds_dropLast hf.spine_ne_nil he
  have hheld' := h.right.holds_dropLast hf.spine_ne_nil he'
  rw [← hbeside] at hheld hheld'
  have hlook := h.left.look_congr h.right hp hheld hheld' (h.same path hp hpath) true
  have ht := h.left.copy_eq hp (h.left.entry_some hf he true)
  have hu := h.right.copy_eq hp (h.right.entry_some hf he' true)
  rw [← hlook] at hu
  -- what the two copies come to, if they go well
  have hboth : ∀ {t' u' : FileTree}, t'.Sound root → u'.Sound root →
      (∀ other : Spine, t'.entries[other]? =
        if root ++ spine path = other then some (.file content mode) else t.entries[other]?) →
      (∀ other : Spine, u'.entries[other]? =
        if root ++ spine path = other then some (.file content mode) else u.entries[other]?) →
      Abreast root t u apart t' u' := by
    intro t' u' hst hsu hentries hentries'
    have hkept : ∀ {v v' : FileTree}, (∀ other : Spine, v'.entries[other]? =
        if root ++ spine path = other then some (.file content mode) else v.entries[other]?) →
        ∀ other, Proper other → apart other → v'.entryAt root other = v.entryAt root other := by
      intro v v' hv other hother ha
      rw [entryAt, hv, if_neg]
      · rfl
      · intro hsame
        exact hpath (Path.eq_of_spine_eq hp.normal hother.normal
          (List.append_cancel_left hsame) ▸ ha)
    refine ⟨⟨hst, hsu, fun other hother ha => ?_⟩, hkept hentries, hkept hentries'⟩
    rw [entryAt, entryAt, hentries, hentries']
    split
    · rfl
    · exact h.same other hother ha
  generalize t.look true (locate (location root) path) = spot at ht hu
  rcases spot with e | ⟨found, _ | ⟨old, kept⟩ | target⟩ | free
  · exact .inl ⟨_, ht, hu⟩
  · exact .inl ⟨_, ht, hu⟩
  · obtain ⟨t', ht, hst, hentries⟩ := ht
    obtain ⟨u', hu, hsu, hentries'⟩ := hu
    exact .inr ⟨t', u', ht, hu, hboth hst hsu hentries hentries'⟩
  · exact .inl ⟨_, ht, hu⟩
  · obtain ⟨t', ht, hst, hentries⟩ := ht
    obtain ⟨u', hu, hsu, hentries'⟩ := hu
    exact .inr ⟨t', u', ht, hu, hboth hst hsu hentries hentries'⟩

/-- A text is put in the place of a file in both trees or in neither. -/
theorem AlikeBut.replaceText (h : AlikeBut root t u apart) (options : WriteOptions)
    {file text : String} (hp : Proper file) (hfile : ¬ apart file)
    (hbackup : options.backups = true → ¬ apart (file ++ Settings.backupEnding))
    {old : ByteArray} {mode : Nat} (he : t.entryAt root file = some (.file old mode)) :
    Abreast root t u apart (t.replaceText options (locate (location root) file) text).1
      (u.replaceText options (locate (location root) file) text).1 ∧
    (t.replaceText options (locate (location root) file) text).2 =
      (u.replaceText options (locate (location root) file) text).2 := by
  obtain ⟨hback, hne, -, hbeside⟩ := hp.backup
  -- once the backup is made, if there is to be one, the file is replaced
  have hreplace : ∀ {t' u' : FileTree}, Abreast root t u apart t' u' →
      t'.entryAt root file = some (.file old mode) →
      ∃ t'' u'', t'.replace (locate (location root) file) text.toUTF8 = .ok t'' ∧
        u'.replace (locate (location root) file) text.toUTF8 = .ok u'' ∧
        Abreast root t u apart t'' u'' := by
    intro t' u' hab ht
    have hu : u'.entryAt root file = some (.file old mode) :=
      (hab.alike.same file hp hfile).symm.trans ht
    exact ⟨_, _, hab.alike.left.replace_file hp ht _, hab.alike.right.replace_file hp hu _,
      hab.trans (hab.alike.put hp hfile (hab.alike.left.sound_replaced hp ht _)
        (hab.alike.right.sound_replaced hp hu _))⟩
  unfold FileTree.replaceText
  cases hb : options.backups with
  | false =>
      obtain ⟨t'', u'', ht'', hu'', hlast⟩ := hreplace h.abreast he
      rw [if_neg Bool.false_ne_true, if_neg Bool.false_ne_true]
      dsimp only
      rw [ht'', hu'']
      exact ⟨hlast, rfl⟩
  | true =>
      rw [if_pos rfl, if_pos rfl, ← locate_append root hp _ hback.isAbsolute]
      rcases h.copy hp hback hbeside hfile (hbackup hb) he with
        ⟨e, ht, hu⟩ | ⟨t', u', ht, hu, hab⟩
      · rw [ht, hu]
        exact ⟨h.abreast, rfl⟩
      · rw [ht, hu]
        have hthere : t'.entryAt root file = some (.file old mode) := by
          obtain ⟨-, -, content, kept, hentries⟩ := h.left.of_copy hback ht
          rw [entryAt, hentries, if_neg]
          · exact he
          · intro hsame
            exact hne (Path.eq_of_spine_eq hback.normal hp.normal (List.append_cancel_left hsame))
        obtain ⟨t'', u'', ht'', hu'', hlast⟩ := hreplace hab hthere
        dsimp only
        rw [ht'', hu'']
        exact ⟨hlast, rfl⟩

/-! ## A plan -/

/-- **A file is revised in both trees in the same way.** -/
theorem AlikeBut.reviseFile (h : AlikeBut root t u apart) (options : WriteOptions) {file : String}
    (hp : Proper file) (hfile : ¬ apart file)
    (hbackup : options.backups = true → ¬ apart (file ++ Settings.backupEnding))
    (edits : List Edit) :
    Abreast root t u apart (reviseFile (location root) options t file edits).tree
      (reviseFile (location root) options u file edits).tree ∧
    (reviseFile (location root) options t file edits).result.toOption =
      (reviseFile (location root) options u file edits).result.toOption := by
  have hread := h.readText hp hfile options.lenient
  unfold LinkKeeper.reviseFile
  dsimp only
  cases ht : t.readText (locate (location root) file) options.lenient with
  | error fault =>
      cases hu : u.readText (locate (location root) file) options.lenient with
      | error other => exact ⟨h.abreast, rfl⟩
      | ok content =>
          rw [ht, hu] at hread
          exact absurd hread (by simp [Except.toOption])
  | ok content =>
      cases hu : u.readText (locate (location root) file) options.lenient with
      | error other =>
          rw [ht, hu] at hread
          exact absurd hread (by simp [Except.toOption])
      | ok other =>
          rw [ht, hu] at hread
          obtain rfl : content = other := Option.some.inj hread
          obtain ⟨bytes, mode, he, -⟩ := (h.left.readText_eq_ok hp).mp ht
          dsimp only
          split
          · exact ⟨h.abreast, rfl⟩
          · obtain ⟨hab, hresult⟩ := h.replaceText options hp hfile hbackup he
            generalize t.replaceText options (locate (location root) file) _ = first at hab hresult ⊢
            generalize u.replaceText options (locate (location root) file) _ = second
              at hab hresult ⊢
            obtain ⟨t', e⟩ := first
            obtain ⟨u', e'⟩ := second
            obtain rfl : e = e' := hresult
            cases e with
            | none => exact ⟨hab, rfl⟩
            | some e => exact ⟨hab, rfl⟩

theorem AlikeBut.step {b c : Batch} (h : AlikeBut root b.tree c.tree apart)
    (hfiles : b.report.files = c.report.files) (options : WriteOptions) {file : String}
    (hp : Proper file) (hfile : ¬ apart file)
    (hbackup : options.backups = true → ¬ apart (file ++ Settings.backupEnding))
    (edits : List Edit) :
    Abreast root b.tree c.tree apart (b.step (location root) options (file, edits)).tree
      (c.step (location root) options (file, edits)).tree ∧
    (b.step (location root) options (file, edits)).report.files =
      (c.step (location root) options (file, edits)).report.files := by
  obtain ⟨hab, hresult⟩ := h.reviseFile options hp hfile hbackup edits
  unfold Batch.step
  dsimp only
  generalize LinkKeeper.reviseFile (location root) options b.tree file edits = first
    at hab hresult ⊢
  generalize LinkKeeper.reviseFile (location root) options c.tree file edits = second
    at hab hresult ⊢
  cases hf : first.result with
  | error fault =>
      cases hs : second.result with
      | error other => exact ⟨hab, hfiles⟩
      | ok n =>
          rw [hf, hs] at hresult
          exact absurd hresult (by simp [Except.toOption])
  | ok n =>
      cases hs : second.result with
      | error other =>
          rw [hf, hs] at hresult
          exact absurd hresult (by simp [Except.toOption])
      | ok m =>
          rw [hf, hs] at hresult
          obtain rfl : n = m := Option.some.inj hresult
          cases n with
          | zero => exact ⟨hab, hfiles⟩
          | succ n => exact ⟨hab, by simp [hfiles]⟩

/-- **A plan that stays away from where two trees differ does the same to both.** -/
theorem AlikeBut.reviseAll (h : AlikeBut root t u apart) (options : WriteOptions) {plan : EditPlan}
    (hplan : ∀ pair ∈ plan.toList, Proper pair.1 ∧ ¬ apart pair.1 ∧
      (options.backups = true → ¬ apart (pair.1 ++ Settings.backupEnding))) :
    Abreast root t u apart (reviseAll (location root) options t plan).tree
      (reviseAll (location root) options u plan).tree ∧
    (reviseAll (location root) options t plan).report.files =
      (reviseAll (location root) options u plan).report.files := by
  have hfold : ∀ (pairs : List (String × List Edit)) (b c : Batch),
      (∀ pair ∈ pairs, Proper pair.1 ∧ ¬ apart pair.1 ∧
        (options.backups = true → ¬ apart (pair.1 ++ Settings.backupEnding))) →
      Abreast root t u apart b.tree c.tree → b.report.files = c.report.files →
      Abreast root t u apart (pairs.foldl (Batch.step (location root) options) b).tree
        (pairs.foldl (Batch.step (location root) options) c).tree ∧
      (pairs.foldl (Batch.step (location root) options) b).report.files =
        (pairs.foldl (Batch.step (location root) options) c).report.files := by
    intro pairs
    induction pairs with
    | nil => exact fun b c _ hab hfiles => ⟨hab, hfiles⟩
    | cons pair pairs ih =>
        intro b c hpairs hab hfiles
        obtain ⟨hp, hfile, hbackup⟩ := hpairs pair List.mem_cons_self
        obtain ⟨hnext, hsame⟩ := hab.alike.step hfiles options hp hfile hbackup pair.2
        exact ih _ _ (fun other hm => hpairs other (List.mem_cons_of_mem _ hm)) (hab.trans hnext)
          hsame
  exact hfold plan.toList ⟨t, [], .empty⟩ ⟨u, [], .empty⟩ hplan h.abreast rfl

end LinkKeeper
