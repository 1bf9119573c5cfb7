import LinkKeeper.Proofs.Trees

/-!
# Changes of a tree

Whoever works in a tree creates, deletes, rewrites and moves. `TreeStep` says what the tree
looks like after each operation that is reported, in terms of the tree before. What a
change did not touch it left alone, and that is what lets the index be brought in step
by looking at the touched paths only.
-/

namespace LinkKeeper

namespace FileTree

variable {t : FileTree} {root : Spine}

/-! ## Subtrees dropped and put elsewhere -/

theorem getElem?_prune (t : FileTree) (place other : Spine) :
    (t.prune place).entries[other]? = if place <+: other then none else t.entries[other]? := by
  rw [prune, Std.TreeMap.getElem?_filter']
  by_cases h : place <+: other
  · have hp : place.isPrefixOf other = true := List.isPrefixOf_iff_prefix.mpr h
    rw [if_pos h, hp]
    cases t.entries[other]? <;> rfl
  · have hp : place.isPrefixOf other = false := by
      rw [← Bool.not_eq_true, List.isPrefixOf_iff_prefix]
      exact h
    rw [if_neg h, hp]
    cases t.entries[other]? <;> rfl

/-- Entries inserted one after the other, of which no two are for one place with different content. -/
theorem getElem?_foldl_insert {pairs : List (Spine × Entry)} {found : Spine → Option Entry}
    (hf : ∀ place entry, (place, entry) ∈ pairs → found place = some entry)
    (entries : Std.TreeMap Spine Entry) (other : Spine) :
    (pairs.foldl (fun entries (place, entry) => entries.insert place entry) entries)[other]? =
      if other ∈ pairs.map (·.1) then found other else entries[other]? := by
  induction pairs generalizing entries with
  | nil => simp
  | cons pair pairs ih =>
      obtain ⟨place, entry⟩ := pair
      rw [List.foldl_cons, ih fun p e hm => hf p e (List.mem_cons_of_mem _ hm)]
      rw [List.map_cons]
      dsimp only
      by_cases hm : other ∈ pairs.map (·.1)
      · rw [if_pos hm, if_pos (List.mem_cons_of_mem _ hm)]
      · rw [if_neg hm, Std.TreeMap.getElem?_insert]
        simp only [Std.compare_eq_iff_eq]
        by_cases ho : place = other
        · subst ho
          rw [if_pos rfl, if_pos (List.mem_cons_self ..)]
          exact (hf place entry (List.mem_cons_self ..)).symm
        · rw [if_neg ho, if_neg]
          intro hmem
          rcases List.mem_cons.mp hmem with he | hmem
          · exact ho he.symm
          · exact hm hmem

/-- What stands under a name that has moved stood under the old one; at the old place nothing is left. -/
theorem getElem?_graft (t : FileTree) (source target other : Spine) :
    (t.graft source target).entries[other]? =
      match target.isPrefixOf? other with
      | some rest => t.entries[source ++ rest]?
      | none => if source <+: other then none else t.entries[other]? := by
  have hmem : ∀ place entry, (place, entry) ∈ (t.entries.toList.filterMap fun (spine, entry) =>
      (source.isPrefixOf? spine).map fun rest => (target ++ rest, entry)) ↔
      ∃ more, place = target ++ more ∧ t.entries[source ++ more]? = some entry := by
    intro place entry
    rw [List.mem_filterMap]
    constructor
    · rintro ⟨⟨spine, e⟩, hin, hm⟩
      obtain ⟨more, hmore, heq⟩ := Option.map_eq_some_iff.mp hm
      obtain ⟨rfl, rfl⟩ := Prod.mk.inj heq
      rw [Text.isPrefixOf?_eq_some] at hmore
      rw [Std.TreeMap.mem_toList_iff_getElem?_eq_some] at hin
      exact ⟨more, rfl, hmore ▸ hin⟩
    · rintro ⟨more, rfl, he⟩
      refine ⟨(source ++ more, entry), Std.TreeMap.mem_toList_iff_getElem?_eq_some.mpr he, ?_⟩
      have hp : source.isPrefixOf? (source ++ more) = some more := Text.isPrefixOf?_eq_some.mpr rfl
      simp [hp]
  have hf : ∀ place entry, (place, entry) ∈ (t.entries.toList.filterMap fun (spine, entry) =>
      (source.isPrefixOf? spine).map fun rest => (target ++ rest, entry)) →
      ((target.isPrefixOf? place).bind fun more => t.entries[source ++ more]?) = some entry := by
    intro place entry hin
    obtain ⟨more, rfl, he⟩ := (hmem place entry).mp hin
    have hp : target.isPrefixOf? (target ++ more) = some more := Text.isPrefixOf?_eq_some.mpr rfl
    rw [hp]
    exact he
  rw [graft, getElem?_foldl_insert hf, getElem?_prune, getElem?_prune]
  cases hp : target.isPrefixOf? other with
  | some rest =>
      have hother := Text.isPrefixOf?_eq_some.mp hp
      have htarget : target <+: other := ⟨rest, hother.symm⟩
      rw [if_pos htarget]
      dsimp only [Option.bind_some]
      split
      · rfl
      · rename_i hnot
        cases he : t.entries[source ++ rest]? with
        | none => rfl
        | some entry =>
            exact absurd (List.mem_map.mpr ⟨_, (hmem other entry).mpr ⟨rest, hother, he⟩, rfl⟩) hnot
  | none =>
      have hpre : ¬ target <+: other := by
        rintro ⟨rest, hrest⟩
        rw [Text.isPrefixOf?_eq_some.mpr hrest.symm] at hp
        exact absurd hp (by simp)
      dsimp only
      rw [if_neg hpre, if_neg]
      intro hin
      obtain ⟨⟨place, entry⟩, hpair, rfl⟩ := List.mem_map.mp hin
      obtain ⟨more, hmore, _⟩ := (hmem place entry).mp hpair
      exact hpre ⟨more, hmore.symm⟩

/-! ## Moves -/

open Path (locate spine Proper)

/-- Nothing stands below what is no directory. -/
theorem Sound.below_none (h : t.Sound root) {place more : Spine}
    (hplace : t.entries[root ++ place]? ≠ some .directory) (hne : place ≠ [])
    (hmore : more ≠ []) : t.entries[root ++ (place ++ more)]? = none := by
  cases he : t.entries[root ++ (place ++ more)]? with
  | none => rfl
  | some entry =>
      rcases holds_above h.held he hmore with hnil | hdir
      · exact absurd hnil (by simp [hne])
      · exact absurd hdir hplace

/-- A move that is not refused puts the entry, with all below it, at the new place. -/
theorem Sound.of_rename (h : t.Sound root) {source target : String} (hs : Proper source)
    (ht : Proper target) {entry : Entry} (he : t.entryAt root source = some entry)
    {moved : FileTree}
    (hm : t.rename (locate (location root) source) (locate (location root) target) = .ok moved) :
    (source = target ∧ moved = t) ∨
    (moved = t.graft (root ++ spine source) (root ++ spine target) ∧
      (∀ old, t.entryAt root target = some old →
        t.replaceError? entry (root ++ spine target) old = none) ∧
      (entry.isDirectory = true → ¬ spine source <+: spine target) ∧ source ≠ target) := by
  have hinto : ¬ (entry.isDirectory ∧ (root ++ spine source).isPrefixOf (root ++ spine target)) →
      entry.isDirectory = true → ¬ spine source <+: spine target := by
    intro hnot hdir hpre
    refine hnot ⟨hdir, ?_⟩
    rw [List.isPrefixOf_iff_prefix, List.prefix_append_right_inj]
    exact hpre
  rw [rename, h.entry_some hs he] at hm
  dsimp only [bind, Except.bind] at hm
  cases hlook : t.look false (locate (location root) target) with
  | error e => simp [hlook] at hm
  | ok spot =>
      rw [hlook] at hm
      dsimp only at hm
      cases spot with
      | vacant place =>
          obtain ⟨rfl, -⟩ := h.sound_vacant ht hlook ByteArray.empty 0
          have hnone : t.entryAt root target = none := by
            cases ho : t.entryAt root target with
            | none => rfl
            | some old =>
                rw [h.look_some ht ho] at hlook
                exact absurd hlook (by simp)
          dsimp only at hm
          split at hm
          · exact absurd hm (by simp [throw, throwThe, MonadExceptOf.throw])
          · rename_i hnot
            refine .inr ⟨(Except.ok.inj hm).symm, fun old ho => ?_, hinto hnot, ?_⟩
            · rw [hnone] at ho
              exact absurd ho (by simp)
            · rintro rfl
              rw [hnone] at he
              exact absurd he (by simp)
      | found place old =>
          have hfound : t.entryAt root target = some old ∧ place = root ++ spine target := by
            cases ho : t.entryAt root target with
            | none => exact absurd hlook (h.look_none ht ho false place old)
            | some other =>
                rw [h.look_some ht ho] at hlook
                simp_all
          obtain ⟨ho, rfl⟩ := hfound
          dsimp only at hm
          split at hm
          · rename_i hsame
            have hpath : source = target :=
              Path.eq_of_spine_eq hs.normal ht.normal (List.append_cancel_left hsame).symm
            exact .inl ⟨hpath, (Except.ok.inj hm).symm⟩
          · rename_i hother
            split at hm
            · exact absurd hm (by simp [throw, throwThe, MonadExceptOf.throw])
            · rename_i hnot
              split at hm
              · exact absurd hm (by simp [throw, throwThe, MonadExceptOf.throw])
              · split at hm
                · exact absurd hm (by simp [throw, throwThe, MonadExceptOf.throw])
                · rename_i hnone
                  refine .inr ⟨(Except.ok.inj hm).symm, fun other hother => ?_, hinto hnot,
                    fun hsame => hother (by rw [hsame])⟩
                  rw [ho] at hother
                  obtain rfl := Option.some.inj hother
                  exact hnone

/-- What stands under a path after a subtree has been put elsewhere. -/
theorem entryAt_graft (t : FileTree) (source target path : String) :
    (t.graft (root ++ spine source) (root ++ spine target)).entryAt root path =
      match (spine target).isPrefixOf? (spine path) with
      | some rest => t.entries[root ++ (spine source ++ rest)]?
      | none => if spine source <+: spine path then none else t.entryAt root path := by
  have hcancel : (root ++ spine target).isPrefixOf? (root ++ spine path) =
      (spine target).isPrefixOf? (spine path) := by
    cases hq : (spine target).isPrefixOf? (spine path) with
    | some rest =>
        rw [Text.isPrefixOf?_eq_some] at hq ⊢
        rw [hq, List.append_assoc]
    | none =>
        cases hr : (root ++ spine target).isPrefixOf? (root ++ spine path) with
        | none => rfl
        | some rest =>
            rw [Text.isPrefixOf?_eq_some, List.append_assoc] at hr
            have hrest : spine path = spine target ++ rest := List.append_cancel_left hr
            rw [Text.isPrefixOf?_eq_some.mpr hrest] at hq
            exact absurd hq (by simp)
  rw [entryAt, getElem?_graft, hcancel]
  cases (spine target).isPrefixOf? (spine path) with
  | some rest => simp
  | none => simp [List.prefix_append_right_inj, entryAt]

/-- What a file that has moved leaves of the entries. -/
theorem Sound.entries_moved (h : t.Sound root) {source target : String} (hs : Proper source)
    (ht : Proper target) {content : ByteArray} {mode : Nat}
    (he : t.entryAt root source = some (.file content mode)) {moved : FileTree}
    (hm : t.rename (locate (location root) source) (locate (location root) target) = .ok moved)
    (other : Spine) :
    moved.entries[other]? =
      if other = root ++ spine target then some (.file content mode)
      else if other = root ++ spine source then none else t.entries[other]? := by
  rw [entryAt] at he
  rcases h.of_rename hs ht he hm with ⟨rfl, rfl⟩ | ⟨rfl, hold, -⟩
  · by_cases hother : other = root ++ spine source
    · rw [if_pos hother, hother, he]
    · rw [if_neg hother, if_neg hother]
  · have hfile : t.entries[root ++ spine source]? ≠ some .directory := by
      rw [he]
      simp
    have htarget : t.entries[root ++ spine target]? ≠ some .directory := fun hdir =>
      absurd (hold _ hdir) (by simp [replaceError?])
    rw [getElem?_graft]
    cases hq : (root ++ spine target).isPrefixOf? other with
    | some rest =>
        obtain rfl := Text.isPrefixOf?_eq_some.mp hq
        dsimp only
        by_cases hrest : rest = []
        · rw [hrest, List.append_nil, List.append_nil, if_pos rfl, he]
        · -- there was nothing below the file, nor below what it replaces
          rw [if_neg (by simp [hrest]), List.append_assoc, List.append_assoc,
            h.below_none hfile hs.spine_ne_nil hrest, h.below_none htarget ht.spine_ne_nil hrest]
          split <;> rfl
    | none =>
        have hother : other ≠ root ++ spine target := by
          rintro rfl
          rw [Text.isPrefixOf?_eq_some.mpr (List.append_nil _).symm] at hq
          exact absurd hq (by simp)
        dsimp only
        rw [if_neg hother]
        by_cases hsource : other = root ++ spine source
        · rw [hsource, if_pos (List.prefix_refl _), if_pos rfl]
        · rw [if_neg hsource]
          split
          · rename_i hpre
            obtain ⟨rest, rfl⟩ := hpre
            rw [List.append_assoc, h.below_none hfile hs.spine_ne_nil]
            rintro rfl
            exact hsource (List.append_nil _)
          · rfl

/-- A file that has moved stands at its new place; the old one is free, and nothing else has changed. -/
theorem Sound.entryAt_moved (h : t.Sound root) {source target : String} (hs : Proper source)
    (ht : Proper target) {content : ByteArray} {mode : Nat}
    (he : t.entryAt root source = some (.file content mode)) {moved : FileTree}
    (hm : t.rename (locate (location root) source) (locate (location root) target) = .ok moved)
    {path : String} (hp : Proper path) :
    moved.entryAt root path =
      if path = target then some (.file content mode)
      else if path = source then none else t.entryAt root path := by
  have hplace : ∀ {place : String}, Proper place →
      (root ++ spine path = root ++ spine place ↔ path = place) := fun hproper =>
    ⟨fun hsame => Path.eq_of_spine_eq hp.normal hproper.normal (List.append_cancel_left hsame),
      fun hsame => by rw [hsame]⟩
  rw [entryAt, h.entries_moved hs ht he hm]
  simp only [hplace ht, hplace hs, entryAt]

/-- What is no directory may go. -/
theorem Sound.without (h : t.Sound root) (place : Spine)
    (hleaf : t.entries[root ++ place]? ≠ some .directory) {less : FileTree}
    (hless : ∀ other : Spine,
      less.entries[other]? = if other = root ++ place then none else t.entries[other]?) :
    less.Sound root := by
  have hdir : ∀ other, t.Holds other → less.Holds other := by
    intro other ho
    refine ho.imp_right fun hentry => ?_
    rw [hless, if_neg]
    · exact hentry
    · rintro rfl
      exact hleaf hentry
  have hkept : ∀ {other : Spine} {entry : Entry}, less.entries[other]? = some entry →
      t.entries[other]? = some entry := by
    intro other entry he
    rw [hless] at he
    split at he
    · exact absurd he (by simp)
    · exact he
  exact ⟨h.rootNames, fun above ha => hdir above (h.rootHolds above ha),
    fun rest entry he => h.names rest entry (hkept he),
    fun rest name entry he => hdir _ (h.held rest name entry (hkept he)),
    fun rest target he => h.linkless rest target (hkept he)⟩

/-- A tree in which a file has moved is as well-formed as before. -/
theorem Sound.sound_moved (h : t.Sound root) {source target : String} (hs : Proper source)
    (ht : Proper target) {content : ByteArray} {mode : Nat}
    (he : t.entryAt root source = some (.file content mode)) {moved : FileTree}
    (hm : t.rename (locate (location root) source) (locate (location root) target) = .ok moved) :
    moved.Sound root := by
  have hentries := h.entries_moved hs ht he hm
  rcases h.of_rename hs ht he hm with ⟨-, rfl⟩ | ⟨-, hold, -, hne⟩
  · exact h
  · -- the file is put at its new place, and then it goes from the old one
    have hput : (t.put (root ++ spine target) (.file content mode)).Sound root := by
      cases ht' : t.entryAt root target with
      | some old =>
          have hfile := hold old ht'
          cases old with
          | directory => exact absurd hfile (by simp [replaceError?])
          | link other => exact absurd ht' (h.linkless _ other)
          | file old kept =>
              rw [entryAt] at ht'
              refine h.put_file (h.names _ _ ht') (h.holds_dropLast ht.spine_ne_nil ht') ?_ _ _
              rw [ht']
              simp
      | none =>
          cases hlook : t.look false (locate (location root) target) with
          | error e =>
              rw [rename, h.entry_some hs he] at hm
              simp [hlook, bind, Except.bind] at hm
          | ok spot =>
              cases spot with
              | found place old => exact absurd hlook (h.look_none ht ht' false place old)
              | vacant place =>
                  obtain ⟨rfl, hsound⟩ := h.sound_vacant ht hlook content mode
                  exact hsound
    have hother : root ++ spine target ≠ root ++ spine source := fun hsame =>
      hne (Path.eq_of_spine_eq hs.normal ht.normal (List.append_cancel_left hsame).symm)
    refine hput.without (spine source) ?_ fun other => ?_
    · rw [getElem?_put, if_neg hother]
      rw [entryAt] at he
      rw [he]
      simp
    · rw [hentries, getElem?_put]
      by_cases hsource : other = root ++ spine source
      · rw [if_neg (by rw [hsource]; exact Ne.symm hother), if_pos hsource, if_pos hsource]
      · simp only [if_neg hsource, eq_comm]

/-- A directory that has moved to a free place stands there with all that was in it. -/
theorem Sound.entryAt_directoryMoved (h : t.Sound root) {source target : String}
    (hs : Proper source) (ht : Proper target)
    (he : t.entryAt root source = some .directory) (hfree : t.entryAt root target = none)
    {moved : FileTree}
    (hm : t.rename (locate (location root) source) (locate (location root) target) = .ok moved)
    (path : String) :
    moved.entryAt root path =
      match (spine target).isPrefixOf? (spine path) with
      | some rest => t.entries[root ++ (spine source ++ rest)]?
      | none => if spine source <+: spine path then none else t.entryAt root path := by
  rcases h.of_rename hs ht he hm with ⟨rfl, rfl⟩ | ⟨rfl, -, -⟩
  · rw [hfree] at he
    exact absurd he (by simp)
  · exact entryAt_graft t source target path

/-- Nothing is left under the old place of a directory that has moved. -/
theorem Sound.entryAt_directoryMoved_source (h : t.Sound root) {source target : String}
    (hs : Proper source) (ht : Proper target)
    (he : t.entryAt root source = some .directory) (hfree : t.entryAt root target = none)
    {moved : FileTree}
    (hm : t.rename (locate (location root) source) (locate (location root) target) = .ok moved)
    {path : String} (hu : spine source <+: spine path) : moved.entryAt root path = none := by
  rw [h.entryAt_directoryMoved hs ht he hfree hm]
  cases hq : (spine target).isPrefixOf? (spine path) with
  | none => exact if_pos hu
  | some rest =>
      -- Of two directories on the way to one path, one would hold the other.
      have htarget : spine target <+: spine path := ⟨rest, (Text.isPrefixOf?_eq_some.mp hq).symm⟩
      rcases h.of_rename hs ht he hm with ⟨rfl, -⟩ | ⟨-, -, hinto, -⟩
      · rw [hfree] at he
        exact absurd he (by simp)
      · rcases List.prefix_or_prefix_of_prefix hu htarget with hpre | ⟨more, hmore⟩
        · exact absurd hpre (hinto rfl)
        · have hne : more ≠ [] := by
            intro hnil
            rw [hnil, List.append_nil] at hmore
            exact hinto rfl ⟨[], by rw [hmore, List.append_nil]⟩
          rw [entryAt, ← hmore] at he
          rw [h.below_none (by rw [entryAt] at hfree; rw [hfree]; simp) ht.spine_ne_nil hne] at he
          exact absurd he (by simp)

/-- What went well is what came of it. -/
theorem eq_ok_of_isOk {ε α : Type} {result : Except ε α} (h : result.isOk = true) (other : α) :
    result = .ok (result.toOption.getD other) := by
  cases result with
  | ok value => rfl
  | error e => exact absurd h (by simp [Except.isOk, Except.toBool])

end FileTree

/-! ## Changes as they are reported -/

open FileTree
open Path (locate spine Proper)

/--
What an operation says about a tree: how it was, and how it is now. A file may move over
another file; a directory moves to a place that is free.
-/
inductive TreeStep (root : Spine) (t : FileTree) : Operation → FileTree → Prop where
  | created {path : String} {after : FileTree} (hp : Proper path)
      (free : t.entryAt root path = none) (there : after.entryAt root path ≠ none)
      (same : ∀ other : Spine, ¬ root ++ spine path <+: other →
        after.entries[other]? = t.entries[other]?) : TreeStep root t (.created path) after
  | deleted {path : String} (hp : Proper path) (there : t.entryAt root path ≠ none) :
      TreeStep root t (.deleted path) (t.prune (root ++ spine path))
  | modified {path : String} {old : ByteArray} {oldMode : Nat} (hp : Proper path)
      (there : t.entryAt root path = some (.file old oldMode)) (content : ByteArray) (mode : Nat) :
      TreeStep root t (.modified path) (t.put (root ++ spine path) (.file content mode))
  | moved {source target : String} {content : ByteArray} {mode : Nat} {after : FileTree}
      (hs : Proper source) (ht : Proper target)
      (there : t.entryAt root source = some (.file content mode))
      (renamed : t.rename (locate (location root) source) (locate (location root) target) =
        .ok after) : TreeStep root t (.moved source target) after
  | directoryMoved {source target : String} {after : FileTree} (hs : Proper source)
      (ht : Proper target) (there : t.entryAt root source = some .directory)
      (free : t.entryAt root target = none)
      (renamed : t.rename (locate (location root) source) (locate (location root) target) =
        .ok after) : TreeStep root t (.directoryMoved source target) after

/-- Whether something other than before may stand under a path once an operation is over. -/
def Operation.touches : Operation → String → Bool
  | .created other, path | .deleted other, path => Path.isUnder other path
  | .modified other, path => path == other
  | .moved source target, path => path == source || path == target
  | .directoryMoved source target, path => Path.isUnder source path || Path.isUnder target path

/-- **What an operation does not touch stays as it was.** -/
theorem TreeStep.entryAt_eq {root : Spine} {t after : FileTree} {op : Operation}
    (h : TreeStep root t op after) (hsound : t.Sound root) {path : String} (hp : Proper path)
    (hnot : op.touches path = false) : after.entryAt root path = t.entryAt root path := by
  have hpre : ∀ {dir : String}, Proper dir → Path.isUnder dir path = false →
      ¬ spine dir <+: spine path := by
    intro dir hd hu hpre
    rw [(Path.isUnder_iff_spine hd.normal hp.normal).mpr hpre] at hu
    exact absurd hu (by simp)
  cases h with
  | created hq free there same =>
      refine same _ ?_
      rw [List.prefix_append_right_inj]
      exact hpre hq hnot
  | deleted hq there =>
      rw [entryAt, getElem?_prune, if_neg]
      · rfl
      · rw [List.prefix_append_right_inj]
        exact hpre hq hnot
  | modified hq there content mode =>
      rw [entryAt, getElem?_put, if_neg]
      · rfl
      · intro hsame
        have := Path.eq_of_spine_eq hq.normal hp.normal (List.append_cancel_left hsame)
        simp [Operation.touches, this] at hnot
  | moved hs ht there renamed =>
      have hne := not_or.mp (by simpa [Operation.touches] using hnot)
      rw [hsound.entryAt_moved hs ht there renamed hp, if_neg hne.2, if_neg hne.1]
  | directoryMoved hs ht there free renamed =>
      obtain ⟨hus, hut⟩ : Path.isUnder _ path = false ∧ Path.isUnder _ path = false := by
        simpa [Operation.touches] using hnot
      rw [hsound.entryAt_directoryMoved hs ht there free renamed]
      cases hq : (spine _).isPrefixOf? (spine path) with
      | some rest => exact absurd ⟨rest, (Text.isPrefixOf?_eq_some.mp hq).symm⟩ (hpre ht hut)
      | none => exact if_neg (hpre hs hus)

/-- A tree in which a file has been reported as moved is as well-formed as before. -/
theorem TreeStep.sound_moved {root : Spine} {t after : FileTree} {source target : String}
    (h : TreeStep root t (.moved source target) after) (hsound : t.Sound root) :
    after.Sound root := by
  cases h with
  | moved hs ht there renamed => exact hsound.sound_moved hs ht there renamed

end LinkKeeper
