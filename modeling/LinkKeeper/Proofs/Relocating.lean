import LinkKeeper.Command
import LinkKeeper.Proofs.Companions

/-!
# Making way for a move

Before something is moved the directories on the way to its new place are made, as far as they
are not there. `MadeWay` says what that does to a tree: what was there stays, and what is new is
a directory on the way. With that, what a relocation does to the paths below the root can be said
in two sentences. Whatever stood under a path stands where the move carries the path, and
wherever something stands afterwards it has been carried there, or the place is on the way.
-/

namespace LinkKeeper

open Path (locate spine Proper)

namespace FileTree

variable {t : FileTree} {root : Spine}

/-! ## Directories on the way -/

/-- A tree with more directories, each on the way down to a place. -/
structure MadeWay (root : Spine) (t : FileTree) (way : Spine) (made : FileTree) : Prop where
  sound : made.Sound root
  kept : ∀ (place : Spine) (entry : Entry), t.entries[place]? = some entry →
    made.entries[place]? = some entry
  new : ∀ place : Spine, t.entries[place]? = none → made.entries[place]? ≠ none →
    made.entries[place]? = some .directory ∧
      ∃ front, front ≠ [] ∧ front <+: way ∧ place = root ++ front

theorem MadeWay.refl (h : t.Sound root) (way : Spine) : MadeWay root t way t :=
  ⟨h, fun _ _ he => he, fun _ hnone hsome => absurd hnone hsome⟩

theorem MadeWay.trans {way : Spine} {made more : FileTree} (h : MadeWay root t way made)
    (h' : MadeWay root made way more) : MadeWay root t way more where
  sound := h'.sound
  kept := fun place entry he => h'.kept place entry (h.kept place entry he)
  new := by
    intro place hnone hsome
    cases hmade : made.entries[place]? with
    | none => exact h'.new place hmade hsome
    | some entry =>
        obtain ⟨hdir, hway⟩ := h.new place hnone (by simp [hmade])
        exact ⟨h'.kept place _ hdir, hway⟩

theorem MadeWay.mono {way more : Spine} {made : FileTree} (h : MadeWay root t way made)
    (hway : way <+: more) : MadeWay root t more made := by
  refine ⟨h.sound, h.kept, fun place hnone hsome => ?_⟩
  obtain ⟨hdir, front, hne, hpre, hplace⟩ := h.new place hnone hsome
  exact ⟨hdir, front, hne, hpre.trans hway, hplace⟩

/-- A directory may be put under a free name in a directory. -/
theorem Sound.put_directory (h : t.Sound root) {rest : Spine}
    (hn : ∀ name ∈ rest, IsFileName name) (hd : t.Holds (root ++ rest.dropLast)) :
    (t.put (root ++ rest) .directory).Sound root := by
  have hdir : ∀ other, t.Holds other → (t.put (root ++ rest) .directory).Holds other := by
    intro other ho
    refine ho.imp_right fun hentry => ?_
    rw [getElem?_put]
    split
    · rfl
    · exact hentry
  refine ⟨h.rootNames, fun above ha => hdir above (h.rootHolds above ha), ?_, ?_, ?_⟩
  · intro more entry he
    rw [getElem?_put] at he
    split at he
    · rename_i hsame
      exact List.append_cancel_left hsame ▸ hn
    · exact h.names more entry he
  · intro more name entry he
    rw [getElem?_put] at he
    split at he
    · rename_i hsame
      have hrest : rest = more ++ [name] := by
        rw [List.append_assoc] at hsame
        exact List.append_cancel_left hsame
      rw [hrest, List.dropLast_concat] at hd
      exact hdir _ hd
    · exact hdir _ (h.held more name entry he)
  · intro more target he
    rw [getElem?_put] at he
    split at he
    · exact absurd he (by simp)
    · exact h.linkless more target he

theorem Sound.makeDirectory (h : t.Sound root) {path : String} (hp : Proper path)
    {made : FileTree} (hm : t.makeDirectory (locate (location root) path) = .ok made) :
    MadeWay root t (spine path) made := by
  rw [FileTree.makeDirectory] at hm
  cases hlook : t.look false (locate (location root) path) with
  | error e => simp [hlook] at hm
  | ok spot =>
      cases spot with
      | found place entry => simp [hlook] at hm
      | vacant place =>
          obtain ⟨rfl, hfree, hholds, hnames⟩ := h.of_vacant hp hlook
          obtain rfl : t.put (root ++ spine path) .directory = made := by simpa [hlook] using hm
          refine ⟨h.put_directory hnames hholds, fun other entry he => ?_,
            fun other hnone hsome => ?_⟩
          · rw [getElem?_put, if_neg]
            · exact he
            · rintro rfl
              rw [entryAt] at hfree
              exact absurd (hfree.symm.trans he) (by simp)
          · rw [getElem?_put] at hsome ⊢
            split at hsome
            · rename_i hsame
              exact ⟨if_pos hsame, spine path, hp.spine_ne_nil, List.prefix_refl _, hsame.symm⟩
            · exact absurd hnone hsome

/-- The root is found at its location. -/
theorem Sound.look_root (h : t.Sound root) (hne : root ≠ []) :
    t.look false (location root) = .ok (.found root .directory) := by
  have hfirst : ∀ cs, Text.splitWhere (· == '/') ('/' :: cs) =
      [] :: Text.splitWhere (· == '/') cs :=
    fun cs => Text.splitWhere_append_cons (p := (· == '/')) rfl [] cs
  have hsegments : segments (location root) = "" :: root := by
    rw [segments, Path.toList_location, hfirst,
      Text.splitWhere_intercalate (p := (· == '/')) rfl (by simpa using hne)]
    · simp [Function.comp_def]
    · intro s hs
      obtain ⟨name, hname, rfl⟩ := List.mem_map.mp hs
      exact Path.not_isSlash (h.rootNames name hname).plain
  have hwalk : t.walk false mostLinks = t.descend false (some (t.walk false 39)) := rfl
  have hdescend : t.descend false (some (t.walk false 39)) [] (root ++ []) =
      t.descend false (some (t.walk false 39)) root [] :=
    descend_append h.rootNames
      (fun front hf hfront => (h.rootHolds front hf).resolve_left hfront) []
  rw [List.append_nil] at hdescend
  rw [look, Path.isEmpty_location, if_neg (by simp), hsegments, hwalk, descend, if_pos (.inl rfl),
    hdescend, descend]

theorem Sound.makeAll_root (h : t.Sound root) {made : FileTree} {fault : Option SystemError}
    (hm : t.makeAll root.reverse = (made, fault)) : made = t := by
  rcases List.eq_nil_or_concat root with rfl | ⟨front, last, hroot⟩
  · exact (congrArg Prod.fst hm).symm
  · rw [List.concat_eq_append] at hroot
    have hlook := h.look_root (by simp [hroot])
    have hplace : root.reverse = last :: front.reverse := by simp [hroot]
    have hdir : t.makeDirectory (location root) = .error .alreadyThere := by
      rw [FileTree.makeDirectory, hlook]
    rw [hplace, makeAll, List.reverse_cons, List.reverse_reverse, ← hroot, hdir] at hm
    dsimp only at hm
    rw [ensureDirectory, hdir] at hm
    exact (congrArg Prod.fst hm).symm

/-- A directory that is made, or was there. -/
theorem Sound.ensureDirectory (h : t.Sound root) {path : String} (hp : Proper path)
    {made : FileTree} {fault : Option SystemError}
    (hm : t.ensureDirectory (locate (location root) path) = (made, fault)) :
    MadeWay root t (spine path) made ∧ (fault = none → made.Holds (root ++ spine path)) ∧
      ∀ e, fault = some e →
        made = t ∧ t.makeDirectory (locate (location root) path) = .error e := by
  rw [FileTree.ensureDirectory] at hm
  cases hmake : t.makeDirectory (locate (location root) path) with
  | ok more =>
      rw [hmake] at hm
      obtain ⟨rfl, rfl⟩ := Prod.mk.inj hm
      refine ⟨h.makeDirectory hp hmake, fun _ => .inr ?_, fun e he => absurd he (by simp)⟩
      rw [FileTree.makeDirectory] at hmake
      split at hmake
      · rename_i place hlook
        obtain ⟨rfl, -⟩ := h.of_vacant hp hlook
        rw [← Except.ok.inj hmake, getElem?_put, if_pos rfl]
      · exact absurd hmake (by simp)
      · exact absurd hmake (by simp)
  | error refused =>
      rw [hmake] at hm
      obtain ⟨rfl, rfl⟩ := Prod.mk.inj hm
      refine ⟨.refl h _, fun hnone => .inr ?_, fun e he => ⟨rfl, ?_⟩⟩
      · by_contra hdir
        rw [if_neg (fun hthere => hdir ((h.isDirectory_iff hp).mp hthere))] at hnone
        exact absurd hnone (by simp)
      · split at he
        · exact absurd he (by simp)
        · rw [Option.some.inj he]

/--
Making a directory and those above it makes nothing else, and all of them unless one is refused.
If new ones have been made by then, what is refused is a name that is too long.
-/
theorem Sound.makeAll (h : t.Sound root) {path : String} (hp : Proper path) {names : Spine}
    (hnames : names <+: spine path) {made : FileTree} {fault : Option SystemError}
    (hm : t.makeAll (root ++ names).reverse = (made, fault)) :
    MadeWay root t names made ∧ (fault = none → made.Holds (root ++ names)) ∧
      ∀ e, fault = some e → e = .nameTooLong ∨ made = t := by
  induction names using List.reverseRecOn generalizing made fault with
  | nil =>
      rw [List.append_nil] at hm ⊢
      obtain rfl := h.makeAll_root hm
      exact ⟨.refl h [], fun _ => h.rootHolds root (List.prefix_refl _), fun _ _ => .inr rfl⟩
  | append_singleton front last ih =>
      obtain ⟨q, hq, hspine⟩ := Keeper.exists_proper_prefix hp hnames (by simp)
      have hplace : location (root ++ (front ++ [last])) = locate (location root) q := by
        rw [Path.locate_eq_location h.rootNames hq, hspine]
      rw [← List.append_assoc, List.reverse_append, List.reverse_singleton, List.singleton_append,
        FileTree.makeAll, List.reverse_cons, List.reverse_reverse, List.append_assoc, hplace] at hm
      split at hm
      · rename_i hnone
        cases habove : t.makeAll (root ++ front).reverse with
        | mk above refused =>
            -- what is above is made first
            obtain ⟨hway, hholds, hrefused⟩ := ih ((List.prefix_append _ _).trans hnames) habove
            rw [habove] at hm
            cases refused with
            | some e =>
                obtain ⟨rfl, rfl⟩ := Prod.mk.inj hm
                exact ⟨hway.mono (List.prefix_append _ _), fun hnone => absurd hnone (by simp), hrefused⟩
            | none =>
                have hmore := hway.mono (List.prefix_append front [last])
                obtain ⟨hlast, hin, hleft⟩ := hway.sound.ensureDirectory hq hm
                rw [hspine] at hlast hin
                refine ⟨hmore.trans hlast, hin, fun e he => .inl ?_⟩
                -- the name is in a directory now, and it is free as before
                have hfree : above.entryAt root q = none := by
                  have hwas : t.entryAt root q = none := by
                    by_contra hsome
                    obtain ⟨entry, hentry⟩ := Option.ne_none_iff_exists'.mp hsome
                    rw [FileTree.makeDirectory, h.look_some hq hentry] at hnone
                    exact absurd hnone (by simp)
                  by_contra hsome
                  obtain ⟨-, new, -, hnew, hsame⟩ := hway.new _ hwas hsome
                  rw [hspine] at hsame
                  have hle := hnew.length_le
                  rw [← List.append_cancel_left hsame, List.length_append, List.length_singleton] at hle
                  omega
                obtain ⟨-, hmake⟩ := hleft e he
                have hheld : above.Holds (root ++ (spine q).dropLast) := by
                  rw [hspine, List.dropLast_concat]
                  exact hholds rfl
                rw [FileTree.makeDirectory, hway.sound.look_free hq hheld hfree] at hmake
                by_cases hlong : longestName < ((spine q).getLast hq.spine_ne_nil).utf8ByteSize
                · rw [if_pos hlong] at hmake
                  exact (Except.error.inj hmake).symm
                · rw [if_neg hlong] at hmake
                  exact absurd hmake (by simp)
      · obtain ⟨hway, hin, hleft⟩ := h.ensureDirectory hq hm
        rw [hspine] at hway hin
        exact ⟨hway, hin, fun e he => .inr (hleft e he).1⟩

/-- **Making way for a path** makes the directories it lies in, as far as they are not there. -/
theorem Sound.makeWay_parent (h : t.Sound root) {path : String} (hp : Proper path)
    {made : FileTree} {fault : Option SystemError}
    (hm : t.makeWay (locate (location root) (Path.parent path)) = (made, fault)) :
    MadeWay root t (spine path).dropLast made ∧
      (fault = none → made.Holds (root ++ (spine path).dropLast)) ∧
      ∀ e, fault = some e → e = .nameTooLong ∨ made = t := by
  have hkept : ∀ {names : Spine}, (∀ name ∈ names, name ≠ "" ∧ name ≠ ".") →
      names.filter (fun s => s != "" && s != ".") = names := by
    intro names hn
    rw [List.filter_eq_self]
    intro name hname
    simpa using hn name hname
  have hroot : ∀ name ∈ root, name ≠ "" ∧ name ≠ "." := fun name hname =>
    ⟨(h.rootNames name hname).nonempty, (h.rootNames name hname).notHere⟩
  have hpath : ∀ name ∈ (spine path).dropLast, name ≠ "" ∧ name ≠ "." := fun name hname =>
    have hall := name_of_spine hp name (List.dropLast_subset _ hname)
    ⟨hall.1, hall.2.1⟩
  have hspine : spine (Path.parent path) = (spine path).dropLast := by
    rw [spine, Path.segments_parent hp, List.map_dropLast]
    rfl
  have hsegments : (segments (locate (location root) (Path.parent path))).filter
      (fun s => s != "" && s != ".") = root ++ (spine path).dropLast := by
    by_cases hnil : Path.parent path = ""
    · rw [hnil, Path.segments_locate_empty h.rootNames, ← hspine, hnil]
      simp [hkept hroot]
    · have hparent : Proper (Path.parent path) := by
        obtain ⟨front, last, hseg, -, hjoin, -⟩ := hp.exists_join
        have htidy := Path.tidy_segments path
        rw [hseg] at htidy
        rw [hjoin]
        refine Path.proper_join htidy.left (fun s hs => hp.names s ?_) ?_
        · rw [hseg]
          exact List.mem_append_left _ hs
        · rintro rfl
          exact hnil (hjoin.trans Path.join_nil)
      rw [Path.segments_locate h.rootNames hparent, hspine, List.filter_cons_of_neg (by simp),
        List.filter_append, hkept hroot, hkept hpath]
  rw [makeWay, hsegments] at hm
  exact h.makeAll hp (List.dropLast_prefix _) hm

/-! ## A directory that has moved -/

/-- Nothing is moved to a free place that is not in a directory. -/
theorem Sound.of_rename_free (h : t.Sound root) {source target : String} (hs : Proper source)
    (ht : Proper target) {entry : Entry} (he : t.entryAt root source = some entry)
    (hfree : t.entryAt root target = none) {moved : FileTree}
    (hm : t.rename (locate (location root) source) (locate (location root) target) = .ok moved) :
    t.Holds (root ++ (spine target).dropLast) ∧ ∀ name ∈ spine target, IsFileName name := by
  rw [rename, h.entry_some hs he] at hm
  cases hlook : t.look false (locate (location root) target) with
  | error e => simp [hlook, bind, Except.bind] at hm
  | ok spot =>
      cases spot with
      | found place old => exact absurd hlook (h.look_none ht hfree false place old)
      | vacant place => exact (h.of_vacant ht hlook).2.2

theorem getElem?_graft_append (t : FileTree) (source target more : Spine) :
    (t.graft source target).entries[target ++ more]? = t.entries[source ++ more]? := by
  rw [getElem?_graft, Text.isPrefixOf?_eq_some.mpr rfl]

theorem getElem?_graft_of_not {source target other : Spine} (h : ¬ target <+: other) :
    (t.graft source target).entries[other]? =
      if source <+: other then none else t.entries[other]? := by
  rw [getElem?_graft]
  cases hpre : target.isPrefixOf? other with
  | none => rfl
  | some more => exact absurd ⟨more, (Text.isPrefixOf?_eq_some.mp hpre).symm⟩ h

/-- A tree in which a directory has moved to a free place is as well-formed as before. -/
theorem Sound.sound_directoryMoved (h : t.Sound root) {source target : String}
    (hs : Proper source) (ht : Proper target) (he : t.entryAt root source = some .directory)
    (hfree : t.entryAt root target = none) {moved : FileTree}
    (hm : t.rename (locate (location root) source) (locate (location root) target) = .ok moved) :
    moved.Sound root := by
  obtain ⟨hheld, hnames⟩ := h.of_rename_free hs ht he hfree hm
  obtain ⟨hgraft, hout⟩ : moved = t.graft (root ++ spine source) (root ++ spine target) ∧
      ¬ spine source <+: spine target := by
    rcases h.of_rename hs ht he hm with ⟨rfl, -⟩ | ⟨hgraft, -, hout, -⟩
    · exact absurd (he.symm.trans hfree) (by simp)
    · exact ⟨hgraft, hout rfl⟩
  -- what has come with the directory, and what has stayed
  have hcame : ∀ more : Spine, moved.entries[root ++ (spine target ++ more)]? =
      t.entries[root ++ (spine source ++ more)]? := by
    intro more
    rw [hgraft, ← List.append_assoc, getElem?_graft_append, List.append_assoc]
  have hstayed : ∀ rest : Spine, ¬ root ++ spine target <+: rest →
      moved.entries[rest]? = if root ++ spine source <+: rest then none else t.entries[rest]? := by
    intro rest hnot
    rw [hgraft, getElem?_graft_of_not hnot]
  have hholds : ∀ rest : Spine, ¬ root ++ spine target <+: rest → ¬ root ++ spine source <+: rest →
      t.Holds rest → moved.Holds rest := by
    intro rest htarget hsource hrest
    refine hrest.imp_right fun hdir => ?_
    rw [hstayed rest htarget, if_neg hsource, hdir]
  have hlong : ∀ {names front : Spine}, names ≠ [] → root ++ front <+: root ++ names.dropLast →
      front.length < names.length := by
    intro names front hne hpre
    have hle := hpre.length_le
    have hpos := List.length_pos_iff.mpr hne
    rw [List.length_append, List.length_append, List.length_dropLast] at hle
    omega
  constructor
  case rootNames => exact h.rootNames
  case rootHolds =>
    intro above habove
    have hle := habove.length_le
    refine hholds above (fun hpre => ?_) (fun hpre => ?_) (h.rootHolds above habove)
    · have := hpre.length_le
      have hpos := List.length_pos_iff.mpr ht.spine_ne_nil
      rw [List.length_append] at this
      omega
    · have := hpre.length_le
      have hpos := List.length_pos_iff.mpr hs.spine_ne_nil
      rw [List.length_append] at this
      omega
  case names =>
    intro rest entry hentry
    by_cases hpre : spine target <+: rest
    · obtain ⟨more, rfl⟩ := hpre
      rw [hcame] at hentry
      intro name hname
      rcases List.mem_append.mp hname with hname | hname
      · exact hnames name hname
      · exact h.names _ entry hentry name (List.mem_append_right _ hname)
    · rw [hstayed _ (fun hp => hpre ((List.prefix_append_right_inj root).mp hp))] at hentry
      split at hentry
      · exact absurd hentry (by simp)
      · exact h.names rest entry hentry
  case held =>
    intro rest name entry hentry
    rw [List.append_assoc] at hentry
    by_cases hpre : spine target <+: rest ++ [name]
    · rcases List.prefix_concat_iff.mp hpre with heq | hpre
      · -- the directory itself: it is in a directory that has not moved
        have hrest : rest = (spine target).dropLast := by rw [heq, List.dropLast_concat]
        rw [hrest]
        refine hholds _ (fun hp => ?_) (fun hp => ?_) hheld
        · exact absurd (hlong ht.spine_ne_nil hp) (Nat.lt_irrefl _)
        · exact hout (((List.prefix_append_right_inj root).mp hp).trans (List.dropLast_prefix _))
      · obtain ⟨more, rfl⟩ := hpre
        rw [List.append_assoc, hcame] at hentry
        have hdir := h.held (spine source ++ more) name entry (by simpa using hentry)
        refine .inr ?_
        rw [hcame]
        exact hdir.resolve_left (by simp [hs.spine_ne_nil])
    · rw [hstayed _ (fun hp => hpre ((List.prefix_append_right_inj root).mp hp))] at hentry
      split at hentry
      · exact absurd hentry (by simp)
      · rename_i hsource
        rw [← List.append_assoc] at hentry hsource
        refine hholds _ (fun hp => ?_) (fun hp => hsource (hp.trans (List.prefix_append _ _)))
          (h.held rest name entry hentry)
        exact hpre (((List.prefix_append_right_inj root).mp hp).trans (List.prefix_append _ _))
  case linkless =>
    intro rest other hentry
    by_cases hpre : spine target <+: rest
    · obtain ⟨more, rfl⟩ := hpre
      rw [hcame] at hentry
      exact h.linkless _ other hentry
    · rw [hstayed _ (fun hp => hpre ((List.prefix_append_right_inj root).mp hp))] at hentry
      split at hentry
      · exact absurd hentry (by simp)
      · exact h.linkless rest other hentry

/-- Directories on the way to a place do not take it. -/
theorem MadeWay.entryAt_target {made : FileTree} {target : String}
    (h : MadeWay root t (spine target).dropLast made) (ht : Proper target) :
    made.entryAt root target = t.entryAt root target := by
  cases he : t.entryAt root target with
  | some entry => exact h.kept _ entry he
  | none =>
      by_contra hsome
      obtain ⟨-, front, -, hpre, hplace⟩ := h.new _ he hsome
      have hle := hpre.length_le
      have hpos := List.length_pos_iff.mpr ht.spine_ne_nil
      rw [List.append_cancel_left hplace, List.length_dropLast, ← List.append_cancel_left hplace]
        at hle
      omega

end FileTree

open FileTree

/-- Where an operation carries what has a path. -/
def Operation.placeOf : Operation → String → String
  | .moved source target, path => if path = source then target else path
  | .directoryMoved source target, path => (Path.rebase? path source target).getD path
  | .created _, path | .deleted _, path | .modified _, path => path

/--
What a relocation does to a tree: whatever stands under a path is carried where the operation
says, unless it is replaced, and nothing else is there but directories on the way.
-/
structure Relocated (root : Spine) (t : FileTree) (op : Operation) (target : String)
    (after : FileTree) : Prop where
  sound : after.Sound root
  carried : ∀ (path : String) (entry : Entry), Proper path → path ≠ target →
    t.entryAt root path = some entry → after.entryAt root (op.placeOf path) = some entry
  new : ∀ path, Proper path → after.entryAt root path ≠ none →
    spine path <+: spine target ∨
      ∃ old, Proper old ∧ t.entryAt root old ≠ none ∧ op.placeOf old = path

namespace Command

variable {t after : FileTree} {root : Spine} {source target : String}

/-- A relocation that goes well makes way first, and then moves. -/
theorem relocate_cases (h : t.Sound root) (ht : Proper target)
    (hdone : relocate t (location root) source target = (after, none)) :
    ∃ made, MadeWay root t (spine target).dropLast made ∧
      made.rename (locate (location root) source) (locate (location root) target) = .ok after := by
  unfold relocate at hdone
  split at hdone
  · exact absurd hdone (by simp)
  · rename_i made hmade
    split at hdone
    · exact absurd hdone (by simp)
    · rename_i moved hmoved
      obtain ⟨rfl, -⟩ := Prod.mk.inj hdone
      exact ⟨made, (h.makeWay_parent ht hmade).1, hmoved⟩

/-- What was not there before is on the way. -/
theorem new_of_made {made : FileTree} (hmade : MadeWay root t (spine target).dropLast made)
    {path : String} (hsome : made.entryAt root path ≠ none) :
    spine path <+: spine target ∨ t.entryAt root path ≠ none := by
  by_cases hnone : t.entryAt root path = none
  · obtain ⟨-, front, -, hpre, hplace⟩ := hmade.new _ hnone hsome
    exact .inl (List.append_cancel_left hplace ▸ hpre.trans (List.dropLast_prefix _))
  · exact .inr hnone

/-- **What the relocation of a file does.** -/
theorem relocated_file (h : t.Sound root) (hs : Proper source) (ht : Proper target)
    {content : ByteArray} {mode : Nat} (he : t.entryAt root source = some (.file content mode))
    (hdone : relocate t (location root) source target = (after, none)) :
    Relocated root t (.moved source target) target after := by
  obtain ⟨made, hmade, hmoved⟩ := relocate_cases h ht hdone
  have hsource := hmade.kept _ _ he
  have hentry : ∀ {path : String}, Proper path → after.entryAt root path =
      if path = target then some (.file content mode)
      else if path = source then none else made.entryAt root path :=
    fun hp => hmade.sound.entryAt_moved hs ht hsource hmoved hp
  refine ⟨hmade.sound.sound_moved hs ht hsource hmoved, fun path entry hp hne hpath => ?_,
    fun path hp hsome => ?_⟩
  · rw [Operation.placeOf]
    split
    · rename_i hsame
      rw [hentry ht, if_pos rfl, ← he, ← hsame, hpath]
    · rename_i hother
      rw [hentry hp, if_neg hne, if_neg hother]
      exact hmade.kept _ _ hpath
  · rw [hentry hp] at hsome
    split at hsome
    · rename_i hsame
      exact .inl (hsame ▸ List.prefix_refl _)
    · split at hsome
      · exact absurd rfl hsome
      · rename_i hother
        exact (new_of_made hmade hsome).imp_right fun hthere =>
          ⟨path, hp, hthere, if_neg hother⟩

/-- What lies below the new place of a directory has a path below the old one. -/
theorem exists_origin (hs : Proper source) (ht : Proper target) {path : String} (hp : Proper path)
    {rest : Spine} (hrest : spine path = spine target ++ rest) :
    ∃ old, Proper old ∧ spine old = spine source ++ rest ∧
      Path.rebase? old source target = some path := by
  have hseg : Path.segments path = Path.segments target ++ rest.map String.toList := by
    rw [← Path.map_toList_spine, hrest, List.map_append, Path.map_toList_spine]
  have htidy := Path.tidy_segments path
  rw [hseg] at htidy
  have hmore : ∀ s ∈ rest.map String.toList, Path.IsName s ∧ ∀ c ∈ s, Path.isSeparator c = false :=
    fun s hmem => ⟨hp.names s (by rw [hseg]; exact List.mem_append_right _ hmem),
      htidy.plain s (List.mem_append_right _ hmem)⟩
  have hnames : ∀ s ∈ Path.segments source ++ rest.map String.toList, Path.IsName s := by
    intro s hmem
    exact (List.mem_append.mp hmem).elim (hs.names s) fun hmem => (hmore s hmem).1
  have hold : Path.Tidy (Path.segments source ++ rest.map String.toList) := by
    refine Path.tidy_names hnames fun s hmem => ?_
    exact (List.mem_append.mp hmem).elim ((Path.tidy_segments source).plain s)
      fun hmem => (hmore s hmem).2
  refine ⟨Path.join (Path.segments source ++ rest.map String.toList),
    Path.proper_join hold hnames (by simp [hs.segments_ne_nil]), ?_, ?_⟩
  · rw [Path.spine_join hold, List.map_append]
    simp [spine, Function.comp_def]
  · have hjoin := Path.rebase?_join hs.segments_ne_nil (Path.tidy_segments target)
      ht.segments_ne_nil (Path.tidy_segments source) hold
    rw [Path.join_segments hs.normal, Path.join_segments ht.normal, ← hseg,
      Path.join_segments hp.normal] at hjoin
    exact hjoin

/-- **What the relocation of a directory does.** -/
theorem relocated_directory (h : t.Sound root) (hs : Proper source) (ht : Proper target)
    (he : t.entryAt root source = some .directory) (hdir : t.entryAt root target ≠ some .directory)
    (hdone : relocate t (location root) source target = (after, none)) :
    Relocated root t (.directoryMoved source target) target after := by
  obtain ⟨made, hmade, hmoved⟩ := relocate_cases h ht hdone
  have hsource : made.entryAt root source = some .directory := hmade.kept _ _ he
  have hsame := hmade.entryAt_target ht
  have hne : source ≠ target := by
    rintro rfl
    exact hdir he
  obtain ⟨hfree, hout⟩ : made.entryAt root target = none ∧ ¬ spine source <+: spine target := by
    rcases hmade.sound.of_rename hs ht hsource hmoved with ⟨heq, -⟩ | ⟨-, hold, hout, -⟩
    · exact absurd heq hne
    · refine ⟨?_, hout rfl⟩
      -- a directory takes the place of nothing but a directory
      cases hthere : made.entryAt root target with
      | none => rfl
      | some old =>
          cases old with
          | directory => exact absurd (hsame.symm.trans hthere) hdir
          | file _ _ | link _ => exact absurd (hold _ hthere) (by simp [replaceError?])
  have hstays : ∀ {path : String}, Proper path → ¬ spine source <+: spine path →
      Path.rebase? path source target = none := by
    intro path hp hnot
    refine Path.rebase?_of_not_isUnder hp.normal hs ht ?_
    rw [← Bool.not_eq_true, Path.isUnder_iff_spine hs.normal hp.normal]
    exact hnot
  refine ⟨hmade.sound.sound_directoryMoved hs ht hsource hfree hmoved,
    fun path entry hp hneq hpath => ?_, fun path hp hsome => ?_⟩
  · rw [Operation.placeOf]
    have hkept : made.entryAt root path = some entry := hmade.kept _ _ hpath
    by_cases hpre : spine source <+: spine path
    · obtain ⟨new, hnew⟩ := Path.exists_rebase? hs
        ((Path.isUnder_iff_spine hs.normal hp.normal).mpr hpre) target
      rw [hnew, Option.getD_some, ← hkept]
      exact Keeper.entryAt_rebased hmade.sound hs ht hp hsource hfree hmoved hnew
    · rw [hstays hp hpre, Option.getD_none,
        hmade.sound.entryAt_directoryMoved hs ht hsource hfree hmoved]
      cases hbelow : (spine target).isPrefixOf? (spine path) with
      | none =>
          dsimp only
          rw [if_neg hpre, hkept]
      | some rest =>
          -- nothing stands below a free place
          have hspine := Text.isPrefixOf?_eq_some.mp hbelow
          have hrest : rest ≠ [] := by
            rintro rfl
            rw [List.append_nil] at hspine
            exact hneq (Path.eq_of_spine_eq hp.normal ht.normal hspine)
          have hnotdir : made.entries[root ++ spine target]? ≠ some .directory := by
            rw [entryAt] at hfree
            simp [hfree]
          have hnone := hmade.sound.below_none hnotdir ht.spine_ne_nil hrest
          rw [entryAt, hspine, hnone] at hkept
          exact absurd hkept (by simp)
  · rw [hmade.sound.entryAt_directoryMoved hs ht hsource hfree hmoved] at hsome
    cases hbelow : (spine target).isPrefixOf? (spine path) with
    | none =>
        rw [hbelow] at hsome
        dsimp only at hsome
        split at hsome
        · exact absurd rfl hsome
        · rename_i hpre
          refine (new_of_made hmade hsome).imp_right fun hthere => ⟨path, hp, hthere, ?_⟩
          rw [Operation.placeOf, hstays hp hpre, Option.getD_none]
    | some rest =>
        rw [hbelow] at hsome
        dsimp only at hsome
        obtain ⟨old, hold, hspine, hnew⟩ :=
          exists_origin hs ht hp (Text.isPrefixOf?_eq_some.mp hbelow)
        rw [← hspine] at hsome
        refine .inr ⟨old, hold, ?_, by rw [Operation.placeOf, hnew, Option.getD_some]⟩
        refine (new_of_made hmade hsome).resolve_left fun hpre => hout ?_
        exact (hspine ▸ List.prefix_append _ rest).trans hpre

end Command

end LinkKeeper
