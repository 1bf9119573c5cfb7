import LinkKeeper.Proofs.Foretelling
import LinkKeeper.Proofs.Holders

/-!
# A move that is refused

A move is looked at from all sides before anything is done, and what can be refused without
having done anything is refused then. Only three things are left for later: the lock is taken,
which replaces a lock that nobody holds; directories are made on the way to the new place; and
the entry is moved. The lock is given back in any case, and the entry is moved last. So all that
can be left of a refused move are directories, and only behind a name that turns out to be too
long: everything else that can be wrong with the way is found where the first of them would be
made.
-/

namespace LinkKeeper

open FileTree
open Path (locate spine Proper)

namespace FileTree

variable {t : FileTree} {root : Spine}

/-! ## File systems without links -/

/-- File systems can be checked, entry by entry. -/
theorem sound_of_entries (htop : t.entries[([] : Spine)]? = none)
    (hbelow : ∀ pair ∈ t.below [], (∀ name ∈ pair.1, IsFileName name) ∧
      t.Holds pair.1.dropLast ∧ pair.2.isLink = false) : t.Sound [] where
  rootNames := by simp
  rootHolds above ha := .inl (List.prefix_nil.mp ha)
  names rest entry he := by
    by_cases hrest : rest = []
    · simp [hrest]
    · exact (hbelow _ (mem_below.mpr ⟨hrest, he⟩)).1
  held rest name entry he := by
    have hheld := (hbelow _ (mem_below.mpr ⟨by simp, he⟩ : (rest ++ [name], entry) ∈ t.below [])).2.1
    rwa [List.dropLast_concat] at hheld
  linkless rest target he := by
    by_cases hrest : rest = []
    · rw [hrest, List.append_nil, htop] at he
      exact absurd he (by simp)
    · exact Bool.noConfusion (hbelow _ (mem_below.mpr ⟨hrest, he⟩)).2.2

/-- A directory of a file system without links is the root of a tree without links. -/
theorem Sound.below (h : t.Sound []) (hnames : ∀ name ∈ root, IsFileName name)
    (hroot : t.Holds root) : t.Sound root where
  rootNames := hnames
  rootHolds above habove := by
    by_cases hnil : above = []
    · exact .inl hnil
    by_cases hsame : above = root
    · exact hsame ▸ hroot
    rcases hroot with rfl | hdir
    · exact absurd (List.prefix_nil.mp habove) hnil
    · exact .inr (h.directory_above (List.nil_append root ▸ hdir) habove hnil hsame)
  names rest entry he name hname := h.names (root ++ rest) entry he name (List.mem_append_right _ hname)
  held rest := h.held (root ++ rest)
  linkless rest := h.linkless (root ++ rest)

/-- Where there are no links a look-up ends under names that a directory may hold. -/
theorem Sound.names_of_descend (h : t.Sound []) {follow : Bool}
    {go : Option (Spine → List String → Except SystemError Spot)} {dir found : Spine}
    {names : List String} {entry : Entry} (hdir : ∀ name ∈ dir, IsFileName name)
    (hf : t.descend follow go dir names = .ok (.found found entry)) :
    ∀ name ∈ found, IsFileName name := by
  induction names generalizing dir with
  | nil =>
      obtain ⟨rfl, -⟩ : dir = found ∧ Entry.directory = entry := by simpa [descend] using hf
      exact hdir
  | cons name rest ih =>
      have hthere : ∀ {entry : Entry}, t.entries[dir ++ [name]]? = some entry →
          ∀ other ∈ dir ++ [name], IsFileName other := fun he => h.names _ _ he
      rw [descend] at hf
      split at hf
      · exact ih hdir hf
      split at hf
      · exact ih (fun other hother => hdir other (List.dropLast_subset _ hother)) hf
      split at hf
      · exact absurd hf (by simp)
      dsimp only at hf
      split at hf
      · split at hf <;> exact absurd hf (by simp)
      · rename_i he
        exact ih (hthere he) hf
      · rename_i he
        split at hf
        · obtain ⟨rfl, -⟩ : dir ++ [name] = found ∧ _ := by simpa using hf
          exact hthere he
        · exact absurd hf (by simp)
      · rename_i target he
        exact absurd he (h.linkless _ target)

theorem Sound.names_of_realLocation (h : t.Sound []) {place real : String}
    (hr : t.realLocation place = .ok real) :
    ∃ found, real = location found ∧ ∀ name ∈ found, IsFileName name := by
  rw [realLocation, FileTree.entry] at hr
  split at hr
  · rename_i found entry hlook
    refine ⟨found, (Except.ok.inj hr).symm, ?_⟩
    rw [look] at hlook
    split at hlook
    · exact absurd hlook (by simp)
    · exact h.names_of_descend (by simp) hlook
  · exact absurd hr (by simp [Except.map])
  · exact absurd hr (by simp [Except.map])

/-- Something is found below a directory only. -/
theorem Sound.holds_of_entry (h : t.Sound []) (hnames : ∀ name ∈ root, IsFileName name)
    {path : String} (hp : Proper path) {follow : Bool}
    (he : (t.entry follow (locate (location root) path)).isOk = true) : t.Holds root := by
  have hall : ∀ name ∈ root ++ spine path, name ≠ "" ∧ name ≠ "." ∧ name ≠ ".." := by
    intro name hname
    rcases List.mem_append.mp hname with hname | hname
    · exact ⟨(hnames name hname).nonempty, (hnames name hname).notHere, (hnames name hname).notAbove⟩
    · exact name_of_spine hp name hname
  have hwalk : t.walk follow mostLinks = t.descend follow (some (t.walk follow 39)) := rfl
  have hlook : t.look follow (locate (location root) path) =
      t.descend follow (some (t.walk follow 39)) [] (root ++ spine path) := by
    rw [look, Path.isEmpty_locate root hp.isAbsolute, if_neg (by simp), Path.segments_locate hnames hp,
      hwalk, descend, if_pos (Or.inl rfl)]
  rw [FileTree.entry, hlook] at he
  split at he
  · rename_i found entry hfound
    obtain ⟨rfl, hthere⟩ := of_descend hall (h.linkless_below _) hfound
    by_cases hroot : root = []
    · exact .inl hroot
    · refine .inr (h.directory_above (hthere (by simp [hroot])) (List.prefix_append root _) hroot ?_)
      intro hsame
      exact hp.spine_ne_nil (List.append_right_eq_self.mp hsame.symm)
  · exact Bool.noConfusion he
  · exact Bool.noConfusion he

end FileTree

/-! ## The relocation -/

namespace Command

variable {t after : FileTree} {root : Spine} {source target : String} {e : SystemError}

/--
A relocation that is refused has moved nothing. It has made directories on the way, at most, and if
the reason is not that a name is too long it has made none.
-/
theorem relocate_refused (h : t.Sound root) (hs : Proper source) (ht : Proper target)
    (hthere : t.entryAt root source ≠ none) (hout : ¬ spine source <+: spine target)
    (hrefused : relocate t (location root) source target = (after, some e)) :
    MadeWay root t (spine target).dropLast after ∧
      (e = .nameTooLong ∨ ∀ place : Spine, after.entries[place]? = t.entries[place]?) := by
  unfold relocate at hrefused
  cases hmake : t.makeWay (locate (location root) (Path.parent target)) with
  | mk made fault =>
      obtain ⟨hway, hheld, hleft⟩ := h.makeWay_parent ht hmake
      rw [hmake] at hrefused
      cases fault with
      | some refused =>
          obtain ⟨rfl, hsame⟩ := Prod.mk.inj hrefused
          obtain rfl := Option.some.inj hsame
          exact ⟨hway, (hleft _ rfl).imp_right fun heq place => by rw [heq]⟩
      | none =>
          dsimp only at hrefused
          cases hmove : made.rename (locate (location root) source) (locate (location root) target) with
          | ok moved =>
              rw [hmove] at hrefused
              exact absurd hrefused (by simp)
          | error refused =>
              rw [hmove] at hrefused
              obtain ⟨rfl, hsame⟩ := Prod.mk.inj hrefused
              obtain rfl := Option.some.inj hsame
              refine ⟨hway, ?_⟩
              by_cases hfree : made.entryAt root target = none
              · -- a free name in a directory is refused for its length only
                obtain ⟨entry, hentry⟩ := Option.ne_none_iff_exists'.mp hthere
                have hinto : (root ++ spine source).isPrefixOf (root ++ spine target) = false := by
                  rw [← Bool.not_eq_true, List.isPrefixOf_iff_prefix, List.prefix_append_right_inj]
                  exact hout
                have hlook := hway.sound.look_free ht (hheld rfl) hfree false
                rw [rename, hway.sound.entry_some hs (hway.kept _ _ hentry), hlook] at hmove
                by_cases hlong : longestName < ((spine target).getLast ht.spine_ne_nil).utf8ByteSize
                · rw [if_pos hlong] at hmove
                  exact .inl (Except.error.inj hmove).symm
                · rw [if_neg hlong] at hmove
                  simp [bind, Except.bind, pure, Except.pure, hinto] at hmove
              · -- where something stands all the directories above it were there
                right
                intro place
                rw [hway.entryAt_target ht] at hfree
                obtain ⟨old, hold⟩ := Option.ne_none_iff_exists'.mp hfree
                cases hwas : t.entries[place]? with
                | some entry => exact hway.kept _ _ hwas
                | none =>
                    by_contra hnew
                    obtain ⟨-, front, hne, hfront, rfl⟩ := hway.new place hwas hnew
                    have hshort : front ≠ spine target := by
                      rintro rfl
                      have hlength := hfront.length_le
                      have hpos := List.length_pos_iff.mpr hne
                      rw [List.length_dropLast] at hlength
                      omega
                    have hdir := h.directory_above hold
                      ((List.prefix_append_right_inj root).mpr (hfront.trans (List.dropLast_prefix _)))
                      (by simp [hne]) fun hsame => hshort (List.append_cancel_left hsame)
                    exact absurd (hwas.symm.trans hdir) (by simp)

end Command

/-! ## The lock -/

namespace Lock

variable {t : FileTree} {root : Spine} {p : Processes}

/-- A lock that nobody else holds: it names no process, or this one, or one that is gone. -/
def IsStale (p : Processes) (content : ByteArray) : Prop :=
  ∀ owner, meaning (some content) = .owned owner → owner = p.own ∨ p.isAlive owner = false

/-- A lock that is not taken is left as it is. -/
theorem tree_acquire_refused {at_ : String} (h : (acquire t at_ p).fault ≠ none) :
    (acquire t at_ p).tree = t := by
  have hclaim : ∀ log, (claim t at_ p log).fault ≠ none → (claim t at_ p log).tree = t := by
    intro log hfault
    unfold claim at hfault ⊢
    split
    · rfl
    · rename_i hwritten
      rw [hwritten] at hfault
      exact absurd rfl hfault
  unfold acquire at h ⊢
  split
  · rfl
  · rename_i hstate
    rw [hstate] at h
    exact hclaim _ h
  · rename_i hstate
    rw [hstate] at h
    exact hclaim _ h
  · rename_i owner hstate
    rw [hstate] at h
    dsimp only at h
    split
    · rfl
    · rename_i hours
      rw [if_neg hours] at h
      exact hclaim _ h

/-- What there is of a lock that is taken: a file in place of one that nobody held, or of none. -/
theorem acquired (h : t.Sound root) (hfree : (acquire t (FileTree.location root) p).fault = none) :
    Held root t (acquire t (FileTree.location root) p).tree ∧
    file? (acquire t (FileTree.location root) p).tree root = some (mark p.own) ∧
    (∀ place, place ≠ root ++ [lockFileName] →
      (acquire t (FileTree.location root) p).tree.entries[place]? = t.entries[place]?) ∧
    ∀ entry, t.entries[root ++ [lockFileName]]? = some entry →
      ∃ content mode, entry = .file content mode ∧ IsStale p content := by
  obtain ⟨hnotdir, content, mode, hput, hsound⟩ := of_acquire h hfree
  have hplain : ∀ entry, t.entryAt root lockFileName = some entry →
      ∃ content mode, entry = .file content mode := by
    intro entry he
    cases entry with
    | directory => exact absurd he hnotdir
    | file content mode => exact ⟨content, mode, rfl⟩
    | link target => exact absurd he (h.linkless _ target)
  have hready : Ready root t := ⟨h.grounded, hplain⟩
  obtain ⟨hunblocked, hfile⟩ : (∀ owner, ¬ Blocked t root p owner) ∧
      file? (acquire t (FileTree.location root) p).tree root = some (mark p.own) := by
    rcases hready.acquire p with ⟨owner, -, heq⟩ | ⟨hunblocked, -, hfile, -⟩
    · rw [heq] at hfree
      exact absurd hfree (by simp)
    · exact ⟨hunblocked, hfile⟩
  refine ⟨held_of_put hnotdir hput hsound, hfile, fun place hne => ?_, fun entry he => ?_⟩
  · rw [hput, getElem?_put, spine_lockFileName, if_neg (Ne.symm hne)]
  · have hentry : t.entryAt root lockFileName = some entry := by
      rw [FileTree.entryAt, spine_lockFileName]
      exact he
    obtain ⟨content, mode, rfl⟩ := hplain entry hentry
    refine ⟨content, mode, rfl, fun owner howned => ?_⟩
    have hfile : file? t root = some content := by rw [file?, hentry]
    by_contra hheld
    rw [not_or, Bool.not_eq_false] at hheld
    exact hunblocked owner ⟨hfile ▸ howned, hheld.1, hheld.2⟩

/-- The own lock is removed, and nothing else. -/
theorem getElem?_release (h : t.Sound root) (hown : p.own ≤ largestOwner)
    (hfile : file? t root = some (mark p.own)) (place : Spine) :
    (release t (FileTree.location root) p).1.entries[place]? =
      if place = root ++ [lockFileName] then none else t.entries[place]? := by
  obtain ⟨mode, hentry⟩ : ∃ mode, t.entryAt root lockFileName = some (.file (mark p.own) mode) := by
    rw [file?] at hfile
    split at hfile
    · rename_i found mode he
      exact ⟨mode, Option.some.inj hfile ▸ he⟩
    · exact absurd hfile (by simp)
  have hready : Ready root t := ⟨h.grounded, fun entry he =>
    ⟨_, _, Option.some.inj (he.symm.trans hentry)⟩⟩
  rw [FileTree.entryAt, spine_lockFileName] at hentry
  have hreleased : (release t (FileTree.location root) p).1 = t.prune (root ++ [lockFileName]) := by
    rw [release, hready.state_eq, hfile, meaning_mark hown]
    dsimp only
    rw [if_neg (by simp), hready.removeFile_eq hfile]
  rw [hreleased, getElem?_prune]
  by_cases hplace : place = root ++ [lockFileName]
  · rw [if_pos hplace, if_pos (hplace ▸ List.prefix_refl _)]
  · rw [if_neg hplace]
    split
    · -- nothing stands below a file
      rename_i hbelow
      obtain ⟨more, rfl⟩ := hbelow
      have hmore : more ≠ [] := by
        rintro rfl
        exact hplace (List.append_nil _)
      rw [List.append_assoc, h.below_none (by rw [hentry]; simp) (by simp) hmore]
    · rfl

end Lock

/-! ## The command -/

namespace Command

variable {e : Surroundings} {i : Invocation} {k : Keeper} {root : Spine}
  {source target src dst : String} {fault : Fault}

/-- What may be different at a place when a move has been refused. -/
inductive Remains (e : Surroundings) (i : Invocation) (source target : String) (fault : Fault)
    (after : FileTree) (place : Spine) : Prop
  /-- Nothing. -/
  | same (hsame : after.entries[place]? = e.tree.entries[place]?)
  /-- A lock that nobody held is gone. -/
  | lock {k : Keeper} {root : Spine} (hprep : prepare e i = .ok k)
      (hroot : k.project.root = location root) (hplace : place = root ++ [lockFileName])
      (hstale : ∃ content mode, e.tree.entries[place]? = some (.file content mode) ∧
        Lock.IsStale e.processes content)
      (hgone : after.entries[place]? = none)
  /-- A directory has been made on the way to a place with too long a name in it. -/
  | way {k : Keeper} {root front : Spine} {src dst : String} (hprep : prepare e i = .ok k)
      (hroot : k.project.root = location root) (hpaths : movePaths k source target = .ok (src, dst))
      (hfault : fault = .ofSystem .nameTooLong) (hplace : place = root ++ front)
      (hfront : front <+: (spine dst).dropLast) (hfree : e.tree.entries[place]? = none)
      (hmade : after.entries[place]? = some .directory)

/-- Where a move is accepted the root is a directory. -/
theorem rooted_of_movePaths (hsound : e.tree.Sound []) (hprep : prepare e i = .ok k)
    (htree : k.tree = e.tree) (hpaths : movePaths k source target = .ok (src, dst)) :
    ∃ root, k.Rooted root := by
  obtain ⟨hs, -, hthere, -⟩ := movePaths_checks hpaths
  have hfound := findRoot_of_prepare hprep
  obtain ⟨root, hroot, hnames⟩ : ∃ root, k.project.root = location root ∧
      ∀ name ∈ root, IsFileName name := by
    unfold findRoot at hfound
    split at hfound
    · rename_i real hreal
      rw [← Except.ok.inj hfound]
      exact hsound.names_of_realLocation hreal
    · exact absurd hfound (by simp)
    · exact absurd hfound (by simp)
  rw [Keeper.locate, Project.locate, hroot, htree] at hthere
  have hbelow := hsound.below hnames (hsound.holds_of_entry hnames hs hthere)
  exact ⟨root, rooted_of_prepare hbelow (hroot ▸ hfound) hprep⟩

/-- A move that is refused with the lock in its hands. -/
theorem moveLocked_refused {p : Processes} {op : Operation}
    (h : (moveLocked k p src dst op).status = .error fault) :
    ∃ after reason, relocate k.tree k.project.root src dst = (after, some reason) ∧
      fault = .ofSystem reason ∧
      (moveLocked k p src dst op).tree = (Lock.release after k.project.root p).1 := by
  have hscan := Keeper.sameTree_scan k
  unfold moveLocked at h ⊢
  dsimp only at h ⊢
  rw [hscan.tree, hscan.project] at h ⊢
  cases hdone : relocate k.tree k.project.root src dst with
  | mk after refused =>
      rw [hdone] at h
      cases refused with
      | none => exact absurd h (by simp)
      | some reason =>
          refine ⟨after, reason, rfl, (Except.error.inj h).symm, ?_⟩
          dsimp only [fail, unlock]

/-- What is left where a move is refused behind the lock: all that was there but the lock, and the way. -/
theorem getElem?_of_locked {t after : FileTree} {p : Processes} {reason : SystemError}
    (h : t.Sound root) (hs : Proper src) (hd : Proper dst) (hthere : t.entryAt root src ≠ none)
    (hout : Path.isUnder src dst = false) (hown : p.own ≤ Lock.largestOwner)
    (hfree : (Lock.acquire t (location root) p).fault = none)
    (hdone : relocate (Lock.acquire t (location root) p).tree (location root) src dst =
      (after, some reason)) (place : Spine) :
    (Lock.release after (location root) p).1.entries[place]? = t.entries[place]? ∨
    (place = root ++ [lockFileName] ∧
      (Lock.release after (location root) p).1.entries[place]? = none ∧
      ∃ content mode, t.entries[place]? = some (.file content mode) ∧ Lock.IsStale p content) ∨
    (reason = .nameTooLong ∧ t.entries[place]? = none ∧
      (Lock.release after (location root) p).1.entries[place]? = some .directory ∧
      ∃ front, place = root ++ front ∧ front <+: (spine dst).dropLast) := by
  obtain ⟨hheld, hmark, hsame, hstale⟩ := Lock.acquired h hfree
  have hsource : (Lock.acquire t (location root) p).tree.entryAt root src ≠ none := by
    by_cases hlock : src = lockFileName
    · obtain ⟨content, mode, hentry⟩ := hheld.lock
      simp [hlock, hentry]
    · rwa [hheld.same src hs hlock]
  have hnot : ¬ spine src <+: spine dst := by
    rw [← Path.isUnder_iff_spine hs.normal hd.normal, hout]
    simp
  obtain ⟨hway, hwhy⟩ := relocate_refused hheld.sound hs hd hsource hnot hdone
  have hstill : Lock.file? after root = some (Lock.mark p.own) := by
    rw [Lock.file?] at hmark ⊢
    split at hmark
    · rename_i content mode hentry
      rw [entryAt, hway.kept _ _ hentry]
      exact hmark
    · exact absurd hmark (by simp)
  rw [Lock.getElem?_release hway.sound hown hstill]
  by_cases hplace : place = root ++ [lockFileName]
  · rw [if_pos hplace]
    cases hwas : t.entries[place]? with
    | none => exact .inl rfl
    | some entry =>
        obtain ⟨content, mode, rfl, hnobody⟩ := hstale entry (hplace ▸ hwas)
        exact .inr (.inl ⟨hplace, rfl, content, mode, rfl, hnobody⟩)
  rw [if_neg hplace]
  have hheldPlace := hsame place hplace
  rcases hwhy with rfl | hnothing
  · cases hwas : t.entries[place]? with
    | some entry => exact .inl (hway.kept _ _ (hheldPlace.trans hwas))
    | none =>
        by_cases hnone : after.entries[place]? = none
        · exact .inl hnone
        · obtain ⟨hdir, front, -, hfront, hsplit⟩ := hway.new place (hheldPlace.trans hwas) hnone
          exact .inr (.inr ⟨rfl, rfl, hdir, front, hsplit, hfront⟩)
  · exact .inl ((hnothing place).trans hheldPlace)

/-- Two notes, and the lock of a process that is gone. -/
def leftSite : Surroundings := site [([lockFileName], note "4000000000\n"), (["a.md"], note "# A\n"),
  (["f.md"], note "# F\n")]

/-- Something in a directory that is not there is taken as it is written. -/
theorem settle_of_missing (hroot : ∀ name ∈ root, IsFileName name) {path : String} (hp : Proper path)
    {reason : SystemError}
    (hmissing : t.realLocation (location (root ++ (spine path).dropLast)) = .error reason) :
    settle t (locate (location root) path) = locate (location root) path := by
  have hnames : (Path.components (locate (location root) path)).map String.ofList =
      "/" :: (root ++ spine path) := by
    rw [Path.components_locate hroot hp.isAbsolute, hp.filter_named, List.map_cons,
      List.map_append, List.map_map]
    simp [spine]
  obtain ⟨front, last, hsplit⟩ : ∃ front last, spine path = front ++ [last] :=
    ⟨_, _, (List.dropLast_concat_getLast hp.spine_ne_nil).symm⟩
  rw [settle, hnames]
  rw [hsplit, List.dropLast_concat] at hmissing
  have hlast : ("/" :: (root ++ spine path)).getLast? = some last := by
    rw [hsplit, ← List.append_assoc, ← List.cons_append, List.getLast?_concat]
  have hparent : ("/" :: (root ++ spine path)).dropLast.drop 1 = root ++ front := by
    rw [hsplit, ← List.append_assoc, ← List.cons_append, List.dropLast_concat, List.drop_one,
      List.tail_cons]
  dsimp only
  rw [hlast, hparent]
  dsimp only
  split
  · rfl
  · rw [FileTree.location] at hmissing
    rw [hmissing]

/-- A path below the root means itself where the directory it lies in is not there. -/
theorem projectPath_of_missing (hr : k.Rooted root) {path : String} (hp : Proper path)
    {reason : SystemError}
    (hmissing : k.tree.realLocation (location (root ++ (spine path).dropLast)) = .error reason) :
    projectPath k path = .ok path := by
  have hread : k.project.relative? (locate (location root) path) = some path := by
    rw [Project.relative?, hr.located, hp.fromRoot? hr.sound.rootNames]
  rw [projectPath, hr.locate_eq, settle_of_missing hr.sound.rootNames hp hmissing, hread]
  dsimp only
  rw [if_neg (by simpa using hp.nonempty)]

/-- A move to a free place, and not into what is moved, is accepted. -/
theorem movePaths_of_free (hr : k.Rooted root) (hsource : projectPath k source = .ok src)
    (htarget : projectPath k target = .ok dst) (hthere : k.tree.entryAt root src ≠ none)
    (hfree : k.tree.entryAt root dst = none) (hout : Path.isUnder src dst = false) :
    movePaths k source target = .ok (src, dst) := by
  have hs := proper_projectPath hsource
  have hd := proper_projectPath htarget
  obtain ⟨entry, hentry⟩ := Option.ne_none_iff_exists'.mp hthere
  have hfound : (k.tree.entry false (k.locate src)).isOk = true := by
    rw [hr.locate_eq, hr.sound.entry_some hs hentry]
    rfl
  have hdir : k.tree.isDirectory (k.locate dst) = false := by
    rw [← Bool.not_eq_true, hr.locate_eq, hr.sound.isDirectory_iff hd, hfree]
    simp
  have hnone : k.tree.isThere (k.locate dst) = false := by
    rw [← Bool.not_eq_true, hr.locate_eq, hr.sound.isThere_iff hd, hfree]
    simp
  simp [movePaths, bind, Except.bind, pure, Except.pure, hsource, htarget, hfound, hdir, hnone, hout]

/-- Nothing is moved to a name that is too long, and that is found when way has been made. -/
theorem relocate_long (h : t.Sound root) (hs : Proper source) (ht : Proper target)
    (hthere : t.entryAt root source ≠ none) (hfree : t.entryAt root target = none)
    (hlong : longestName < ((spine target).getLast ht.spine_ne_nil).utf8ByteSize)
    (hmake : t.makeWay (locate (location root) (Path.parent target)) = (after, none)) :
    relocate t (location root) source target = (after, some .nameTooLong) := by
  obtain ⟨hway, hheld, -⟩ := h.makeWay_parent ht hmake
  obtain ⟨entry, hentry⟩ := Option.ne_none_iff_exists'.mp hthere
  have hlook := hway.sound.look_free ht (hheld rfl) ((hway.entryAt_target ht).trans hfree) false
  rw [if_pos hlong] at hlook
  have hmove : after.rename (locate (location root) source) (locate (location root) target) =
      .error .nameTooLong := by
    rw [rename, hway.sound.entry_some hs (hway.kept _ _ hentry), hlook]
    rfl
  unfold relocate
  rw [hmake]
  dsimp only
  rw [hmove]

/-- A move whose relocation is refused is refused with it, and gives back the lock. -/
theorem runMove_of_refused (hr : k.Rooted root) {p : Processes} {reason : SystemError}
    (hpaths : movePaths k source target = .ok (src, dst)) (hwrite : k.project.settings.dryRun = false)
    (hfree : (Lock.acquire k.tree (location root) p).fault = none)
    (hdone : relocate (Lock.acquire k.tree (location root) p).tree (location root) src dst =
      (after, some reason)) :
    (runMove k p source target).status = .error (.ofSystem reason) ∧
    (runMove k p source target).tree = (Lock.release after (location root) p).1 := by
  have hlocked : ∀ (held : Keeper) (op : Operation), held.project.root = location root →
      held.tree = (Lock.acquire k.tree (location root) p).tree →
      (moveLocked held p src dst op).status = .error (.ofSystem reason) ∧
      (moveLocked held p src dst op).tree = (Lock.release after (location root) p).1 := by
    intro held op hroot htree
    have hscan := Keeper.sameTree_scan held
    unfold moveLocked
    dsimp only
    rw [hscan.tree, hscan.project, hroot, htree, hdone]
    exact ⟨rfl, by dsimp only [fail, unlock]; rw [hroot]⟩
  unfold runMove
  rw [hpaths]
  dsimp only
  rw [hwrite, if_neg (by simp), hr.located, hfree]
  exact hlocked _ _ hr.located rfl

/-- A note with nothing around it. -/
def bareSite : Surroundings := site [(["a.md"], note "# A\n")]

/-- The note, with the lock taken. -/
def bareHeld : FileTree := (Lock.acquire bareSite.tree (location ["w"]) bareSite.processes).tree

/-- A name that no directory may hold. -/
def longName : List Char := List.replicate 256 'x' ++ ".md".toList

/-- The name in a directory that is not there. -/
def longPath : String := Path.join ["new".toList, longName]

theorem proper_longPath : Proper longPath ∧ spine longPath = ["new", String.ofList longName] ∧
    Path.parent longPath = "new" := by
  have hhead : longName = 'x' :: (List.replicate 255 'x' ++ ".md".toList) := rfl
  have hlong : ∀ c ∈ longName, Path.isSeparator c = false := by
    intro c hc
    rcases List.mem_append.mp hc with hc | hc
    · rw [List.eq_of_mem_replicate hc]
      rfl
    · have hending : ".md".toList.any Path.isSeparator = false := by decide +kernel
      exact Bool.eq_false_iff.mpr (List.any_eq_false.mp hending c hc)
  have hnames : ∀ s ∈ ["new".toList, longName], Path.IsName s := by
    rw [List.forall_mem_cons, List.forall_mem_singleton]
    refine ⟨⟨by decide, by decide, by decide⟩, ?_⟩
    rw [hhead]
    exact ⟨List.cons_ne_nil _ _, fun h => absurd (List.cons.inj h).1 (by decide),
      fun h => absurd (List.cons.inj h).1 (by decide)⟩
  have hplain : ∀ s ∈ ["new".toList, longName], ∀ c ∈ s, Path.isSeparator c = false := by
    have hnew : "new".toList.any Path.isSeparator = false := by decide +kernel
    rw [List.forall_mem_cons, List.forall_mem_singleton]
    exact ⟨fun c hc => Bool.eq_false_iff.mpr (List.any_eq_false.mp hnew c hc), hlong⟩
  have htidy : Path.Tidy ["new".toList, longName] := Path.tidy_names hnames hplain
  have hparent : Path.parent (Path.join (["new".toList] ++ [longName])) = Path.join ["new".toList] :=
    Path.parent_join hlong
  refine ⟨Path.proper_join htidy hnames (by simp), ?_, hparent.trans (by decide +kernel)⟩
  rw [longPath, Path.spine_join htidy]
  simp

def keeperOfBareSite : Keeper := .make (.make "/w" .defaults) bareSite.tree

theorem prepare_bareSite : prepare bareSite plainCall = .ok keeperOfBareSite := rfl

theorem sound_bareSite : bareSite.tree.Sound [] ∧ bareSite.tree.Sound ["w"] := by
  have hsound : bareSite.tree.Sound [] := sound_of_entries (by decide +kernel) (by decide +kernel)
  exact ⟨hsound, hsound.below (by decide) (.inr (by decide +kernel))⟩

/-- The long name is free, and the note may be moved there as far as can be told beforehand. -/
theorem movePaths_longPath : bareSite.tree.entryAt ["w"] longPath = none ∧
    movePaths keeperOfBareSite "a.md" longPath = .ok ("a.md", longPath) := by
  obtain ⟨hlong, hspine, -⟩ := proper_longPath
  have hnew : bareSite.tree.entries[["w", "new"]]? = none := by decide +kernel
  have hfree : bareSite.tree.entryAt ["w"] longPath = none := by
    rw [entryAt, hspine]
    exact @Sound.below_none _ _ sound_bareSite.2 ["new"] [String.ofList longName] (by simp [hnew])
      (by simp) (by simp)
  have hsource : projectPath keeperOfBareSite "a.md" = .ok "a.md" := by rfl
  have hmissing : bareSite.tree.realLocation (location (["w"] ++ (spine longPath).dropLast)) =
      .error .noEntry := by
    rw [hspine]
    rfl
  have hout : Path.isUnder "a.md" longPath = false := by
    rw [← Bool.not_eq_true, Path.isUnder_iff_spine (by rfl) hlong.normal, hspine]
    decide +kernel
  have hr := rooted_of_prepare sound_bareSite.2 rfl prepare_bareSite
  exact ⟨hfree, movePaths_of_free hr hsource (projectPath_of_missing hr hlong hmissing)
    (by decide +kernel) hfree hout⟩

end Command

end LinkKeeper
