import LinkKeeper.Proofs.Relocating
import LinkKeeper.Proofs.Rescanning

/-!
# Before and after a move

A command that moves something opens the tree, makes out the two paths, and, unless nothing
should be written, holds the lock while it works. That nothing should be written is one setting
of the keeper, and no reading of the tree looks at it: a keeper with that setting has the same
index, and plans the same. The lock is a file that is not read; taking it and giving it back
changes no other path.
-/

namespace LinkKeeper

open FileTree
open Path (locate spine Proper)

/-- The same call, but nothing is to be written. -/
def Invocation.dry (i : Invocation) : Invocation :=
  { i with overrides := { i.overrides with dryRun := true } }

namespace Keeper

variable {k : Keeper} {root : Spine}

/-! ## A keeper that writes nothing -/

/-- The same keeper, but nothing is to be written. -/
def dry (k : Keeper) : Keeper :=
  { k with project := { k.project with settings := { k.project.settings with dryRun := true } } }

theorem dry_indexFile (k : Keeper) (path : String) :
    k.dry.indexFile path = ((k.indexFile path).1.dry, (k.indexFile path).2) := by
  have hread : k.dry.tree.readText (k.dry.locate path) k.dry.project.settings.lenientText =
      k.tree.readText (k.locate path) k.project.settings.lenientText := rfl
  unfold indexFile
  rw [hread]
  cases k.tree.readText (k.locate path) k.project.settings.lenientText with
  | error fault => rfl
  | ok content =>
      have hfound : Links.find k.dry.project.rule path content =
        Links.find k.project.rule path content := rfl
      dsimp only
      rw [hfound]
      cases (Links.find k.project.rule path content).fallback <;> rfl

theorem dry_scanFile (state : Keeper × ScanStats) (location : String) :
    scanFile (state.1.dry, state.2) location =
      ((scanFile state location).1.dry, (scanFile state location).2) := by
  obtain ⟨k, stats⟩ := state
  have hpath : k.dry.project.relative? location = k.project.relative? location := rfl
  unfold scanFile
  dsimp only
  rw [hpath]
  cases k.project.relative? location with
  | none => rfl
  | some path =>
      have hmonitors : k.dry.project.monitors path = k.project.monitors path := rfl
      dsimp only
      rw [hmonitors, dry_indexFile]
      cases k.project.monitors path with
      | false => rfl
      | true =>
          obtain ⟨next, result⟩ := k.indexFile path
          cases result <;> rfl

theorem dry_foldl_scanFile (state : Keeper × ScanStats) (locations : List String) :
    locations.foldl scanFile (state.1.dry, state.2) =
      ((locations.foldl scanFile state).1.dry, (locations.foldl scanFile state).2) := by
  induction locations generalizing state with
  | nil => rfl
  | cons location rest ih => rw [List.foldl_cons, dry_scanFile, ih, List.foldl_cons]

/-- **A keeper that writes nothing reads the same.** -/
theorem Rooted.dry_scan (h : k.Rooted root) : k.dry.scan.1 = k.scan.1.dry := by
  have hdry : k.dry.Rooted root := ⟨h.located, h.sound⟩
  have hreached : k.dry.reachedFiles (k.dry.locate "") root =
      k.reachedFiles (k.locate "") root := rfl
  unfold Keeper.scan
  rw [hdry.scanUnder_root, h.scanUnder_root, hreached, dry_foldl_scanFile (k, ⟨0, 0, 0⟩)]
  rfl

/-- A keeper that writes nothing plans the same. -/
theorem dry_preview (k : Keeper) (op : Operation) : k.dry.preview op = k.preview op := by
  cases op <;> rfl

/-! ## The project of a keeper -/

theorem project_scanUnder (k : Keeper) (dir : String) :
    (k.scanUnder dir).1.project = k.project := by
  unfold Keeper.scanUnder
  dsimp only
  split
  · rfl
  · rfl
  · exact project_scanFile _ _
  · exact foldl_keeps (fun state : Keeper × ScanStats => state.1.project) project_scanFile _ _

theorem sameTree_scan (k : Keeper) : SameTree k k.scan.1 := by
  refine ⟨?_, ?_⟩
  · exact (project_note _ _).trans (project_scanUnder k "")
  · exact (tree_note _ _).trans (tree_scanUnder k "")

theorem project_onDirectoryMoved (k : Keeper) (source target : String) :
    (k.onDirectoryMoved source target).1.project = k.project := by
  unfold Keeper.onDirectoryMoved
  dsimp only
  rw [project_note, foldl_keeps Keeper.project fun k path => (sameTree_reread k path).project,
    project_scanUnder, foldl_keeps Keeper.project fun k path => (sameTree_forget k path).project,
    foldl_keeps (fun state : Keeper × List String => state.1.project) fun state move => by
      unfold Keeper.refile
      rfl]
  rfl

theorem project_onMoved (k : Keeper) (source target : String) :
    (k.onMoved source target).1.project = k.project := by
  unfold Keeper.onMoved
  split
  · exact project_onDirectoryMoved k source target
  · dsimp only
    rw [project_note, foldl_keeps Keeper.project fun k path => (sameTree_reread k path).project,
      (sameTree_reread _ _).project]
    rfl

/-- A keeper that has answered a move has the project that it had. -/
theorem project_apply (k : Keeper) {op : Operation} {source target : String}
    (hop : op = .moved source target ∨ op = .directoryMoved source target) :
    (k.apply op).1.project = k.project := by
  rw [(sameTree_apply k op).1.project]
  rcases hop with rfl | rfl
  · exact project_onMoved _ source target
  · exact project_onDirectoryMoved _ source target

end Keeper

/-! ## The lock -/

namespace FileTree

variable {t : FileTree} {root : Spine} {path : String}

/-- Writing a file by path puts it under the path. -/
theorem Sound.of_write (h : t.Sound root) (hp : Proper path) {content : ByteArray} {mode : Nat}
    {written : FileTree}
    (hw : t.write (locate (location root) path) content mode = .ok written) :
    t.entryAt root path ≠ some .directory ∧
      ∃ kept, written = t.put (root ++ spine path) (.file content kept) ∧ written.Sound root := by
  rw [write] at hw
  cases he : t.entryAt root path with
  | some entry =>
      rw [h.look_some hp he] at hw
      cases entry with
      | file old kept =>
          obtain rfl := Except.ok.inj hw
          exact ⟨by simp, kept, rfl, h.sound_replaced hp he content⟩
      | directory | link _ => exact absurd hw (by simp)
  | none =>
      cases hlook : t.look true (locate (location root) path) with
      | error e =>
          rw [hlook] at hw
          exact absurd hw (by simp)
      | ok spot =>
          rw [hlook] at hw
          cases spot with
          | found place entry => exact absurd hlook (h.look_none hp he true place entry)
          | vacant place =>
              obtain ⟨rfl, hsound⟩ := h.sound_vacant hp hlook content mode
              obtain rfl := Except.ok.inj hw
              exact ⟨by simp, mode, rfl, hsound⟩

/-- Removing a file by path leaves the other paths alone. -/
theorem Sound.of_removeFile (h : t.Sound root) (hp : Proper path) {less : FileTree}
    (hr : t.removeFile (locate (location root) path) = .ok less) :
    less.Sound root ∧ ∀ other, Proper other → other ≠ path →
      less.entryAt root other = t.entryAt root other := by
  rw [removeFile] at hr
  cases he : t.entryAt root path with
  | none =>
      obtain ⟨e, hnone⟩ := h.entry_none hp he false
      rw [hnone] at hr
      exact absurd hr (by simp)
  | some entry =>
      rw [h.entry_some hp he] at hr
      have hleaf : t.entries[root ++ spine path]? ≠ some .directory := by
        intro hdir
        rw [entryAt, hdir] at he
        obtain rfl := Option.some.inj he
        exact absurd hr (by simp)
      obtain rfl : t.prune (root ++ spine path) = less := by
        cases entry with
        | directory => exact absurd he hleaf
        | file _ _ | link _ => exact Except.ok.inj hr
      -- nothing stands below what is no directory, so one entry goes
      have hone : ∀ other : Spine, (t.prune (root ++ spine path)).entries[other]? =
          if other = root ++ spine path then none else t.entries[other]? := by
        intro other
        rw [getElem?_prune]
        by_cases hpre : root ++ spine path <+: other
        · rw [if_pos hpre]
          obtain ⟨more, rfl⟩ := hpre
          by_cases hmore : more = []
          · rw [if_pos (by simp [hmore])]
          · rw [if_neg (by simp [hmore]), List.append_assoc,
              h.below_none hleaf hp.spine_ne_nil hmore]
        · rw [if_neg hpre, if_neg]
          rintro rfl
          exact hpre (List.prefix_refl _)
      refine ⟨h.without (spine path) hleaf hone, fun other hother hne => ?_⟩
      rw [entryAt, hone, if_neg]
      · rfl
      · intro hsame
        exact hne (Path.eq_of_spine_eq hother.normal hp.normal (List.append_cancel_left hsame))

end FileTree

/-- The path of the lock. -/
theorem proper_lockFileName : Proper lockFileName := ⟨by decide, by decide, by decide⟩

theorem Project.monitors_lockFileName (p : Project) : p.monitors lockFileName = false := by
  rw [Project.monitors, Project.ignores, Settings.ignores]
  simp

namespace Lock

variable {t : FileTree} {root : Spine} {p : Processes}

/-- What a lock that is taken leaves: a file that is not read, and all else as it was. -/
theorem of_claim (h : t.Sound root) {log : List LogEntry}
    (hfree : (claim t (FileTree.location root) p log).fault = none) :
    t.entryAt root lockFileName ≠ some .directory ∧
      ∃ content mode, (claim t (FileTree.location root) p log).tree =
          t.put (root ++ spine lockFileName) (.file content mode) ∧
        (claim t (FileTree.location root) p log).tree.Sound root := by
  unfold claim at hfree ⊢
  cases hw : t.write (Lock.location (FileTree.location root)) (toString p.own ++ "\n").toUTF8
      newMode with
  | error e =>
      rw [hw] at hfree
      exact absurd hfree (by simp)
  | ok written =>
      obtain ⟨hnotdir, mode, hput, hsound⟩ := h.of_write proper_lockFileName hw
      exact ⟨hnotdir, _, mode, hput, hsound⟩

theorem of_acquire (h : t.Sound root)
    (hfree : (acquire t (FileTree.location root) p).fault = none) :
    t.entryAt root lockFileName ≠ some .directory ∧
      ∃ content mode, (acquire t (FileTree.location root) p).tree =
          t.put (root ++ spine lockFileName) (.file content mode) ∧
        (acquire t (FileTree.location root) p).tree.Sound root := by
  unfold acquire at hfree ⊢
  split at hfree
  · exact absurd hfree (by simp)
  · exact of_claim h hfree
  · exact of_claim h hfree
  · split at hfree
    · exact absurd hfree (by simp)
    · rename_i hours
      rw [if_neg hours]
      exact of_claim h hfree

/-- What is there while a lock is held. -/
structure Held (root : Spine) (t held : FileTree) : Prop where
  sound : held.Sound root
  free : t.entryAt root lockFileName ≠ some .directory
  lock : ∃ content mode, held.entryAt root lockFileName = some (.file content mode)
  same : ∀ path, Proper path → path ≠ lockFileName → held.entryAt root path = t.entryAt root path

theorem held_of_put {content : ByteArray} {mode : Nat}
    (hfree : t.entryAt root lockFileName ≠ some .directory) {held : FileTree}
    (hput : held = t.put (root ++ spine lockFileName) (.file content mode))
    (hsound : held.Sound root) : Held root t held := by
  subst hput
  refine ⟨hsound, hfree, ⟨content, mode, ?_⟩, fun path hp hne => ?_⟩
  · rw [entryAt_put t root proper_lockFileName _ proper_lockFileName, if_pos rfl]
  · rw [entryAt_put t root proper_lockFileName _ hp, if_neg hne]

/-- Giving the lock back changes no other path. -/
theorem of_release (h : t.Sound root) :
    (release t (FileTree.location root) p).1.Sound root ∧
      ∀ path, Proper path → path ≠ lockFileName →
        (release t (FileTree.location root) p).1.entryAt root path = t.entryAt root path := by
  unfold release
  split
  · split
    · exact ⟨h, fun _ _ _ => rfl⟩
    · cases hr : t.removeFile (Lock.location (FileTree.location root)) with
      | error e => exact ⟨h, fun _ _ _ => rfl⟩
      | ok less => exact h.of_removeFile proper_lockFileName hr
  · exact ⟨h, fun _ _ _ => rfl⟩

end Lock

/-! ## Opening a log -/

namespace FileTree

/-- Where a look-up may stand: if it is below the root, in a directory. -/
def Stands (t : FileTree) (root dir : Spine) : Prop := root <+: dir → t.Holds dir

/-- A name that nothing stands under, in a place that a look-up gets to. -/
def IsFree (t : FileTree) (root place : Spine) : Prop :=
  t.entries[place]? = none ∧
    ∃ dir name, place = dir ++ [name] ∧ t.Stands root dir ∧ IsFileName name

variable {t : FileTree} {root : Spine}

theorem Sound.stands_dropLast (h : t.Sound root) {dir : Spine} (hdir : t.Stands root dir) :
    t.Stands root dir.dropLast := by
  intro hbelow
  rcases hdir (hbelow.trans (List.dropLast_prefix dir)) with rfl | hentry
  · exact .inl rfl
  · obtain ⟨more, hmore⟩ := hbelow
    rcases List.eq_nil_or_concat dir with rfl | ⟨front, last, rfl⟩
    · exact .inl rfl
    · rw [List.concat_eq_append] at hentry hmore ⊢
      rw [List.dropLast_concat] at hmore ⊢
      subst hmore
      exact h.held more last _ hentry

/--
The free name that a look-up ends with. Up to the root there may be links, so all that can be
said of where a look-up stands is that it is in a directory as long as it is below the root.
-/
theorem Sound.isFree_of_descend (h : t.Sound root) {follow : Bool}
    {atLink : Option (Spine → List String → Except SystemError Spot)} {place : Spine}
    (hgo : ∀ go, atLink = some go → ∀ dir names, t.Stands root dir →
      (∀ name ∈ names, '/' ∉ name.toList) → go dir names = .ok (.vacant place) →
      t.IsFree root place)
    {dir : Spine} {names : List String} (hdir : t.Stands root dir)
    (hnames : ∀ name ∈ names, '/' ∉ name.toList)
    (hv : t.descend follow atLink dir names = .ok (.vacant place)) : t.IsFree root place := by
  induction names generalizing dir with
  | nil => exact absurd hv (by simp [descend])
  | cons name rest ih =>
      have hrest : ∀ name ∈ rest, '/' ∉ name.toList :=
        fun other hother => hnames other (List.mem_cons_of_mem _ hother)
      rw [descend] at hv
      split at hv
      · exact ih hdir hrest hv
      · rename_i hplain
        split at hv
        · exact ih (h.stands_dropLast hdir) hrest hv
        · rename_i habove
          split at hv
          · exact absurd hv (by simp)
          · rename_i hshort
            dsimp only at hv
            split at hv
            · rename_i hnone
              split at hv
              · obtain rfl : dir ++ [name] = place := by simpa using hv
                refine ⟨hnone, dir, name, rfl, hdir, ?_⟩
                exact ⟨fun he => hplain (.inl he), fun he => hplain (.inr he), habove,
                  hnames name List.mem_cons_self, Nat.not_lt.mp hshort⟩
              · exact absurd hv (by simp)
            · rename_i hentry
              exact ih (fun _ => .inr hentry) hrest hv
            · split at hv <;> exact absurd hv (by simp)
            · rename_i target hlink
              split at hv
              · exact absurd hv (by simp)
              · split at hv
                · exact absurd hv (by simp)
                · rename_i go
                  refine hgo go rfl _ _ ?_ ?_ hv
                  · split
                    · exact fun _ => .inl rfl
                    · exact hdir
                  · intro other hother
                    exact (List.mem_append.mp hother).elim
                      (Path.not_mem_fileSegments target other) (hrest other)

theorem Sound.isFree_of_walk (h : t.Sound root) {follow : Bool} {links : Nat} {place dir : Spine}
    {names : List String} (hdir : t.Stands root dir) (hnames : ∀ name ∈ names, '/' ∉ name.toList)
    (hv : t.walk follow links dir names = .ok (.vacant place)) : t.IsFree root place := by
  induction links generalizing dir names with
  | zero => exact h.isFree_of_descend (fun _ hgo => absurd hgo (by simp)) hdir hnames hv
  | succ links ih =>
      refine h.isFree_of_descend (fun go hgo dir names hdir hnames hv => ?_) hdir hnames hv
      obtain rfl := Option.some.inj hgo
      exact ih hdir hnames hv

/-- A new file under a free name is not in the way of anything, be it below the root or not. -/
theorem Sound.put_free (h : t.Sound root) {place : Spine} (hfree : t.IsFree root place)
    (content : ByteArray) (mode : Nat) : (t.put place (.file content mode)).Sound root := by
  obtain ⟨hnone, dir, name, rfl, hdir, hname⟩ := hfree
  have hnotroot : ∀ above, above <+: root → dir ++ [name] ≠ above := by
    rintro above habove rfl
    rcases h.rootHolds _ habove with hnil | hentry
    · exact absurd hnil (by simp)
    · rw [hnone] at hentry
      exact absurd hentry (by simp)
  by_cases hbelow : root <+: dir
  · obtain ⟨more, rfl⟩ := hbelow
    have hholds := hdir (List.prefix_append root more)
    rw [List.append_assoc] at hnone ⊢
    refine h.put_file (fun other hother => ?_) (by rwa [List.dropLast_concat]) ?_ _ _
    · rcases List.mem_append.mp hother with hmore | hlast
      · rcases hholds with hnil | hentry
        · exact absurd hmore (by simp [(List.append_eq_nil_iff.mp hnil).2])
        · exact h.names more _ hentry other hmore
      · exact List.mem_singleton.mp hlast ▸ hname
    · rw [hnone]
      simp
  · -- the file is not below the root, and no directory on the way to it
    have hother : ∀ rest : Spine,
        (t.put (dir ++ [name]) (.file content mode)).entries[root ++ rest]? =
          t.entries[root ++ rest]? := by
      intro rest
      rw [getElem?_put, if_neg]
      intro hsame
      rcases List.prefix_concat_iff.mp ⟨rest, hsame.symm⟩ with heq | hprefix
      · exact hnotroot root (List.prefix_refl root) heq.symm
      · exact hbelow hprefix
    have hholds : ∀ above, t.Holds above → dir ++ [name] ≠ above →
        (t.put (dir ++ [name]) (.file content mode)).Holds above := by
      intro above ha hne
      refine ha.imp_right fun hentry => ?_
      rw [getElem?_put, if_neg hne, hentry]
    refine ⟨h.rootNames, fun above ha => hholds above (h.rootHolds above ha) (hnotroot above ha),
      fun rest entry he => h.names rest entry (hother rest ▸ he), fun rest last entry he => ?_,
      fun rest target => by rw [hother]; exact h.linkless rest target⟩
    rw [List.append_assoc, hother, ← List.append_assoc] at he
    refine hholds _ (h.held rest last entry he) fun hsame => ?_
    rcases h.held rest last entry he with hnil | hentry
    · exact absurd (hsame.trans hnil) (by simp)
    · rw [← hsame, hnone] at hentry
      exact absurd hentry (by simp)

/-- Opening a file leaves a tree without links. -/
theorem Sound.of_openEnd (h : t.Sound root) {place : String} {opened : FileTree}
    (ho : t.openEnd place = .ok opened) : opened.Sound root := by
  unfold openEnd at ho
  split at ho
  · exact Except.ok.inj ho ▸ h
  · exact absurd ho (by simp)
  · rename_i spine hlook
    rw [← Except.ok.inj ho]
    unfold look at hlook
    split at hlook
    · exact absurd hlook (by simp)
    · exact h.put_free
        (h.isFree_of_walk (fun _ => .inl rfl) (Path.not_mem_fileSegments place) hlook) _ _
  · exact absurd ho (by simp)

end FileTree

/-! ## What a move starts from -/

/-- Settings are accepted or not whether or not anything is to be written. -/
theorem Settings.check_dry (s : Settings) : ({ s with dryRun := true } : Settings).check =
    s.check.map fun checked => { checked with dryRun := true } := by
  have hlevel : ({ s with dryRun := true } : Settings).level = s.level := rfl
  unfold check
  dsimp only
  rw [hlevel]
  cases s.monitoredExtensions.find? fun e => !isDotted e with
  | some bad => rfl
  | none =>
      dsimp only
      split
      · rfl
      · split
        · rfl
        · split
          · rfl
          · cases s.level <;> rfl

namespace Command

variable {e : Surroundings} {i : Invocation} {k : Keeper} {root : Spine}

/-- What a command starts from, and what it starts from when nothing is to be written. -/
theorem prepare_dry (h : prepare e i = .ok k) :
    k.index = .empty ∧ prepare e i.dry = .ok k.dry ∧
      openLog e.tree k.project.root k.project.settings = .ok k.tree := by
  have hroot : findRoot e i.dry = findRoot e i := rfl
  have hload : loadSettings e i.dry = loadSettings e i := rfl
  have hover : ∀ s : Settings, s.override i.dry.overrides =
      { s.override i.overrides with dryRun := true } := fun s => by
    simp [Settings.override, Invocation.dry]
  unfold prepare at h ⊢
  rw [hroot, hload]
  cases hfound : findRoot e i with
  | error fault =>
      rw [hfound] at h
      exact absurd h (by simp [bind, Except.bind])
  | ok place =>
      rw [hfound] at h
      dsimp only [bind, Except.bind] at h ⊢
      cases hloaded : loadSettings e i place with
      | error fault =>
          rw [hloaded] at h
          exact absurd h (by simp)
      | ok settings =>
          rw [hloaded] at h
          dsimp only at h ⊢
          cases hchecked : (settings.override i.overrides).check with
          | error fault =>
              rw [hchecked] at h
              exact absurd h (by simp)
          | ok checked =>
              have hlog : openLog e.tree place { checked with dryRun := true } =
                openLog e.tree place checked := rfl
              rw [hchecked] at h
              rw [hover, Settings.check_dry, hchecked]
              dsimp only [Except.map] at h ⊢
              rw [hlog]
              cases hopened : openLog e.tree place checked with
              | error fault =>
                  rw [hopened] at h
                  exact absurd h (by simp)
              | ok tree =>
                  rw [hopened] at h
                  obtain rfl := Except.ok.inj h
                  exact ⟨rfl, rfl, hopened⟩

/-- What a command begins with: a root that has been found, and an index with nothing in it. -/
theorem prepare_cases (h : prepare e i = .ok k) :
    ∃ place settings tree, findRoot e i = .ok place ∧ k = .make (.make place settings) tree := by
  unfold prepare at h
  cases hfound : findRoot e i with
  | error fault =>
      rw [hfound] at h
      exact absurd h (by simp [bind, Except.bind])
  | ok place =>
      rw [hfound] at h
      dsimp only [bind, Except.bind] at h
      split at h
      · exact absurd h (by simp)
      · split at h
        · exact absurd h (by simp)
        · split at h
          · exact absurd h (by simp)
          · exact ⟨place, _, _, rfl, (Except.ok.inj h).symm⟩

/-- The root that a command works on is the one that it has found. -/
theorem findRoot_of_prepare (h : prepare e i = .ok k) : findRoot e i = .ok k.project.root := by
  obtain ⟨place, settings, tree, hfound, rfl⟩ := prepare_cases h
  exact hfound

/-- A command that begins in a tree without links has one to work on. -/
theorem rooted_of_prepare (hsound : e.tree.Sound root) (hroot : findRoot e i = .ok (location root))
    (h : prepare e i = .ok k) : k.Rooted root := by
  have hopened := (prepare_dry h).2.2
  have hlocated : k.project.root = location root :=
    Except.ok.inj ((findRoot_of_prepare h).symm.trans hroot)
  refine ⟨hlocated, ?_⟩
  unfold openLog at hopened
  split at hopened
  · exact Except.ok.inj hopened ▸ hsound
  · rename_i file hfile
    cases ho : e.tree.openEnd (Path.locate k.project.root file) with
    | error fault =>
        rw [ho] at hopened
        exact absurd hopened (by simp [Except.mapError])
    | ok opened =>
        rw [ho] at hopened
        exact Except.ok.inj hopened ▸ hsound.of_openEnd ho

/-- The path that a user means is one below the root. -/
theorem proper_projectPath {raw path : String} (h : projectPath k raw = .ok path) :
    Proper path := by
  unfold projectPath at h
  split at h
  · rename_i found hfound
    split at h
    · exact absurd h (by simp)
    · rename_i hempty
      obtain rfl := Except.ok.inj h
      obtain ⟨hnormal, hinside⟩ := Path.normal_of_fromRoot? hfound
      exact ⟨hnormal, fun he => hempty (by simp [he]), hinside⟩
  · exact absurd h (by simp)

/-- The name of a path below another one. -/
theorem proper_into {dir path : String} (hdir : Proper dir) (hp : Proper path) :
    Proper (dir ++ "/" ++ Path.baseName path) := by
  obtain ⟨front, last, hseg, -, -, hbase⟩ := hp.exists_join
  have hplain := (Path.tidy_segments path).plain last (by rw [hseg]; simp)
  have hname := hp.names last (by rw [hseg]; simp)
  have hjoin : dir ++ "/" ++ Path.baseName path = Path.join (Path.segments dir ++ [last]) := by
    rw [← String.toList_inj, Path.toList_join,
      Text.intercalate_append hdir.segments_ne_nil (by simp), ← Path.toList_join,
      Path.join_segments hdir.normal, hbase]
    simp
  have hnames : ∀ s ∈ Path.segments dir ++ [last], Path.IsName s := by
    intro s hs
    exact (List.mem_append.mp hs).elim (hdir.names s) fun hs => List.mem_singleton.mp hs ▸ hname
  have htidy : Path.Tidy (Path.segments dir ++ [last]) := by
    refine Path.tidy_names hnames fun s hs => ?_
    exact (List.mem_append.mp hs).elim ((Path.tidy_segments dir).plain s)
      fun hs => List.mem_singleton.mp hs ▸ hplain
  rw [hjoin]
  exact Path.proper_join htidy hnames (by simp)

/-- What is asked of the two paths of a move, whatever the root is. -/
theorem movePaths_checks {source target src dst : String}
    (h : movePaths k source target = .ok (src, dst)) :
    Proper src ∧ Proper dst ∧ (k.tree.entry false (k.locate src)).isOk = true ∧
      k.tree.isThere (k.locate dst) = false ∧ Path.isUnder src dst = false := by
  unfold movePaths at h
  dsimp only [bind, Except.bind] at h
  cases hsource : projectPath k source with
  | error fault =>
      rw [hsource] at h
      exact absurd h (by simp)
  | ok path =>
      have hpath := proper_projectPath hsource
      rw [hsource] at h
      dsimp only at h
      cases htarget : projectPath k target with
      | error fault =>
          rw [htarget] at h
          exact absurd h (by simp)
      | ok place =>
          have hplace := proper_projectPath htarget
          rw [htarget] at h
          dsimp only at h
          split at h
          · exact absurd h (by simp)
          · rename_i hthere
            have hdst : Proper (if k.tree.isDirectory (k.locate place) = true then
                place ++ "/" ++ Path.baseName path else place) := by
              split
              · exact proper_into hplace hpath
              · exact hplace
            generalize (if k.tree.isDirectory (k.locate place) = true then
                place ++ "/" ++ Path.baseName path else place) = there at h hdst
            split at h
            · exact absurd h (by simp)
            · rename_i hfree
              split at h
              · exact absurd h (by simp)
              · rename_i hout
                obtain ⟨rfl, rfl⟩ := Prod.mk.inj (Except.ok.inj h)
                exact ⟨hpath, hdst, by simpa using hthere, by simpa using hfree, by simpa using hout⟩

/-- The two paths of a move that is accepted. -/
theorem movePaths_cases (hr : k.Rooted root) {source target src dst : String}
    (h : movePaths k source target = .ok (src, dst)) :
    Proper src ∧ Proper dst ∧ k.tree.entryAt root src ≠ none ∧ k.tree.entryAt root dst = none := by
  obtain ⟨hs, hd, hthere, hfree, -⟩ := movePaths_checks h
  rw [hr.locate_eq] at hthere hfree
  refine ⟨hs, hd, fun hnone => ?_, ?_⟩
  · obtain ⟨e, herr⟩ := hr.sound.entry_none hs hnone false
    rw [herr] at hthere
    exact Bool.noConfusion hthere
  · by_contra hsome
    rw [(hr.sound.isThere_iff hd).mpr hsome] at hfree
    exact Bool.noConfusion hfree

end Command

end LinkKeeper
