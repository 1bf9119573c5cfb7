import LinkKeeper.Proofs.Scanning
import LinkKeeper.Proofs.Waiting
import LinkKeeper.Session

/-!
# Scans and arrivals

A file can get into the index in two ways: a scan comes by, or the file is reported as
new. A scan goes down from the root, entry by entry; it follows no links, and turns back
at whatever is passed over. A report names one location, and its path is judged as a
whole; then the location is opened, and links on the way are followed.

So a scan may read less than is reported, and never anything else. The two agree on every
path that is open: with no link on the way to it or at its end, and with nothing on the
way passed over that the path itself would not be. Here the tree may hold anything below
the root, links and odd names included; only the way to the root has to be one of
directories.
-/

namespace LinkKeeper

open FileTree
open Path (locate spine Proper)

/-! ## Looking up in any tree -/

/-- No link stands on the way to a path from the root, nor at its end. -/
def FileTree.Unlinked (t : FileTree) (root : Spine) (path : String) : Prop :=
  ∀ front target, front <+: spine path → t.entries[root ++ front]? ≠ some (.link target)

/-- A tree as file systems build them: each entry stands in a directory, and has a path. -/
structure FileTree.Built (t : FileTree) (root : Spine) : Prop where
  top : t.entries[([] : Spine)]? = none
  named : ∀ (rest : Spine) (entry : Entry), t.entries[root ++ rest]? = some entry → rest ≠ [] →
    ∃ path, Proper path ∧ spine path = rest
  held : ∀ (rest : Spine) (name : String) (entry : Entry),
    t.entries[root ++ rest ++ [name]]? = some entry → t.Holds (root ++ rest)

namespace FileTree

variable {t : FileTree} {root : Spine}

/-- Whether a tree is built so can be checked, entry by entry. -/
theorem built_of_below (htop : t.entries[([] : Spine)]? = none)
    (hbelow : ∀ pair ∈ t.below root, (Proper (String.intercalate "/" pair.1) ∧
      spine (String.intercalate "/" pair.1) = pair.1) ∧ t.Holds (root ++ pair.1.dropLast)) :
    t.Built root where
  top := htop
  named := fun _ _ he hne => ⟨_, (hbelow _ (mem_below.mpr ⟨hne, he⟩)).1⟩
  held := by
    intro rest name entry he
    have hmem : (rest ++ [name], entry) ∈ t.below root :=
      mem_below.mpr ⟨by simp, by rw [← List.append_assoc]; exact he⟩
    have hheld := (hbelow _ hmem).2
    rw [List.dropLast_concat] at hheld
    exact hheld

/-- What is found under a path without links stands in the table under its names. -/
theorem Grounded.entryAt_of_entry (h : t.Grounded root) {path : String} (hp : Proper path)
    (hu : t.Unlinked root path) {follow : Bool} {found : Spine} {entry : Entry}
    (he : t.entry follow (locate (location root) path) = .ok (found, entry)) :
    t.entryAt root path = some entry := by
  obtain ⟨go, hlook⟩ := h.look_locate hp follow
  rw [FileTree.entry, hlook] at he
  split at he
  · rename_i spine' entry' hfound
    obtain ⟨rfl, rfl⟩ : spine' = found ∧ entry' = entry := by simpa using he
    obtain ⟨rfl, hentry⟩ := of_descend (name_of_spine hp) hu hfound
    exact hentry hp.spine_ne_nil
  all_goals exact absurd he (by simp)

/-- A path without links that is read as text is that of a file. -/
theorem Grounded.file_of_readText (h : t.Grounded root) {path content : String} (hp : Proper path)
    (hu : t.Unlinked root path) {lenient : Bool}
    (hr : t.readText (locate (location root) path) lenient = .ok content) :
    ∃ bytes mode, t.entryAt root path = some (.file bytes mode) := by
  rw [readText, read] at hr
  cases he : t.entry true (locate (location root) path) with
  | error e => rw [he] at hr; cases e <;> exact absurd hr (by simp)
  | ok found =>
      obtain ⟨place, entry⟩ := found
      cases entry with
      | file bytes mode => exact ⟨bytes, mode, h.entryAt_of_entry hp hu he⟩
      | directory => rw [he] at hr; exact absurd hr (by simp)
      | link target => rw [he] at hr; exact absurd hr (by simp)

end FileTree

namespace Keeper

variable {k : Keeper} {root : Spine} {stale other : String → Prop}

/-! ## What a scan reads -/

/-- The locations at which a scan tries to read, in order. -/
def scanned (k : Keeper) (dir : String) : List String :=
  match scanStart k.tree (k.locate dir) with
  | .directory spine => k.reachedFiles (k.locate dir) spine
  | .file => [k.locate dir]
  | .nothing | .refused _ => []

/-- **Wherever a scan begins**, it brings in step what it reads, and leaves the rest as it was. -/
theorem BlankBut.scanUnder_any (h : k.BlankBut stale other) (dir : String) :
    SameTree k (k.scanUnder dir).1 ∧ (k.scanUnder dir).1.BlankBut
      (fun s => stale s ∧ ∀ location ∈ k.scanned dir, ¬ Reads k.project location s) other := by
  have hblank : (k, (⟨0, 0, 0⟩ : ScanStats)).1.BlankBut stale other := h
  unfold Keeper.scanUnder scanned
  dsimp only
  cases scanStart k.tree (k.locate dir) with
  | directory spine => exact hblank.foldl_scanFile _
  | file => exact hblank.foldl_scanFile [k.locate dir]
  | nothing => exact ⟨.refl k, by simpa using h⟩
  | refused e => exact ⟨sameTree_warn .., by simpa using h.of_index (sameTree_warn ..) rfl⟩

/-- What a file holds that is stale or in step. -/
theorem BlankBut.recordsFrom (h : k.BlankBut stale fun _ => False) (path : String) :
    (stale path → k.index.recordsFrom path = []) ∧
      (¬ stale path → k.index.recordsFrom path = k.expected path) :=
  ⟨h.blank path, fun hn => h.inStep.current path (not_or.mpr ⟨hn, not_false⟩)⟩

/-- A keeper that has read nothing is behind everywhere. -/
theorem blankBut_of_empty (h : k.index = .empty) :
    k.BlankBut (fun _ => True) fun _ => False := by
  have hnil : ∀ s, k.index.recordsFrom s = [] := fun s => by rw [h]; rfl
  refine ⟨⟨?_, ?_, fun s hs => absurd (hnil s) hs, fun s hn => absurd (.inl trivial) hn⟩,
    fun s _ => hnil s⟩
  · rw [h]
    exact Index.valid_empty
  · intro id record hr
    exact .inr (.inl trivial)

/-- **A first scan** reads a file as it stands, if it comes by, and files nothing for it otherwise. -/
theorem recordsFrom_scan (h : k.index = .empty) (path : String) :
    ((∃ location ∈ k.scanned "", Reads k.project location path) →
      k.scan.1.index.recordsFrom path = k.expected path) ∧
    ((∀ location ∈ k.scanned "", ¬ Reads k.project location path) →
      k.scan.1.index.recordsFrom path = []) := by
  obtain ⟨hsame, hdone⟩ := (blankBut_of_empty h).scanUnder_any ""
  have hfrom := hdone.recordsFrom path
  rw [hsame.expected] at hfrom
  refine ⟨fun ⟨location, hl, hreads⟩ => hfrom.2 ?_, fun hn => hfrom.1 ⟨trivial, hn⟩⟩
  rintro ⟨-, hn⟩
  exact hn location hl hreads

/-! ## What a report reads -/

/-- A directory is not read. -/
theorem expected_of_isDirectory {path : String} (h : k.tree.isDirectory (k.locate path) = true) :
    k.expected path = [] := by
  have hread : k.tree.readText (k.locate path) k.project.settings.lenientText =
      .error (.ofSystem .isDirectory) := by
    rw [FileTree.isDirectory] at h
    split at h
    · rename_i place he
      rw [FileTree.readText, FileTree.read, he]
    · exact absurd h (by simp)
  exact expected_of_error hread

/-- **Answering a creation** reads the file as it stands. -/
theorem recordsFrom_onCreated (h : k.index = .empty) {location path : String}
    (hl : k.project.relative? location = some path) :
    (k.onCreated path).index.recordsFrom path = k.expected path := by
  have hblank := blankBut_of_empty h
  unfold Keeper.onCreated
  dsimp only
  split
  · rename_i hdir
    obtain ⟨hsame, hdone⟩ := hblank.scanUnder_any path
    obtain ⟨hstale, hstep⟩ := hdone.recordsFrom path
    rw [expected_of_isDirectory hdir] at *
    rw [index_note]
    by_cases hs : True ∧ ∀ l ∈ k.scanned path, ¬ Reads k.project l path
    · exact hstale hs
    · rw [hstep hs, hsame.expected, expected_of_isDirectory hdir]
  · split
    · rename_i hm
      rw [expected_of_not_monitored (by simpa using hm), h]
      rfl
    · rename_i hm
      have hread := hblank.indexFile (isSource_of_relative? hl (by simpa using hm))
      have hfrom := (hread.recordsFrom path).2 (by simp)
      rw [(sameTree_indexFile k path).expected] at hfrom
      split
      · rename_i k' filed heq
        rw [heq] at hfrom
        exact hfrom
      · rename_i k' fault heq
        rw [heq] at hfrom
        exact hfrom

end Keeper

namespace Detector

variable {d : Detector}

/-- Where nothing waits a creation claims nothing. -/
theorem claim_of_idle {w : Waiting} (h : w.all = []) (path : String) (isDir : Bool)
    (digest : Option String) : w.claim path isDir digest = none := by
  have hnamed : w.named (Path.baseName path) = [] := by
    refine List.eq_nil_iff_forall_not_mem.mpr fun r hr => ?_
    have := Waiting.mem_all.mpr ⟨_, hr⟩
    rw [h] at this
    exact absurd this (by simp)
  have hmatch : Waiting.match? [] isDir digest = none := by
    cases digest <;> rfl
  rw [Waiting.claim, hnamed, hmatch]
  rfl

/-- **Where nothing waits** a creation is taken for what it is. -/
theorem handle_created_of_idle (h : d.waiting.all = []) (digests : Digests) (isDir : Bool)
    (path : String) (now : Nat) :
    (d.handle digests (.created isDir path) now).operations = [.created path] ∧
      (d.handle digests (.created isDir path) now).log = [] := by
  have hdue : (d.expire now).2 = [] := by
    rw [expire, h, Waiting.inOrder]
    simp
  have hleft : (d.expire now).1.waiting.all = [] := by
    refine List.eq_nil_iff_forall_not_mem.mpr fun r hr => ?_
    have := (Waiting.mem_keep.mp hr).1
    rw [h] at this
    exact absurd this (by simp)
  have hreact : ∀ e : Detector, e.waiting.all = [] →
      (e.onCreated digests path isDir now).operations = [.created path] ∧
        (e.onCreated digests path isDir now).log = [] := by
    intro e he
    have hmemory : (e.remember digests path now).1.waiting = e.waiting := by
      rw [remember]
      split <;> rfl
    unfold onCreated
    cases isDir with
    | true => simp [claim_of_idle he, emit]
    | false => simp [hmemory, claim_of_idle he, emit]
  obtain ⟨hops, hlog⟩ := hreact _ hleft
  refine ⟨?_, hlog⟩
  show (d.expire now).2 ++ _ = _
  rw [hdue]
  exact hops

end Detector

namespace Session

/-- A report of something new, at a location. -/
def arrivalAt (location : String) (isFolder : Bool) (cookie : Option Nat) : Notification :=
  ⟨.created isFolder, [location], cookie⟩

/--
**What a report of something new does** to a session that has seen nothing: it is answered,
unless it is passed over.
-/
theorem notify_arrivalAt (k : Keeper) {location path : String}
    (hl : k.project.relative? location = some path) (isFolder : Bool) (cookie : Option Nat)
    (now : Nat) :
    ((make k).notify (arrivalAt location isFolder cookie) now).1.keeper =
      if path = "" ∨ k.project.ignores path = true then k else (k.apply (.created path)).1 := by
  have haccept : ∀ g : Ingress, g.project = k.project → g.accept location =
      if path = "" ∨ k.project.ignores path = true then none else some path := by
    intro g hg
    rw [Ingress.accept, hg, hl]
    by_cases hp : path = "" ∨ k.project.ignores path = true
    · rw [if_pos hp, Option.filter_some, if_neg]
      rcases hp with rfl | hi
      · simp
      · simp [hi]
    · rw [if_neg hp, Option.filter_some, if_pos]
      simpa using not_or.mp hp
  unfold notify receive Ingress.receive arrivalAt
  dsimp only
  rw [List.filterMap_cons, haccept _ rfl]
  by_cases hp : path = "" ∨ k.project.ignores path = true
  · rw [if_pos hp, if_pos hp]
    rfl
  · rw [if_neg hp, if_neg hp]
    dsimp only [Option.map_some, List.filterMap_nil]
    obtain ⟨hops, hlog⟩ := Detector.handle_created_of_idle
      (d := .make k.project.settings) rfl (make k).digests
      (isFolder || k.tree.isDirectory location) path now
    unfold dispatch handle
    dsimp only [make] at *
    rw [hops, hlog]
    rfl

end Session

namespace Keeper

variable {k : Keeper} {root : Spine}

/-! ## Where the two agree -/

/--
Whether a scan may get to a path: no link stands on the way to it or at its end, and nothing
on the way is passed over, unless the path is.
-/
structure Open (k : Keeper) (root : Spine) (path : String) : Prop where
  unlinked : k.tree.Unlinked root path
  unpassed : ∀ above, Proper above → spine above <+: spine path →
    k.project.ignores above = true → k.project.ignores path = true

/-- What a scan of the whole tree calls a path is its location. -/
theorem under_locate (hroot : k.project.root = location root) (h : k.tree.Grounded root)
    {path : String} (hp : Proper path) : under (k.locate "") (spine path) = k.locate path := by
  rw [under, intercalate_spine hp, Keeper.locate, Keeper.locate, Project.locate, Project.locate,
    hroot, Path.locate_locate_empty h.names hp.isAbsolute]

theorem relative?_of_locate (hroot : k.project.root = location root) (h : k.tree.Grounded root)
    {path : String} (hp : Proper path) : k.project.relative? (k.locate path) = some path := by
  rw [Project.relative?, Keeper.locate, Project.locate, hroot]
  exact hp.fromRoot? h.names

/-- A scan of the whole tree goes over all that lies below the root. -/
theorem scanned_root (hroot : k.project.root = location root) (h : k.tree.Grounded root) :
    k.scanned "" = k.reachedFiles (k.locate "") root := by
  have hstart : scanStart k.tree (k.locate "") = .directory root := by
    rw [scanStart, Keeper.locate, Project.locate, hroot, h.entry_root]
  rw [scanned, hstart]

/-- Whether something on the way to a path is passed over, by the path of it. -/
theorem isPassed_eq (hroot : k.project.root = location root) (h : k.tree.Grounded root)
    {above : String} (ha : Proper above) :
    k.isPassed (under (k.locate "") (spine above)) = k.project.ignores above := by
  rw [under_locate hroot h ha, isPassed, relative?_of_locate hroot h ha]
  rfl

/-- **A scan comes by every open path** whose file can be read. -/
theorem Open.mem_scanned (ho : k.Open root path) (hroot : k.project.root = location root)
    (h : k.tree.Grounded root) (hp : Proper path) (hm : k.project.monitors path = true)
    {content : String}
    (hr : k.tree.readText (k.locate path) k.project.settings.lenientText = .ok content) :
    k.locate path ∈ k.scanned "" := by
  have hnot : k.project.ignores path = false := by
    rw [Project.monitors, Bool.and_eq_true, Bool.not_eq_true'] at hm
    exact hm.1
  rw [Keeper.locate, Project.locate, hroot] at hr
  obtain ⟨bytes, mode, hfile⟩ := h.file_of_readText hp ho.unlinked hr
  have hreached : k.isReached (k.locate "") (spine path) = true := by
    rw [isReached, List.all_eq_true]
    intro n hn
    have hlt : n < (spine path).length := List.mem_range.mp hn
    have hne : (spine path).take (n + 1) ≠ [] := by
      intro he
      have := congrArg List.length he
      rw [List.length_take, List.length_nil] at this
      omega
    have hpre : (spine path).take (n + 1) <+: spine path := List.take_prefix _ _
    obtain ⟨above, ha, hspine⟩ := exists_proper_prefix hp hpre hne
    rw [← hspine, isPassed_eq hroot h ha, Bool.not_eq_true']
    by_contra hpassed
    have := ho.unpassed above ha (hspine ▸ hpre) (by simpa using hpassed)
    rw [hnot] at this
    exact Bool.noConfusion this
  rw [scanned_root hroot h, reachedFiles, List.mem_filterMap]
  refine ⟨(spine path, .file bytes mode), mem_below.mpr ⟨hp.spine_ne_nil, hfile⟩, ?_⟩
  dsimp only
  rw [if_pos hreached, under_locate hroot h hp]

/-- What a scan comes by stands under its names, and nothing on the way was passed over. -/
theorem of_mem_scanned (hroot : k.project.root = location root) (h : k.tree.Grounded root)
    (hb : k.tree.Built root) {place path : String} (hmem : place ∈ k.scanned "")
    (hreads : Reads k.project place path) :
    Proper path ∧ (∃ bytes mode, k.tree.entryAt root path = some (.file bytes mode)) ∧
      k.isReached (k.locate "") (spine path) = true := by
  rw [scanned_root hroot h, reachedFiles, List.mem_filterMap] at hmem
  obtain ⟨⟨rest, entry⟩, hbelow, hplace⟩ := hmem
  obtain ⟨hne, he⟩ := mem_below.mp hbelow
  cases entry with
  | directory => exact absurd hplace (by simp)
  | link target => exact absurd hplace (by simp)
  | file bytes mode =>
      obtain ⟨q, hq, rfl⟩ := hb.named rest _ he hne
      dsimp only at hplace
      split at hplace
      · rename_i hreached
        obtain rfl : k.locate q = place := by
          rw [← under_locate hroot h hq]
          exact Option.some.inj hplace
        obtain rfl : q = path :=
          Option.some.inj ((relative?_of_locate hroot h hq).symm.trans hreads.1)
        exact ⟨hq, ⟨bytes, mode, he⟩, hreached⟩
      · exact absurd hplace (by simp)

/-- **A scan comes by nothing but open paths**, in a tree as file systems build them. -/
theorem open_of_mem_scanned (hroot : k.project.root = location root) (h : k.tree.Grounded root)
    (hb : k.tree.Built root) {place path : String} (hmem : place ∈ k.scanned "")
    (hreads : Reads k.project place path) : k.Open root path := by
  obtain ⟨hp, ⟨bytes, mode, hfile⟩, hreached⟩ := of_mem_scanned hroot h hb hmem hreads
  refine ⟨fun front target hfront hlink => ?_, fun above ha hpre hpassed => ?_⟩
  · obtain ⟨more, hmore⟩ := hfront
    rw [entryAt, ← hmore] at hfile
    by_cases hlast : more = []
    · rw [hlast, List.append_nil, hlink] at hfile
      exact absurd hfile (by simp)
    · rcases holds_above hb.held hfile hlast with hnil | hdir
      · rw [hnil, hb.top] at hlink
        exact absurd hlink (by simp)
      · rw [hdir] at hlink
        exact absurd hlink (by simp)
  · rw [isReached, List.all_eq_true] at hreached
    have hpos : 0 < (spine above).length := List.length_pos_iff.mpr ha.spine_ne_nil
    have hle : (spine above).length ≤ (spine path).length := hpre.length_le
    have hstep := hreached ((spine above).length - 1) (List.mem_range.mpr (by omega))
    rw [Nat.sub_add_cancel hpos, ← List.prefix_iff_eq_take.mp hpre, isPassed_eq hroot h ha,
      hpassed] at hstep
    exact Bool.noConfusion hstep

end Keeper

namespace Session

variable {project : Project} {tree : FileTree} {root : Spine}

/-- What a report of something new at a location leaves in an empty index for a path. -/
def arrived (k : Keeper) (place : String) (isFolder : Bool) (cookie : Option Nat) (now : Nat)
    (path : String) : List Reference :=
  ((make k).notify (arrivalAt place isFolder cookie) now).1.keeper.index.recordsFrom path

/-- A report of something new gets the file read as it stands. -/
theorem arrived_eq (k : Keeper) (h : k.index = .empty) {place path : String}
    (hl : k.project.relative? place = some path) (isFolder : Bool) (cookie : Option Nat)
    (now : Nat) : arrived k place isFolder cookie now path = k.expected path := by
  rw [arrived, notify_arrivalAt k hl]
  split
  · rename_i hp
    have hm : k.project.monitors path = false := by
      rcases hp with rfl | hi
      · rw [Project.monitors]
        by_contra hreads
        rw [Bool.not_eq_false, Bool.and_eq_true] at hreads
        exact Keeper.nonempty_of_reads hreads.2 rfl
      · rw [Project.monitors, hi]
        rfl
    rw [h, Keeper.expected_of_not_monitored hm]
    rfl
  · exact Keeper.recordsFrom_onCreated (k := { k with log := [] }) h hl

/--
**What a scan and a report make of a path.** Below its root the tree may hold anything. The
path is that of some location, and the report is one of something new there. What a scan files
for the path is what the report gets filed for it, or nothing; on an open path it is the same;
and in a tree as file systems build them a scan files something on open paths only.
-/
theorem scan_agrees_with_arrival (hroot : project.root = location root) (h : tree.Grounded root)
    {place path : String} (hl : project.relative? place = some path) (isFolder : Bool)
    (cookie : Option Nat) (now : Nat) :
    let k := Keeper.make project tree
    let scanned := k.scan.1.index.recordsFrom path
    (scanned ≠ [] → scanned = arrived k place isFolder cookie now path) ∧
    (k.Open root path → scanned = arrived k place isFolder cookie now path) ∧
    (tree.Built root → scanned ≠ [] → k.Open root path) := by
  intro k scanned
  have hempty : k.index = .empty := rfl
  obtain ⟨hreads, hnot⟩ := Keeper.recordsFrom_scan hempty path
  have hsome : scanned ≠ [] → ∃ l ∈ k.scanned "", Keeper.Reads project l path := by
    intro hne
    by_contra hnone
    exact hne (hnot fun l hl hr => hnone ⟨l, hl, hr⟩)
  rw [arrived_eq k hempty hl]
  refine ⟨fun hne => hreads (hsome hne), fun ho => ?_, fun hb hne => ?_⟩
  · by_cases hx : k.expected path = []
    · rw [hx]
      by_contra hne
      exact hne ((hreads (hsome hne)).trans hx)
    · have hs : k.isSource path = true := by
        by_contra hs
        exact hx (by rw [Keeper.expected, if_neg hs])
      obtain ⟨hp, hm⟩ := Keeper.isSource_iff.mp hs
      cases hr : k.tree.readText (k.locate path) k.project.settings.lenientText with
      | error fault => exact absurd (Keeper.expected_of_error hr) hx
      | ok content =>
          exact hreads ⟨_, ho.mem_scanned hroot h hp hm hr,
            Keeper.relative?_of_locate hroot h hp, hm⟩
  · obtain ⟨l, hl, hr⟩ := hsome hne
    exact Keeper.open_of_mem_scanned hroot h hb hl hr

/-- Notes, a link to one, a link to a directory, and a directory with the name of a backup. -/
def linkedTree : FileTree :=
  let note : Entry := .file "[b](b.md)".toUTF8 newMode
  ⟨.ofList [(["w"], Entry.directory), (["w", "a.md"], note), (["w", "d"], .directory),
    (["w", "d", "c.md"], note), (["w", "l.md"], .link "a.md"), (["w", "old.linkbak"], .directory),
    (["w", "old.linkbak", "e.md"], note), (["w", "way"], .link "d")]⟩

/-- The keeper of these notes, before it has read anything. -/
def linkedKeeper : Keeper := .make (.make "/w" .defaults) linkedTree

theorem grounded_linkedTree : linkedTree.Grounded ["w"] := by
  refine ⟨by decide, fun above ha => ?_⟩
  have htake : ∀ n < ["w"].length + 1, linkedTree.Holds (["w"].take n) := by decide +kernel
  rw [List.prefix_iff_eq_take.mp ha]
  exact htake above.length (Nat.lt_succ_of_le ha.length_le)

theorem scan_agrees_with_arrival_note :
    linkedKeeper.scan.1.index.recordsFrom "d/c.md" =
        arrived linkedKeeper "/w/d/c.md" false none 0 "d/c.md" ∧
      linkedKeeper.scan.1.index.recordsFrom "d/c.md" ≠ [] ∧ linkedKeeper.Open ["w"] "d/c.md" := by
  have hne : linkedKeeper.scan.1.index.recordsFrom "d/c.md" ≠ [] := by decide +kernel
  have hbuilt : linkedTree.Built ["w"] := built_of_below (by decide +kernel) (by decide +kernel)
  have hroot : (Project.make "/w" .defaults).root = location ["w"] := by decide
  have hpath : (Project.make "/w" .defaults).relative? "/w/d/c.md" = some "d/c.md" := by decide
  obtain ⟨-, hopen, hclosed⟩ :=
    scan_agrees_with_arrival hroot grounded_linkedTree hpath false none 0
  exact ⟨hopen (hclosed hbuilt hne), hne, hclosed hbuilt hne⟩

/-- A file for which a scan files nothing, and of which a report gets it read. -/
def Missed (path : String) : Prop :=
  linkedTree.isFile ("/w/" ++ path) = true ∧
    linkedKeeper.scan.1.index.recordsFrom path = [] ∧
    arrived linkedKeeper ("/w/" ++ path) false none 0 path ≠ []

instance (path : String) : Decidable (Missed path) :=
  inferInstanceAs (Decidable (_ ∧ _ ∧ _))

/--
Files that are missed: one at a link, one on the way through a link, and one in a directory
whose name is that of a backup.
-/
theorem scan_misses_arrivals :
    Missed "l.md" ∧ Missed "way/c.md" ∧ Missed "old.linkbak/e.md" := by
  decide +kernel

end Session

end LinkKeeper
