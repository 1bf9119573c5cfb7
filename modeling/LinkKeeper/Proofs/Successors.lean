import LinkKeeper.Proofs.Lettering

/-!
# What comes after a link to a file that has moved

A file moves, and the links to it are made to lead to its new place. After that the files are
read anew, and what the index knows of them is what is found then. So what a link has become
must be said twice: what now stands in its place, which the plan decides, and whether the
reader takes it for a link again, which the format of the file and the look of the new text
decide.
-/

namespace LinkKeeper

open FileTree
open Path (Proper isRootAbsolute normalize resolve parent)

namespace Edit

/-! ## The new link -/

/-- What a reference means is said by its text and by the directory of the file that holds it. -/
theorem means_congr_of_parent {q r : Reference} (hparent : parent q.source = parent r.source)
    (htarget : q.target = r.target) (path : String) : means q path = means r path := by
  have hpath : q.targetPath = r.targetPath := by
    unfold Reference.targetPath
    rw [htarget]
  unfold means Reference.rooted Reference.resolved
  rw [hpath, hparent]

theorem means_congr {q r : Reference} (hsource : q.source = r.source)
    (htarget : q.target = r.target) (path : String) : means q path = means r path :=
  means_congr_of_parent (congrArg parent hsource) htarget path

/-- The new path leads to the new place, read from its directory or from the root. -/
theorem retarget_leads {written : String} {m : Move} (hhost : Proper m.host) (ht : Proper m.target) :
    normalize (retarget written (parent m.host) m) = m.target ∨
      resolve (parent m.host) (retarget written (parent m.host) m) = m.target := by
  by_cases hroot : isRootAbsolute written = false ∧ normalize written = m.source ∧
      ¬ (isBare written = true ∧ parent m.target = parent m.host)
  · -- a link from the root becomes one from the root
    obtain ⟨ha, hn, hb⟩ := hroot
    left
    rw [retarget, if_neg (by simp [ha]), if_neg (by simpa using hb), if_pos hn, ht.normal]
  · right
    refine resolve_retarget ht (fun _ s hs => ?_) fun ha hn => .inr ?_
    · rw [Path.segments_parent hhost] at hs
      exact hhost.names s (List.dropLast_subset _ hs)
    · by_contra hb
      exact hroot ⟨ha, hn, hb⟩

/-- **The new link of a reference means the new place**, in the file that holds it then. -/
theorem outcome_means {q r : Reference} {m : Move} (hmeans : means r m.source = true)
    (hhost : Proper m.host) (ht : Proper m.target) (hhash : '#' ∉ m.target.toList)
    (hsource : q.source = m.host) (htarget : q.target = outcome r (inbound? r m)) :
    means q m.target = true := by
  have hpath : q.targetPath =
      withSeparators r.targetPath r.kind (retarget r.targetPath (parent m.host) m) := by
    rw [Reference.targetPath, htarget, outcome_inbound? hmeans]
    exact splitFragment_spelled (hash_not_mem hhash)
  rw [means_iff ht, Reference.rooted, Reference.resolved, hpath, hsource, normalize_withSeparators,
    resolve_withSeparators]
  exact retarget_leads hhost ht

/-- Links of a file that has only got another name in its directory lead where they led. -/
theorem outbound?_of_parent_eq {isThere : String → Bool} {r : Reference} {source target : String}
    (h : parent source = parent target) : outbound? isThere r source target = none := by
  unfold outbound?
  simp [h]

/-- A link of a moved file that means the file, and says so at the new place too, does not lead out of it. -/
theorem outbound?_of_inbound?_eq_none {isThere : String → Bool} {r : Reference}
    {source target : String} (hs : Proper source) (ht : Proper target)
    (hholder : r.source = source) (hmeans : means r source = true)
    (hnone : inbound? r ⟨target, source, target⟩ = none) :
    outbound? isThere r source target = none := by
  unfold outbound?
  dsimp only
  split
  · rfl
  · rename_i hout
    simp only [Bool.or_eq_true, not_or, Bool.not_eq_true, beq_eq_false_iff_ne] at hout
    obtain ⟨⟨⟨⟨⟨-, ha⟩, hparent⟩, -⟩, hself⟩, -⟩ := hout
    have hrooted : normalize r.targetPath = source := by
      rcases (means_iff hs).mp hmeans with hrooted | hresolved
      · exact hrooted
      · rw [Reference.resolved, hholder] at hresolved
        exact absurd hresolved hself
    -- the path would stay the same, and it cannot
    have hsame : withSeparators r.targetPath r.kind
        (retarget r.targetPath (parent target) ⟨target, source, target⟩) = r.targetPath := by
      have houtcome := @outcome_inbound? r ⟨target, source, target⟩ hmeans
      rw [hnone] at houtcome
      exact (spelled_injective ((spelled_targetPath r).trans houtcome)).symm
    have hsegments := congrArg normalize hsame
    rw [normalize_withSeparators, hrooted, retarget, if_neg (by simp [ha])] at hsegments
    by_cases hb : isBare r.targetPath = true
    · -- a bare name read from the root is a file of the root, and so is this one
      rw [if_pos (by simp [hb])] at hsegments
      obtain ⟨front, last, htarget, -, -, hname⟩ := ht.exists_join
      have hlast : Path.segments source = [last] := by
        have htidy : Path.Tidy [last] := Path.tidy_names
          (fun s hs => ht.names s (by rw [htarget]; simp_all))
          fun s hs => (Path.tidy_segments target).plain s (by rw [htarget]; simp_all)
        have hjoin : Path.baseName target = Path.join [last] := by
          rw [hname, Path.join, Text.intercalate_singleton]
        rw [← hsegments, Path.segments_normalize, hjoin, Path.segments_join htidy]
      have hnil : Path.segments (parent source) = [] := by
        rw [Path.segments_parent hs, hlast]
        rfl
      rw [Path.resolve_of_segments_nil hnil] at hself
      exact absurd hrooted hself
    · rw [if_neg (by simp [hb]), if_pos hrooted, ht.normal] at hsegments
      rw [hsegments] at hparent
      exact absurd rfl hparent

end Edit

namespace Keeper

variable {k : Keeper} {root : Spine} {after : FileTree} {source target : String} {r : Reference}

/-! ## The links to a file -/

/-- A link to a file does not only climb: above the file that holds it there are directories. -/
theorem not_climbing {t : FileTree} (hsound : t.Sound root) {path : String} (hp : Proper path)
    (hfile : t.entryAt root path ≠ some .directory) (hholder : Proper r.source)
    (hthere : t.entryAt root r.source ≠ none) (hmeans : Edit.means r path = true)
    (ha : isRootAbsolute r.targetPath = false) (n : Nat) :
    Path.segments r.targetPath ≠ List.replicate n Path.above := by
  intro hups
  rcases (Edit.means_iff hp).mp hmeans with hrooted | hresolved
  · -- read from the root it would lead out of it, or nowhere
    have hsegments := (Path.normalize_eq_iff hp.normal).mp hrooted
    rw [hups] at hsegments
    cases n with
    | zero => exact hp.segments_ne_nil hsegments.symm
    | succ n => exact (hp.names Path.above (by simp [← hsegments])).2.2 rfl
  · rw [Reference.resolved, Path.resolve_eq_iff hp.normal, ha, if_neg (by simp), hups] at hresolved
    have hnames : ∀ s ∈ Path.segments (parent r.source), Path.IsName s := by
      intro s hmem
      rw [Path.segments_parent hholder] at hmem
      exact hholder.names s (List.dropLast_subset _ hmem)
    obtain ⟨-, htake⟩ := Path.collapse_ups hnames (by rw [hresolved]; exact hp.names)
    rw [hresolved, Path.segments_parent hholder] at htake
    have hpre : Path.segments path <+: Path.segments r.source := by
      rw [htake]
      exact (List.take_prefix _ _).trans (List.dropLast_prefix _)
    have hne : r.source ≠ path := by
      intro he
      have hlength := congrArg List.length htake
      rw [List.length_take, List.length_dropLast, he] at hlength
      have hpos := List.length_pos_iff.mpr hp.segments_ne_nil
      omega
    have hunder : Path.isUnder path r.source = true := by
      rw [Path.isUnder_iff_spine hp.normal hholder.normal]
      obtain ⟨more, hmore⟩ := hpre
      exact ⟨more.map String.ofList, by rw [Path.spine, Path.spine, ← hmore, List.map_append]⟩
    exact hthere (entryAt_below hsound hp hholder hfile hunder hne)

/-- The file of a record is there. -/
theorem InStep.entryAt_source (h : k.InStep) (hr : k.Rooted root) (hhas : k.index.Has r) :
    k.tree.entryAt root r.source ≠ none := by
  obtain ⟨content, hread, -⟩ := h.content hr hhas
  exact hread.there hr.sound (h.proper_source hhas)

/-- **No link to a file is overlooked.** -/
theorem InStep.mem_candidates_of_means (h : k.InStep) (hr : k.Rooted root) (hs : Proper source)
    (hfile : k.tree.entryAt root source ≠ some .directory) (hhas : k.index.Has r)
    (hmeans : Edit.means r source = true) : r ∈ k.candidates source := by
  refine (mem_candidates fun q hq hplace => h.eq_of_place hr hhas hq hplace).mpr
    ⟨source, by simp [spellings], ?_⟩
  rcases (Edit.means_iff hs).mp hmeans with hrooted | hresolved
  · exact (Index.mem_lookup h.valid h.settled hs.normal).mpr ⟨hhas, .inl hrooted⟩
  · have hproper : Proper r.resolved := by
      rw [hresolved]
      exact hs
    rcases h.mem_lookup_resolved hhas hproper with hfound | ⟨ha, n, hups⟩
    · rwa [hresolved] at hfound
    · exact absurd hups (not_climbing hr.sound hs hfile (h.proper_source hhas)
        (h.entryAt_source hr hhas) hmeans ha n)

/-! ## The plan for a file that has moved -/

/--
The file of a reference is still kept up when a file has moved. It is not the one that was
replaced. If it is the one that has moved, then it is monitored at its new place, and the file
that was there before had no link to the old one that could be taken for one of its own.
-/
def KeepsUp (k : Keeper) (source target : String) (r : Reference) : Prop :=
  if r.source = source then
    k.project.monitors target = true ∧
      ∀ q, k.index.Has q → q.source = target → Edit.means q source = false
  else r.source ≠ target

/-- The edits that answer a move, made in the tree in which the file has moved. -/
def movePlan (k : Keeper) (after : FileTree) (source target : String) : EditPlan :=
  ({ k with tree := after } : Keeper).planFileMove source target

/-- The links that the references of a file have when the move has been answered. -/
def linksIn (k : Keeper) (after : FileTree) (source target host : String) : Reference → String :=
  Edit.linkOf ((k.movePlan after source target).edits host)

/-- The file that holds the link of a reference when a file has moved. -/
def holder (source target : String) (r : Reference) : String :=
  (fileMove source target r.source).host

/-- An edit in the file of a reference is for a reference of the same file. -/
theorem KeepsUp.source_eq (h : k.KeepsUp source target r) {q : Reference} (hq : k.index.Has q)
    (hmeans : Edit.means q source = true) (hsame : holder source target r = holder source target q) :
    q.source = r.source := by
  unfold KeepsUp at h
  unfold holder fileMove at hsame
  dsimp only at hsame
  by_cases hr : r.source = source
  · rw [if_pos hr] at h hsame
    by_cases hqs : q.source = source
    · rw [hqs, hr]
    · rw [if_neg hqs] at hsame
      rw [h.2 q hq hsame.symm] at hmeans
      exact absurd hmeans (by simp)
  · rw [if_neg hr] at h hsame
    split at hsame
    · exact absurd hsame h
    · exact hsame.symm

/-- Every edit in the file of a reference is for a reference of this file: one that means what has moved, or one in it. -/
theorem InStep.mem_edits_of_keepsUp (h : k.InStep) (hkept : k.KeepsUp source target r) {e : Edit}
    (he : e ∈ (k.movePlan after source target).edits (holder source target r)) :
    ∃ q, k.index.Has q ∧ q.source = r.source ∧ e.IsFor q ∧
      (Edit.inbound? q (fileMove source target q.source) = some e ∨ (q.source = source ∧
        Edit.outbound? ({ k with tree := after } : Keeper).hasPath q source target = some e)) := by
  rcases mem_edits_planFileMove.mp he with ⟨q, hq, hfile, hedit⟩ | ⟨-, hfile, q, hq, hedit⟩
  · have hhas : k.index.Has q := has_of_mem_candidates hq
    obtain ⟨hfor, hmeans⟩ := Edit.of_inbound? hedit
    exact ⟨q, hhas, hkept.source_eq hhas hmeans hfile, hfor, .inl hedit⟩
  · obtain ⟨hsource, hhas⟩ := h.valid.mem_recordsFrom_iff.mp hq
    refine ⟨q, hhas, ?_, Edit.isFor_of_outbound? hedit, .inr ⟨hsource, hedit⟩⟩
    unfold KeepsUp at hkept
    unfold holder fileMove at hfile
    dsimp only at hfile
    by_cases hr : r.source = source
    · rw [hsource, hr]
    · rw [if_neg hr] at hkept hfile
      exact absurd hfile hkept

/--
**The plan for a link.** A link to what has moved gets the link to the new place. In the moved file
it may also read as a link that leads out of it, but what it means comes first.
-/
theorem InStep.linksIn_of_means (h : k.InStep) (hr : k.Rooted root) (hs : Proper source)
    (ht : Proper target) (hfile : k.tree.entryAt root source ≠ some .directory)
    (hhas : k.index.Has r) (hmeans : Edit.means r source = true)
    (hkept : k.KeepsUp source target r) :
    k.linksIn after source target (holder source target r) r =
      Edit.outcome r (Edit.inbound? r (fileMove source target r.source)) := by
  have hinbound : ∀ e ∈ (k.candidates source).flatMap fun q =>
      inboundIn (fileMove source target) q (holder source target r),
      e.line = r.line ∧ e.columnStart = r.columnStart →
        Edit.inbound? r (fileMove source target r.source) = some e := by
    intro e he hat
    obtain ⟨q, hq, he⟩ := List.mem_flatMap.mp he
    obtain ⟨hhost, hedit⟩ := mem_inboundIn.mp he
    have hhasq : k.index.Has q := has_of_mem_candidates hq
    obtain ⟨hfor, hmeansq⟩ := Edit.of_inbound? hedit
    have hsource := hkept.source_eq hhasq hmeansq hhost
    obtain rfl : q = r := by
      refine h.eq_of_place hr hhas hhasq ?_
      rw [Reference.place, Reference.place, hsource, ← hfor.line, ← hfor.columnStart, hat.1, hat.2]
    exact hedit
  unfold linksIn movePlan
  rw [edits_planFileMove, Edit.linkOf_append]
  cases hedit : Edit.inbound? r (fileMove source target r.source) with
  | some e =>
      have hmem : e ∈ (k.candidates source).flatMap fun q =>
          inboundIn (fileMove source target) q (holder source target r) :=
        List.mem_flatMap.mpr ⟨r, h.mem_candidates_of_means hr hs hfile hhas hmeans,
          mem_inboundIn.mpr ⟨rfl, hedit⟩⟩
      have hfor := (Edit.of_inbound? hedit).1
      obtain ⟨f, hf⟩ := Option.isSome_iff_exists.mp (List.find?_isSome.mpr
        ⟨e, hmem, Edit.isAt_iff.mpr ⟨hfor.line, hfor.columnStart⟩⟩)
      have hsame := hinbound f (List.mem_of_find?_eq_some hf)
        (Edit.isAt_iff.mp (List.find?_some hf))
      rw [hedit] at hsame
      obtain rfl := Option.some.inj hsame
      exact congrArg (fun found => ((Option.or found _).map (·.replacement)).getD r.target) hf
  | none =>
      have hfirst : ((k.candidates source).flatMap fun q =>
          inboundIn (fileMove source target) q (holder source target r)).find? (Edit.isAt r) =
            none := by
        refine List.find?_eq_none.mpr fun e he hat => ?_
        rw [hinbound e he (Edit.isAt_iff.mp hat)] at hedit
        exact absurd hedit (by simp)
      have hsecond : ∀ e ∈ (k.index.recordsFrom source).flatMap fun q =>
          ({ k with tree := after } : Keeper).outboundIn source target q (holder source target r),
          ¬ Edit.isAt r e = true := by
        intro e he hat
        obtain ⟨q, hq, he⟩ := List.mem_flatMap.mp he
        obtain ⟨hhost, hout⟩ := mem_outboundIn.mp he
        obtain ⟨hsource, hhasq⟩ := h.valid.mem_recordsFrom_iff.mp hq
        have hholder : r.source = source := by
          by_contra hne
          unfold KeepsUp at hkept
          unfold holder fileMove at hhost
          rw [if_neg hne] at hkept hhost
          exact hkept hhost
        have hfor := Edit.isFor_of_outbound? hout
        have hat := Edit.isAt_iff.mp hat
        obtain rfl : q = r := by
          refine h.eq_of_place hr hhas hhasq ?_
          rw [Reference.place, Reference.place, hsource, hholder, ← hfor.line, ← hfor.columnStart,
            hat.1, hat.2]
        have hmove : fileMove source target q.source = ⟨target, source, target⟩ := by
          unfold fileMove
          rw [if_pos hholder]
        rw [hmove] at hedit
        rw [Edit.outbound?_of_inbound?_eq_none hs ht hholder hmeans hedit] at hout
        exact absurd hout (by simp)
      have hnone : (if (k.project.monitors target && k.project.settings.updatesMovedFiles) = true then
          (k.index.recordsFrom source).flatMap fun q =>
            ({ k with tree := after } : Keeper).outboundIn source target q (holder source target r)
          else []).find? (Edit.isAt r) = none := by
        split
        · exact List.find?_eq_none.mpr hsecond
        · rfl
      exact congrArg₂ (fun found found' =>
        ((Option.or found found').map (·.replacement)).getD r.target) hfirst hnone

/-- A link to something else stays as it is, unless its file has gone to another directory. -/
theorem InStep.linksIn_of_not_means_of_parent (h : k.InStep) (hr : k.Rooted root)
    (hhas : k.index.Has r) (hmeans : Edit.means r source = false)
    (hkept : k.KeepsUp source target r)
    (hstays : r.source = source → parent source = parent target) :
    k.linksIn after source target (holder source target r) r = r.target := by
  refine Edit.linkOf_of_none fun e he hat => ?_
  obtain ⟨q, hq, hsource, hfor, hwhy⟩ := h.mem_edits_of_keepsUp hkept he
  obtain rfl : q = r := by
    refine h.eq_of_place hr hhas hq ?_
    rw [Reference.place, Reference.place, hsource, ← hfor.line, ← hfor.columnStart, hat.1, hat.2]
  rcases hwhy with hedit | ⟨hmoved, hedit⟩
  · have hmeans' : Edit.means q source = true := (Edit.of_inbound? hedit).2
    rw [hmeans] at hmeans'
    exact absurd hmeans' (by simp)
  · rw [Edit.outbound?_of_parent_eq (hstays hmoved)] at hedit
    exact absurd hedit (by simp)

/-- A link to something else stays as it is in a file that stays. -/
theorem InStep.linksIn_of_not_means (h : k.InStep) (hr : k.Rooted root) (hhas : k.index.Has r)
    (hmeans : Edit.means r source = false) (hkept : k.KeepsUp source target r)
    (hstays : r.source ≠ source) :
    k.linksIn after source target (holder source target r) r = r.target :=
  h.linksIn_of_not_means_of_parent hr hhas hmeans hkept fun hmoved => absurd hmoved hstays

/-- A link of a file that is kept up stays as it is, or it gets another path. -/
theorem InStep.linksIn_respells (h : k.InStep) (hr : k.Rooted root) (after : FileTree)
    (hs : Proper source) (ht : Proper target) (hfile : k.tree.entryAt root source ≠ some .directory)
    (hkept : k.KeepsUp source target r) {content : List Char} {references : List Reference}
    (hlaid : Links.Laid content references)
    (hmem : ∀ q, k.index.Has q → q.source = r.source → q ∈ references) {q : Reference}
    (hq : q ∈ references) :
    k.linksIn after source target (holder source target r) q = q.target ∨
      (k.index.Has q ∧ q.source = r.source ∧ q.targetPath ≠ "" ∧
        Edit.Respells q [source, target, q.targetPath]
          (k.linksIn after source target (holder source target r) q)) := by
  unfold linksIn
  rcases Edit.linkOf_cases ((k.movePlan after source target).edits (holder source target r)) q with
    ⟨e, he, hat, hlink⟩ | ⟨-, hlink⟩
  · right
    obtain ⟨other, hhas, hsource, hfor, hwhy⟩ := h.mem_edits_of_keepsUp hkept he
    obtain rfl : other = q := hlaid.eq_of_place (hmem other hhas hsource) hq
      (hfor.line.symm.trans hat.1) (hfor.columnStart.symm.trans hat.2)
    rw [hlink]
    rcases hwhy with hedit | ⟨-, hedit⟩
    · refine ⟨hhas, hsource, fun hempty => ?_,
        (Edit.respells_of_inbound? ht hedit).mono (by simp [fileMove])⟩
      exact not_climbing hr.sound hs hfile (h.proper_source hhas) (h.entryAt_source hr hhas)
        (Edit.of_inbound? hedit).2 (by rw [hempty]; rfl) 0 (by rw [hempty]; rfl)
    · obtain ⟨hne, hrespells⟩ := Edit.respells_of_outbound? hedit
      exact ⟨hhas, hsource, hne, hrespells.mono (by simp)⟩
  · exact .inl hlink

/-! ## The files after the answer -/

/-- What a keeper makes of the move of a file, in the tree in which it has moved. -/
def answered (k : Keeper) (after : FileTree) (source target : String) : Keeper × OperationReport :=
  ({ k with tree := after } : Keeper).apply (.moved source target)

/-- The answer writes what the plan says, and nothing else. -/
theorem answered_writes (hr : k.Rooted root)
    (hstep : TreeStep root k.tree (.moved source target) after) :
    (k.answered after source target).1.tree = (LinkKeeper.reviseAll k.project.root
        k.project.settings.writing after (k.movePlan after source target)).tree ∧
      (k.answered after source target).2.revision = (LinkKeeper.reviseAll k.project.root
        k.project.settings.writing after (k.movePlan after source target)).report :=
  apply_writes_of_step hr hstep (hstep.sound_moved hr.sound)

/-- What a file was and what it is, in another tree, when each of its references has got a link. -/
structure Revised (k : Keeper) (root : Spine) (done : FileTree) (file host : String)
    (link : Reference → String) (content text : String) : Prop where
  before : ReadsAs root k.tree k.project.settings.lenientText file content
  after : ReadsAs root done k.project.settings.lenientText host text
  relinked : Relinked link (Links.find k.project.rule file content).references content text

theorem KeepsUp.proper (h : k.InStep) (ht : Proper target) (hhas : k.index.Has r)
    (hkept : k.KeepsUp source target r) : Proper (holder source target r) ∧
      Settings.isOwnName (Path.baseName (holder source target r)) = false ∧
      k.project.monitors (holder source target r) = true := by
  unfold KeepsUp at hkept
  unfold holder fileMove
  dsimp only
  split
  · rename_i hr
    rw [if_pos hr] at hkept
    refine ⟨ht, ?_, hkept.1⟩
    cases hown : Settings.isOwnName (Path.baseName target) with
    | false => rfl
    | true =>
        rw [monitors_of_isOwnName hown] at hkept
        exact absurd hkept.1 (by simp)
  · have hmem := h.valid.mem_recordsFrom_iff.mpr ⟨rfl, hhas⟩
    exact ⟨h.proper_source hhas, h.source_not_own hhas,
      (isSource_iff.mp (h.sources r.source (List.ne_nil_of_mem hmem))).2⟩

/-- **What becomes of a file** when everything could be written: each reference has got its link. -/
theorem InStep.revised (h : k.InStep) (hr : k.Rooted root)
    (hstep : TreeStep root k.tree (.moved source target) after)
    (hdry : k.project.settings.dryRun = false)
    (hdone : (k.answered after source target).2.revision.failures = [])
    (hhas : k.index.Has r) (hkept : k.KeepsUp source target r) :
    ∃ content text, k.Revised root (k.answered after source target).1.tree r.source
        (holder source target r) (k.linksIn after source target (holder source target r)) content text ∧
      ∀ q, k.index.Has q → q.source = r.source →
        q ∈ (Links.find k.project.rule r.source content).references := by
  obtain ⟨hplan, hreport⟩ := answered_writes hr hstep
  have ha := hstep.sound_moved hr.sound
  have hproper := h.proper_preview hstep
  rw [hreport] at hdone
  rw [hplan]
  obtain ⟨content, hread, hmem⟩ := h.content hr hhas
  cases hstep with
  | @moved _ _ bytes mode _ hs ht there renamed =>
  obtain ⟨hpholder, hown, -⟩ := hkept.proper h ht hhas
  have hsame : after.entryAt root (holder source target r) = k.tree.entryAt root r.source := by
    rw [hr.sound.entryAt_moved hs ht there renamed hpholder]
    unfold KeepsUp at hkept
    unfold holder fileMove
    dsimp only
    split
    · rename_i hholder
      rw [if_pos rfl, hholder, there]
    · rename_i hholder
      rw [if_neg hholder] at hkept
      rw [if_neg hkept]
  have hread' : ReadsAs root after k.project.settings.writing.lenient (holder source target r)
      content := hread.congr hr.sound ha (h.proper_source hhas) hpholder hsame
  obtain ⟨text, link, hnow, hrelinked, hlink⟩ := hread'.relinked ha hpholder hown hproper
    (Links.laid_find k.project.rule r.source content) fun e he => by
      obtain ⟨q, hq, hsource, hfor, -⟩ := h.mem_edits_of_keepsUp hkept he
      exact ⟨q, hmem q hq hsource, hfor⟩
  rw [← hr.located] at hnow hlink
  rcases hlink with rfl | ⟨-, hwrites | hfailed⟩
  · exact ⟨content, text, ⟨hread, hnow, hrelinked⟩, hmem⟩
  · exact absurd (hwrites.symm.trans hdry) (by simp)
  · exact absurd hdone hfailed

end Keeper

end LinkKeeper
