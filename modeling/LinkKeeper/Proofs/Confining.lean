import LinkKeeper.Proofs.Bystanders
import LinkKeeper.Proofs.Foretelling
import LinkKeeper.Proofs.Outgoing
import LinkKeeper.Proofs.Turns

/-!
# Where an answer writes

An answer writes to the files that its report names, and to their backups. In a named file it
exchanges links, each for a record that has to do with the move: one of its two readings leads to what
has moved, or it stands in a file that has moved and leads out of that. Nothing else is written, so a
stray edit anywhere on the way from the index to the file would show here.

A file that the backup of another named file is written over is the one exception. It has moved to
the name of that backup, and its links are looked for in a text that is not its own.
-/

namespace LinkKeeper

open FileTree
open Path (locate spine Proper)

/-! ## What a rename leaves -/

/--
A tree in which something has been renamed to a place that was free, and the operation that says so.
It may be a file or a directory, and it may be told as either.
-/
structure Renamed (root : Spine) (t : FileTree) (op : Operation) (source target : String)
    (after : FileTree) : Prop where
  properSource : Proper source
  properTarget : Proper target
  free : t.entryAt root target = none
  renamed : t.rename (locate (location root) source) (locate (location root) target) = .ok after
  told : op = .moved source target ∨ op = .directoryMoved source target

namespace Renamed

variable {root : Spine} {t after : FileTree} {op took : Operation} {source target path : String}

theorem there (h : Renamed root t op source target after) (ht : t.Sound root) :
    ∃ entry, t.entryAt root source = some entry := by
  cases he : t.entryAt root source with
  | some entry => exact ⟨entry, rfl⟩
  | none =>
      obtain ⟨e, hnone⟩ := ht.entry_none h.properSource he false
      have hrename := h.renamed
      rw [FileTree.rename, hnone] at hrename
      exact absurd hrename (by simp [bind, Except.bind])

theorem eq_graft (h : Renamed root t op source target after) (ht : t.Sound root) :
    after = t.graft (root ++ spine source) (root ++ spine target) := by
  obtain ⟨entry, he⟩ := h.there ht
  rcases ht.of_rename h.properSource h.properTarget he h.renamed with ⟨rfl, -⟩ | ⟨hgraft, -⟩
  · exact absurd (h.free.symm.trans he) (by simp)
  · exact hgraft

theorem sound (h : Renamed root t op source target after) (ht : t.Sound root) :
    after.Sound root := by
  obtain ⟨entry, he⟩ := h.there ht
  cases entry with
  | file content mode => exact ht.sound_moved h.properSource h.properTarget he h.renamed
  | directory => exact ht.sound_directoryMoved h.properSource h.properTarget he h.free h.renamed
  | link other => exact absurd he (ht.linkless _ other)

/-- What was below the old place is below the new one. -/
theorem entryAt_rebased (h : Renamed root t op source target after) (ht : t.Sound root)
    (hp : Proper path) {new : String} (hnew : Path.rebase? path source target = some new) :
    after.entryAt root new = t.entryAt root path := by
  obtain ⟨more, hpath, hseg, -⟩ :=
    Path.rebase?_eq_some hp.normal h.properSource h.properTarget hnew
  have hplace : spine new = spine target ++ more.map String.ofList := by
    rw [spine, hseg, List.map_append, spine]
  have horigin : spine path = spine source ++ more.map String.ofList := by
    rw [spine, hpath, List.map_append, spine]
  rw [h.eq_graft ht, entryAt_graft, Text.isPrefixOf?_eq_some.mpr hplace]
  dsimp only
  rw [entryAt, horigin]

theorem entryAt_target (h : Renamed root t op source target after) (ht : t.Sound root) :
    after.entryAt root target = t.entryAt root source :=
  h.entryAt_rebased ht h.properSource (by rw [Path.rebase?, beq_self_eq_true, if_pos rfl])

/-- What was neither below the old place nor below the new one stays. -/
theorem entryAt_elsewhere (h : Renamed root t op source target after) (ht : t.Sound root)
    (hp : Proper path) (hsource : Path.isUnder source path = false)
    (hthere : t.entryAt root path ≠ none) : after.entryAt root path = t.entryAt root path := by
  rw [h.eq_graft ht, entryAt_graft]
  cases hbelow : (spine target).isPrefixOf? (spine path) with
  | none =>
      dsimp only
      rw [if_neg]
      rw [← Path.isUnder_iff_spine h.properSource.normal hp.normal, hsource]
      exact Bool.false_ne_true
  | some rest =>
      -- nothing stands at a free place or below it
      have hunder : Path.isUnder target path = true :=
        (Path.isUnder_iff_spine h.properTarget.normal hp.normal).mpr
          ⟨rest, (Text.isPrefixOf?_eq_some.mp hbelow).symm⟩
      by_cases hne : path = target
      · exact absurd (hne ▸ h.free) hthere
      · have hfree : t.entryAt root target ≠ some .directory := by rw [h.free]; simp
        exact absurd (Keeper.entryAt_below ht h.properTarget hp hfree hunder hne) hthere

/-- How an operation may be taken: a directory moves as one. -/
def Takes (root : Spine) (t : FileTree) (source target : String) (took : Operation) : Prop :=
  took = .moved source target ∧ t.entryAt root source ≠ some .directory ∨
    took = .directoryMoved source target

theorem Takes.isMove (h : Takes root t source target took) :
    took = .moved source target ∨ took = .directoryMoved source target := h.imp_left (·.1)

/-- **What was there is where the operation carries it.** -/
theorem entryAt_placeOf (h : Renamed root t op source target after) (ht : t.Sound root)
    (htook : Takes root t source target took) (hp : Proper path)
    (hthere : t.entryAt root path ≠ none) :
    after.entryAt root (took.placeOf path) = t.entryAt root path := by
  by_cases hunder : Path.isUnder source path = true
  · obtain ⟨new, hnew⟩ := Path.exists_rebase? h.properSource hunder target
    have hplace : took.placeOf path = new := by
      rcases htook with ⟨rfl, hfile⟩ | rfl
      · -- below a file there is nothing but the file
        by_cases hsame : path = source
        · rw [hsame, Path.rebase?, beq_self_eq_true, if_pos rfl] at hnew
          rw [Operation.placeOf, if_pos hsame]
          exact Option.some.inj hnew
        · exact absurd (Keeper.entryAt_below ht h.properSource hp hfile hunder hsame) hthere
      · rw [Operation.placeOf, hnew, Option.getD_some]
    rw [hplace]
    exact h.entryAt_rebased ht hp hnew
  · rw [Bool.not_eq_true] at hunder
    have hplace : took.placeOf path = path := by
      rcases htook with ⟨rfl, -⟩ | rfl
      · rw [Operation.placeOf, if_neg]
        rintro rfl
        rw [Path.isUnder_refl] at hunder
        exact Bool.noConfusion hunder
      · rw [Operation.placeOf, Path.rebase?_of_not_isUnder hp.normal h.properSource h.properTarget
          hunder, Option.getD_none]
    rw [hplace]
    exact h.entryAt_elsewhere ht hp hunder hthere

end Renamed

namespace Keeper

variable {k : Keeper} {root : Spine} {after : FileTree} {op took : Operation}
  {source target file : String}

/-! ## How an operation is taken -/

/-- The operation that is answered: what is told as the move of a file may be that of a directory. -/
def followed (k : Keeper) : Operation → Operation
  | .moved source target =>
      if k.tree.isDirectory (k.locate target) then .directoryMoved source target
      else .moved source target
  | op => op

theorem takes_followed (hr : k.Rooted root) (h : Renamed root k.tree op source target after) :
    Renamed.Takes root k.tree source target (({ k with tree := after } : Keeper).followed op) := by
  rcases h.told with rfl | rfl
  · have hr' : ({ k with tree := after } : Keeper).Rooted root := ⟨hr.located, h.sound hr.sound⟩
    rw [followed, hr'.locate_eq]
    split
    · exact .inr rfl
    · rename_i hdir
      refine .inl ⟨rfl, fun he => hdir ?_⟩
      rw [(h.sound hr.sound).isDirectory_iff h.properTarget, h.entryAt_target hr.sound]
      exact he
  · exact .inr rfl

/-- **What any answer writes is a plan**: that of the operation as it is taken. -/
theorem apply_followed (k : Keeper) (op : Operation) :
    (k.apply op).1.tree = (k.revise (k.preview (k.followed op))).1.tree ∧
      (k.apply op).2.revision = (k.revise (k.preview (k.followed op))).2 := by
  by_cases hdir : ∃ source target, op = .moved source target ∧
      k.tree.isDirectory (k.locate target) = true
  · obtain ⟨source, target, rfl, hdir⟩ := hdir
    rw [followed, if_pos hdir]
    have hanswer : ({ k with log := [] } : Keeper).answer (.moved source target) =
        ({ k with log := [] } : Keeper).answer (.directoryMoved source target) := by
      rw [answer, answer, onMoved]
      exact if_pos hdir
    have hwrites := k.apply_writes (.directoryMoved source target) (by simp)
    rw [apply, ← hanswer] at hwrites
    exact hwrites
  · have hfile : ∀ source target, op = .moved source target →
        k.tree.isDirectory (k.locate target) = false := fun source target hop => by
      rw [← Bool.not_eq_true]
      exact fun hthere => hdir ⟨source, target, hop, hthere⟩
    have htaken : k.followed op = op := by
      cases op with
      | moved source target => rw [followed, if_neg (by simp [hfile source target rfl])]
      | created _ | deleted _ | directoryMoved _ _ | modified _ => rfl
    rw [htaken]
    exact k.apply_writes op hfile

/-- Only moves are answered by writing. -/
theorem tree_apply_of_not_isMove (k : Keeper) (h : op.isMove = false) :
    (k.apply op).1.tree = k.tree := by
  have hempty : k.preview (k.followed op) = ∅ := by
    cases op with
    | moved _ _ | directoryMoved _ _ => exact absurd h (by simp [Operation.isMove])
    | created _ | deleted _ | modified _ => rfl
  rw [(k.apply_followed op).1, hempty, k.revise_empty.1]

/-! ## Which links are edited -/

/--
Whether a reference has to do with a move: one of its readings leads to what has moved, or it stands
in a file that has moved, is relative to that, and leads out of what has moved to something that is
there.
-/
def Concerns (k : Keeper) (op : Operation) (r : Reference) : Prop :=
  op.carries r.rooted = true ∨ op.carries r.resolved = true ∨
    (op.carries r.source = true ∧ op.carries r.resolved = false ∧
      Edit.LeadsOut k.hasPath r r.source)

theorem leadsOut_of_outbound? {r : Reference} {new : String} {e : Edit}
    (h : Edit.outbound? k.hasPath r r.source new = some e) : Edit.LeadsOut k.hasPath r r.source := by
  by_contra hnot
  rw [Edit.outbound?_of_not_leadsOut hnot] at h
  exact absurd h (by simp)

theorem concerns_of_means {r : Reference} {path : String} (hp : Proper path)
    (hcarried : op.carries path = true) (hmeans : Edit.means r path = true) : k.Concerns op r := by
  rcases (Edit.means_iff hp).mp hmeans with rfl | rfl
  · exact .inl hcarried
  · exact .inr (.inl hcarried)

/-- **Every edit of a plan is for a record that the move concerns**, in the file this is carried to. -/
theorem InStep.concerned_of_mem_preview (h : k.InStep) (hs : Proper source)
    (hop : took = .moved source target ∨ took = .directoryMoved source target) {e : Edit}
    (he : e ∈ (({ k with tree := after } : Keeper).preview took).edits file) :
    ∃ r, k.index.Has r ∧ took.placeOf r.source = file ∧ e.IsFor r ∧
      ({ k with tree := after } : Keeper).Concerns took r := by
  rcases hop with rfl | rfl
  · rcases mem_edits_planFileMove.mp he with ⟨r, hr, hfile, hedit⟩ | ⟨-, hfile, r, hr, hedit⟩
    · obtain ⟨hfor, hmeans⟩ := Edit.of_inbound? hedit
      exact ⟨r, has_of_mem_candidates hr, hfile.symm, hfor,
        concerns_of_means hs (by simp [Operation.carries]) hmeans⟩
    · obtain ⟨rfl, hhas⟩ := h.valid.mem_recordsFrom_iff.mp hr
      have hleads := leadsOut_of_outbound? hedit
      refine ⟨r, hhas, ?_, Edit.isFor_of_outbound? hedit, .inr (.inr ⟨?_, ?_, hleads⟩)⟩
      · rw [Operation.placeOf, if_pos rfl, hfile]
      · simp [Operation.carries]
      · rw [Operation.carries, beq_eq_false_iff_ne]
        exact hleads.other
  · rcases mem_edits_planDirectoryMove.mp he with
      ⟨old, hold, new, hnew, r, hr, hfile, hedit⟩ | ⟨-, moved, hmoved, hfile, r, hr, hout, hedit⟩
    · obtain ⟨hfor, hmeans⟩ := Edit.of_inbound? hedit
      exact ⟨r, Index.has_of_mem_lookup hr, hfile.symm, hfor,
        concerns_of_means (h.proper_target hs hold) (Index.mem_targetsUnder.mp hold).1 hmeans⟩
    · obtain ⟨rfl, hhas⟩ := h.valid.mem_recordsFrom_iff.mp hr
      refine ⟨r, hhas, ?_, Edit.isFor_of_outbound? hedit,
        .inr (.inr ⟨(h.valid.mem_sourcesUnder.mp hmoved).2, hout, leadsOut_of_outbound? hedit⟩)⟩
      rw [Operation.placeOf, hfile, Option.getD_some]

/-! ## One file -/

/--
What has become of a file that an answer names: it has been carried from somewhere, it has the bytes of a
text now, and this text is what it read with some links exchanged, all of them for records that the
move concerns.
-/
structure EditedAtLinks (k : Keeper) (root : Spine) (op : Operation) (after done : FileTree)
    (source file : String) (bytes : ByteArray) (mode : Nat) (content text : String)
    (link : Reference → String) : Prop where
  carried : op.placeOf source = file
  before : after.entryAt root file = some (.file bytes mode)
  read : asText? k.project.settings.lenientText bytes = some content
  exact : Text.decode? bytes ≠ none → content.toUTF8 = bytes
  written : done.entryAt root file = some (.file text.toUTF8 mode)
  relinked : Relinked link (Links.find k.project.rule source content).references content text
  concerned : ∀ r ∈ (Links.find k.project.rule source content).references, link r ≠ r.target →
    k.index.Has r ∧ ({ k with tree := after } : Keeper).Concerns op r

/-- What a move is planned from once it has happened. -/
theorem InStep.poised (h : k.InStep) (hr : k.Rooted root)
    (hrenamed : Renamed root k.tree op source target after)
    (htook : Renamed.Takes root k.tree source target took) : k.Poised root took source target := by
  refine ⟨hr, h.mono fun _ hf => hf.elim, hrenamed.properSource, hrenamed.properTarget,
    htook.isMove, ?_⟩
  rcases htook with ⟨rfl, -⟩ | rfl <;> exact hrenamed.free

theorem InStep.proper_preview_of_renamed (h : k.InStep)
    (hrenamed : Renamed root k.tree op source target after)
    (htook : took = .moved source target ∨ took = .directoryMoved source target) :
    ∀ pair ∈ (({ k with tree := after } : Keeper).preview took).toList, Proper pair.1 := by
  have hbut : ({ k with tree := after } : Keeper).InStepBut fun _ => True :=
    ⟨h.valid, h.settled.mono fun _ hf => hf.elim, h.sources, fun _ hn => absurd trivial hn⟩
  rcases htook with rfl | rfl
  · exact hbut.proper_planFileMove hrenamed.properTarget
  · exact hbut.proper_planDirectoryMove hrenamed.properSource hrenamed.properTarget

/-- The edits for a file are all for records of the one file that is carried there. -/
theorem InStep.exists_origin (h : k.InStep) (hr : k.Rooted root)
    (hrenamed : Renamed root k.tree op source target after)
    (htook : Renamed.Takes root k.tree source target took)
    (hne : (({ k with tree := after } : Keeper).preview took).edits file ≠ []) :
    ∃ origin content, took.placeOf origin = file ∧ Proper origin ∧
      ReadsAs root k.tree k.project.settings.lenientText origin content ∧
      ∀ e ∈ (({ k with tree := after } : Keeper).preview took).edits file,
        ∃ r ∈ (Links.find k.project.rule origin content).references, e.IsFor r ∧
          k.index.Has r ∧ ({ k with tree := after } : Keeper).Concerns took r := by
  have hpoised := h.poised hr hrenamed htook
  obtain ⟨e, he⟩ := List.exists_mem_of_ne_nil _ hne
  obtain ⟨r, hhas, hplace, -, -⟩ :=
    h.concerned_of_mem_preview hrenamed.properSource htook.isMove he
  obtain ⟨content, hread, hmem⟩ := h.content hr hhas
  have hp := h.proper_source hhas
  refine ⟨r.source, content, hplace, hp, hread, fun f hf => ?_⟩
  obtain ⟨q, hq, hplace', hfor, hconcerns⟩ :=
    h.concerned_of_mem_preview hrenamed.properSource htook.isMove hf
  obtain ⟨other, hread', -⟩ := h.content hr hq
  have hp' := h.proper_source hq
  have hsource : q.source = r.source :=
    hpoised.eq_of_placeOf hp' hp (hread'.there hr.sound hp') (hread.there hr.sound hp)
      (hplace'.trans hplace.symm)
  exact ⟨q, hmem q hq hsource, hfor, hq, hconcerns⟩

/-- **A file that an answer names is edited at links that the move concerns.** -/
theorem InStep.editedAtLinks (h : k.InStep) (hr : k.Rooted root)
    (hrenamed : Renamed root k.tree op source target after)
    (htook : Renamed.Takes root k.tree source target took)
    (hwrite : k.project.settings.dryRun = false) {n : Nat} {b : Batch}
    (hb : b = reviseAll (location root) k.project.settings.writing after
      (({ k with tree := after } : Keeper).preview took))
    (hnamed : (file, n) ∈ b.report.files)
    (hnot : ¬ b.report.BackedUp k.project.settings.writing file) :
    ∃ origin bytes mode content text link,
      k.EditedAtLinks root took after b.tree origin file bytes mode content text link := by
  subst hb
  have hafter := hrenamed.sound hr.sound
  obtain ⟨-, hne, bytes, mode, content, hbytes, hcontent, -, hdone⟩ := exists_content_of_named
    hafter (h.proper_preview_of_renamed hrenamed htook.isMove) hwrite hnamed hnot
  obtain ⟨origin, other, hplace, hp, hread, hedits⟩ := h.exists_origin hr hrenamed htook hne
  -- the text that is spliced is the one that the records were read from
  have hthere := hrenamed.entryAt_placeOf hr.sound htook hp (hread.there hr.sound hp)
  obtain ⟨old, kept, hold, hother⟩ := (hr.sound.readText_eq_ok hp).mp hread
  rw [hplace, hbytes, hold] at hthere
  obtain ⟨rfl, rfl⟩ := Entry.file.inj (Option.some.inj hthere)
  obtain rfl : content = other := Option.some.inj (hcontent.symm.trans hother)
  have hlaid := Links.laid_find k.project.rule origin content
  have hfor : ∀ e ∈ (({ k with tree := after } : Keeper).preview took).edits file,
      ∃ r ∈ (Links.find k.project.rule origin content).references, e.IsFor r := fun e he => by
    obtain ⟨r, hmem, hfor, -⟩ := hedits e he
    exact ⟨r, hmem, hfor⟩
  refine ⟨origin, bytes, mode, content, _, _, hplace, hbytes, hcontent, fun hutf8 => ?_, hdone,
    (Edit.splice_fresh hlaid hfor).1, fun r hmem hchanged => ?_⟩
  · obtain ⟨text, htext⟩ := Option.ne_none_iff_exists'.mp hutf8
    rw [asText?, htext] at hcontent
    rw [← Option.some.inj hcontent]
    exact toUTF8_of_decode? htext
  · rcases Edit.linkOf_for hlaid hfor hmem with ⟨e, he, hfor', -⟩ | ⟨-, hlink⟩
    · obtain ⟨q, hq, hforq, hhas, hconcerns⟩ := hedits e he
      obtain rfl : q = r := hlaid.eq_of_place hq hmem (hforq.line.symm.trans hfor'.line)
        (hforq.columnStart.symm.trans hfor'.columnStart)
      exact ⟨hhas, hconcerns⟩
    · exact absurd hlink hchanged

/-! ## A whole answer -/

/--
What an answer to a rename keeps to. It writes to the files that its report names, and to their
backups, and nowhere else. In a named file that is no backup of another one it edits links that the
move concerns. A dry run writes nothing, and if nothing that can be read is refused it counts for
each such file what the run counts.
-/
structure Confined (k : Keeper) (root : Spine) (op : Operation) (after : FileTree) : Prop where
  others : ∀ place : Spine,
    (∀ named ∈ (({ k with tree := after } : Keeper).apply op).2.revision.files,
      ¬ k.project.settings.writing.Takes root named.1 place) →
    (({ k with tree := after } : Keeper).apply op).1.tree.entries[place]? = after.entries[place]?
  links : k.project.settings.dryRun = false →
    ∀ named ∈ (({ k with tree := after } : Keeper).apply op).2.revision.files,
      ¬ (({ k with tree := after } : Keeper).apply op).2.revision.BackedUp
        k.project.settings.writing named.1 →
      ∃ origin bytes mode content text link,
        k.EditedAtLinks root (({ k with tree := after } : Keeper).followed op) after
          (({ k with tree := after } : Keeper).apply op).1.tree origin named.1 bytes mode content
          text link
  still : k.project.settings.dryRun = true →
    (({ k with tree := after } : Keeper).apply op).1.tree = after
  foretold : k.project.settings.dryRun = false →
    (∀ failure ∈ (({ k with tree := after } : Keeper).apply op).2.revision.failures,
      ∀ content, ¬ ReadsAs root after k.project.settings.lenientText failure.1 content) →
    ∀ file n, ¬ (({ k with tree := after } : Keeper).apply op).2.revision.BackedUp
        k.project.settings.writing file →
      ((file, n) ∈ (({ k with tree := after } : Keeper).dry.apply op).2.revision.files ↔
        (file, n) ∈ (({ k with tree := after } : Keeper).apply op).2.revision.files)

/-- What an answer is: a batch, carried out for the plan of the operation as it is taken. -/
theorem apply_eq_reviseAll (hr : k.Rooted root) (op : Operation) :
    (({ k with tree := after } : Keeper).apply op).1.tree =
        (reviseAll (location root) k.project.settings.writing after
          (({ k with tree := after } : Keeper).preview
            (({ k with tree := after } : Keeper).followed op))).tree ∧
      (({ k with tree := after } : Keeper).apply op).2.revision =
        (reviseAll (location root) k.project.settings.writing after
          (({ k with tree := after } : Keeper).preview
            (({ k with tree := after } : Keeper).followed op))).report := by
  obtain ⟨htree, hreport⟩ := ({ k with tree := after } : Keeper).apply_followed op
  rw [htree, hreport, ← hr.located]
  exact ⟨rfl, rfl⟩

/-- A dry run goes by the same plan. -/
theorem revision_apply_dry (hr : k.Rooted root) (op : Operation) :
    (({ k with tree := after } : Keeper).dry.apply op).2.revision =
      (reviseAll (location root) { k.project.settings.writing with dryRun := true } after
        (({ k with tree := after } : Keeper).preview
          (({ k with tree := after } : Keeper).followed op))).report := by
  have hfollowed : ({ k with tree := after } : Keeper).dry.followed op =
      ({ k with tree := after } : Keeper).followed op := by
    cases op <;> rfl
  rw [(({ k with tree := after } : Keeper).dry.apply_followed op).2, hfollowed, dry_preview,
    ← hr.located]
  rfl

/-- A tree after a rename, if that is not refused. -/
def renamedTo (t : FileTree) (source target : String) : FileTree :=
  (t.rename (Path.locate (location ["w"]) source) (Path.locate (location ["w"]) target)).toOption.getD t

theorem renamed_renamedTo {t : FileTree}
    (hop : op = .moved source target ∨ op = .directoryMoved source target)
    (hs : Proper source) (ht : Proper target) (hfree : t.entryAt ["w"] target = none)
    (hok : (t.rename (Path.locate (location ["w"]) source) (Path.locate (location ["w"]) target)).isOk =
      true) : Renamed ["w"] t op source target (renamedTo t source target) :=
  ⟨hs, ht, hfree, eq_ok_of_isOk hok t, hop⟩

/-- The notes when a directory of the root has got another name, which is told as the move of a file. -/
theorem shelf_directory_renamed : Renamed ["w"] keeperOfShelf.tree (.moved "d" "f") "d" "f"
    (renamedTo shelf "d" "f") := by
  rw [tree_keeperOfShelf]
  exact renamed_renamedTo (.inl rfl) (by decide) (by decide) (by decide +kernel) (by decide +kernel)

section Straying

variable {p : Project}

/-- A keeper that has scanned a tree in which something has been renamed then. -/
def Scannable.renamed (s : Scannable p ["w"]) (source target : String) : Keeper :=
  { s.keeper with tree := renamedTo s.tree source target }

/-- What a keeper says of a rename, and what one of the files is before it answers and behind it. -/
structure Scannable.Answers (s : Scannable p ["w"]) (source target : String)
    (report : RevisionReport) (file : String) (before done : Entry) : Prop where
  inStep : s.keeper.InStep
  rooted : s.keeper.Rooted ["w"]
  renamed : Renamed ["w"] s.keeper.tree (.moved source target) source target
    (renamedTo s.tree source target)
  reported : ((s.renamed source target).apply (.moved source target)).2.revision = report
  before : (renamedTo s.tree source target).entryAt ["w"] file = some before
  done : ((s.renamed source target).apply (.moved source target)).1.tree.entryAt ["w"] file =
    some done

/-- Where an operation is taken as it is told, the files of its plan are revised in turn. -/
theorem apply_eq_foldl {k : Keeper} {pairs : List (String × List Edit)} (htaken : k.followed op = op)
    (hplan : (k.preview op).toList = pairs) :
    (k.apply op).1.tree = (pairs.foldl (Batch.step k.project.root k.project.settings.writing)
        ⟨k.tree, [], .empty⟩).tree ∧
      (k.apply op).2.revision = (pairs.foldl
        (Batch.step k.project.root k.project.settings.writing) ⟨k.tree, [], .empty⟩).report := by
  obtain ⟨htree, hreport⟩ := k.apply_followed op
  rw [htree, hreport, htaken, revise, reviseAll, hplan]
  exact ⟨rfl, rfl⟩

/-- A project with backups, in which a text need not be UTF-8. -/
def savingProject : Project :=
  .make "/w" { Settings.defaults with backups := true, lenientText := true }

/-- Notes of this project that can be scanned, as a check of their entries shows. -/
def scannableSaving (entries : List (Spine × Entry))
    (hholds : ∀ n < ["w"].length + 1, (Command.site entries).tree.Holds (["w"].take n))
    (hbelow : ∀ pair ∈ (Command.site entries).tree.below ["w"],
      (∀ name ∈ pair.1, IsFileName name) ∧
      (Command.site entries).tree.Holds (["w"] ++ pair.1.dropLast) ∧ pair.2.isLink = false)
    (hplain : ∀ pair ∈ (Command.site entries).tree.below ["w"], pair.2.isDirectory = true →
      savingProject.isOwn (String.intercalate "/" pair.1) = false) :
    Scannable savingProject ["w"] where
  tree := (Command.site entries).tree
  located := by decide
  sound := sound_of_below (by decide) (by decide) hholds hbelow
  clear := ⟨by decide +kernel, plain_of_below hplain⟩

/-- A link, and a byte that is no character. -/
def torn : Scannable savingProject ["w"] :=
  scannableSaving [(["a.md"], .file ("[x](d/o.md)\n".toUTF8.push 0xFF) newMode),
    (["d"], .directory), (["d", "o.md"], Command.note "# Old\n")]
    (by decide +kernel) (by decide +kernel) (by decide +kernel)

/-- A link that leads to where its note is going to be. -/
def ahead : Scannable savingProject ["w"] :=
  scannableSaving [(["a"], .directory), (["a", "x.md"], Command.note "[x](../b/x.md)\n"),
    (["b"], .directory)] (by decide +kernel) (by decide +kernel) (by decide +kernel)

/-- A note that leads to itself, from its first line or its second, and another that leads to it. -/
def quay (late : Bool) : Scannable savingProject ["w"] :=
  scannableSaving [(["p"], .directory), (["p", "h.md"], Command.note "to [s](/p/s.md)\n"),
    (["p", "s.md"], Command.note (if late then "\n[s](/p/s.md)\n" else "[s](/p/s.md)\n"))]
    (by cases late <;> decide +kernel) (by cases late <;> decide +kernel)
    (by cases late <;> decide +kernel)

theorem Scannable.answers {s : Scannable p ["w"]} {pairs : List (String × List Edit)}
    {report : RevisionReport} {before done : Entry} (hs : Proper source) (ht : Proper target)
    (hfree : s.tree.entryAt ["w"] target = none)
    (hok : (s.tree.rename (Path.locate (location ["w"]) source)
      (Path.locate (location ["w"]) target)).isOk = true)
    (htaken : (s.renamed source target).followed (.moved source target) = .moved source target)
    (hplan : ((s.renamed source target).planFileMove source target).toList = pairs)
    (hreported : (pairs.foldl (Batch.step p.root p.settings.writing)
      ⟨renamedTo s.tree source target, [], .empty⟩).report = report)
    (hbefore : (renamedTo s.tree source target).entryAt ["w"] file = some before)
    (hdone : (pairs.foldl (Batch.step p.root p.settings.writing)
      ⟨renamedTo s.tree source target, [], .empty⟩).tree.entryAt ["w"] file = some done) :
    s.Answers source target report file before done := by
  have hsame := s.scanned.1
  have hproject : (s.renamed source target).project = p := hsame.project
  obtain ⟨htree, hreport⟩ := apply_eq_foldl htaken hplan
  rw [hproject] at htree hreport
  refine ⟨s.scanned.2, s.rooted, ?_, hreport.trans hreported, hbefore,
    (congrArg (·.entryAt ["w"] file) htree).trans hdone⟩
  rw [hsame.tree]
  exact renamed_renamedTo (.inl rfl) hs ht hfree hok

theorem plan_quay (late : Bool) :
    (((quay late).renamed "p/s.md" "p/h.md.linkbak").planFileMove "p/s.md"
      "p/h.md.linkbak").toList =
      [("p/h.md", [⟨14, 7, 1, "/p/s.md", "/p/h.md.linkbak"⟩]),
        ("p/h.md.linkbak",
          [⟨11, 4, if late then 2 else 1, "/p/s.md", "/p/h.md.linkbak"⟩])] := by
  have hhits : (spellings "p/s.md").flatMap
      ((quay late).renamed "p/s.md" "p/h.md.linkbak").index.lookup =
        [⟨some "s", 14, 7, .markdownInline, 1, "p/h.md", "/p/s.md"⟩,
          ⟨some "s", 11, 4, .markdownInline, if late then 2 else 1, "p/s.md", "/p/s.md"⟩] := by
    cases late <;> decide +kernel
  unfold planFileMove candidates
  rw [hhits, List.mergeSort_of_pairwise (by cases late <;> decide)]
  cases late <;> decide +kernel

end Straying

end Keeper

end LinkKeeper
