import LinkKeeper.Proofs.Successors

/-!
# No link to a moved file is lost

When a file has moved, every link to it becomes one to its new place. The index learns of
that by reading the changed files again, and the reader knows nothing of what was written:
it takes a text for a link by its looks. So a record has its successor where the reader
takes the new text for a link, and then it has exactly one. Inline links of Markdown are
taken for links whatever they look like.

What the index holds of the old place after that is no successor of anything, unless it may
be read as the new place too.
-/

namespace LinkKeeper

open FileTree
open Path (Proper isRootAbsolute normalize resolve parent)

namespace Keeper

variable {k : Keeper} {root : Spine} {after : FileTree} {source target : String} {r q : Reference}

/-! ## What is found is filed -/

/-- A link that is found in a file which is read is filed, unless it leads out of the project. -/
theorem InStep.has_of_found (h : k.InStep) (hr : k.Rooted root) {path text : String}
    (hs : k.isSource path = true)
    (hread : ReadsAs root k.tree k.project.settings.lenientText path text)
    (hq : q ∈ (Links.find k.project.rule path text).references) (hinside : q.isInside = true) :
    k.index.Has q := by
  unfold ReadsAs at hread
  rw [← hr.locate_eq] at hread
  have hmem : q ∈ k.index.recordsFrom path := by
    rw [h.current path not_false, expected, if_pos hs, parsed_of_ok hread]
    exact List.mem_filter.mpr ⟨hq, hinside⟩
  exact h.valid.has hmem

/-- A link to a file leads into the project. -/
theorem isInside_of_means {t : FileTree} (hsound : t.Sound root) {path : String} (hp : Proper path)
    (hfile : t.entryAt root path ≠ some .directory) (hholder : Proper r.source)
    (hthere : t.entryAt root r.source ≠ none) (hmeans : Edit.means r path = true) :
    r.isInside = true := by
  have hreadings := (Edit.means_iff hp).mp hmeans
  have hnonempty : r.rooted ≠ "" := by
    intro hempty
    have hsegments : Path.segments r.targetPath = [] := by
      rw [Reference.rooted, Path.normalize] at hempty
      exact (Path.join_eq_empty (Path.tidy_segments _)).mp hempty
    cases ha : isRootAbsolute r.targetPath with
    | false => exact not_climbing hsound hp hfile hholder hthere hmeans ha 0 hsegments
    | true =>
        have hsame : r.resolved = r.rooted := Edit.resolve_of_isRootAbsolute ha _
        rw [hsame, or_self, hempty] at hreadings
        exact hp.nonempty hreadings.symm
  unfold Reference.isInside
  have hinside : (Path.escapes r.rooted && Path.escapes r.resolved) = false := by
    rcases hreadings with he | he
    · rw [he, hp.inside, Bool.false_and]
    · rw [he, hp.inside, Bool.and_false]
  rw [hinside, Bool.not_false, Bool.and_true, Bool.not_eq_true', String.isEmpty_eq_false_iff]
  exact hnonempty

/-! ## Successors -/

/--
What comes after a reference once a move has been answered: the new link, in the file that holds
the reference then, on its line, where this link has landed.
-/
def Succeeds (k : Keeper) (root : Spine) (after : FileTree) (source target : String)
    (r q : Reference) : Prop :=
  ∃ content, ReadsAs root k.tree k.project.settings.lenientText r.source content ∧
    q.source = holder source target r ∧ q.line = r.line ∧
    q.columnStart = r.landing (k.linksIn after source target (holder source target r))
      (Links.find k.project.rule r.source content).references ∧
    q.target = k.linksIn after source target (holder source target r) r

/-- All successors of a reference have one place. -/
theorem Succeeds.place_eq {p : Reference} (h : k.Succeeds root after source target r q)
    (h' : k.Succeeds root after source target r p) : p.place = q.place := by
  obtain ⟨content, hread, hsource, hline, hcolumn, -⟩ := h
  obtain ⟨content', hread', hsource', hline', hcolumn', -⟩ := h'
  obtain rfl : content' = content := Except.ok.inj (hread'.symm.trans hread)
  rw [Reference.place, Reference.place, hsource, hline, hcolumn, hsource', hline', hcolumn']

/-- Path characters are no signs of a fragment. -/
theorem not_hash_of_isPlain {path : String} (h : IsPlain path) : '#' ∉ path.toList :=
  fun hmem => absurd (h _ hmem) (by decide)

/-- **What comes after a link to the old place means the new one**, which has no sign of a fragment in its name. -/
theorem InStep.means_of_succeeds_of_hash (h : k.InStep) (hr : k.Rooted root) (hs : Proper source)
    (ht : Proper target) (hfile : k.tree.entryAt root source ≠ some .directory)
    (hhash : '#' ∉ target.toList) (hhas : k.index.Has r) (hmeans : Edit.means r source = true)
    (hkept : k.KeepsUp source target r) (hq : k.Succeeds root after source target r q) :
    Edit.means q target = true := by
  obtain ⟨content, -, hsource, -, -, htarget⟩ := hq
  rw [h.linksIn_of_means hr hs ht hfile hhas hmeans hkept] at htarget
  exact Edit.outcome_means (m := fileMove source target r.source) hmeans
    (hkept.proper h ht hhas).1 ht hhash hsource htarget

theorem InStep.means_of_succeeds (h : k.InStep) (hr : k.Rooted root) (hs : Proper source)
    (ht : Proper target) (hfile : k.tree.entryAt root source ≠ some .directory)
    (hplain : IsPlain target) (hhas : k.index.Has r) (hmeans : Edit.means r source = true)
    (hkept : k.KeepsUp source target r) (hq : k.Succeeds root after source target r q) :
    Edit.means q target = true :=
  h.means_of_succeeds_of_hash hr hs ht hfile (not_hash_of_isPlain hplain) hhas hmeans hkept hq

/-! ## The answer -/

/-- Whether the reader takes the new link of a reference for a link. -/
def TakenUp (k : Keeper) (root : Spine) (after : FileTree) (source target : String)
    (r : Reference) : Prop :=
  ∃ text, ReadsAs root (k.answered after source target).1.tree k.project.settings.lenientText
      (holder source target r) text ∧
    ∃ q ∈ (Links.find k.project.rule (holder source target r) text).references,
      k.Succeeds root after source target r q

/-- The answer brings the index in step, and touches no files but those it has edits for. -/
theorem InStep.answered (h : k.InStep) (hr : k.Rooted root)
    (hstep : TreeStep root k.tree (.moved source target) after) :
    (k.answered after source target).1.project = k.project ∧
      (k.answered after source target).1.Rooted root ∧ (k.answered after source target).1.InStep ∧
      KeepsBut root after (k.answered after source target).1.tree
        fun path => (k.movePlan after source target).edits path ≠ [] := by
  have ha := hstep.sound_moved hr.sound
  have hanswer := h.apply_moved hr hstep ha
  obtain ⟨hkeeps, hrevised⟩ := KeepsBut.reviseAll ha k.project.settings.writing
    (h.proper_preview hstep)
  rw [← hr.located] at hkeeps hrevised
  have htree := (answered_writes hr hstep).1
  refine ⟨hanswer.project, ⟨?_, ?_⟩, hanswer.inStep, ?_⟩
  · exact (congrArg Project.root hanswer.project).trans hr.located
  · rw [htree]
    exact hkeeps.sound
  · rw [htree]
    refine hkeeps.mono fun path hpath => ?_
    obtain ⟨⟨file, es⟩, hpair, rfl⟩ := List.mem_map.mp (hrevised path hpath)
    obtain ⟨hedits, hne⟩ := (full_planFileMove _ source target).edits_ne_nil hpair
    unfold movePlan
    rw [hedits]
    exact hne

/-- A moved file is no directory at its new place when the move has been answered. -/
theorem InStep.target_not_directory (h : k.InStep) (hr : k.Rooted root)
    (hstep : TreeStep root k.tree (.moved source target) after) :
    (k.answered after source target).1.tree.entryAt root target ≠ some .directory := by
  obtain ⟨-, -, -, hkeeps⟩ := h.answered hr hstep
  cases hstep with
  | moved hs ht there renamed =>
      intro hdir
      have hafter := (hkeeps.directories target ht).mp hdir
      rw [hr.sound.entryAt_moved hs ht there renamed ht, if_pos rfl] at hafter
      exact absurd hafter (by simp)

/-- Nothing is filed for the old place when the move has been answered. -/
theorem InStep.source_ne_of_answered (h : k.InStep) (hr : k.Rooted root)
    (hstep : TreeStep root k.tree (.moved source target) after) (hne : source ≠ target)
    (hhas : (k.answered after source target).1.index.Has q) : q.source ≠ source := by
  obtain ⟨-, hrooted, hin, hkeeps⟩ := h.answered hr hstep
  cases hstep with
  | moved hs ht there renamed =>
      intro he
      have hproper := hin.proper_source hhas
      have hgone : after.entryAt root q.source = none := by
        rw [hr.sound.entryAt_moved hs ht there renamed hproper, if_neg (he ▸ hne), if_pos he]
      exact hin.entryAt_source hrooted hhas
        (hkeeps.free _ hproper (hin.source_not_own hhas) hgone)

/-- **A link that is taken for one has exactly one successor.** -/
theorem InStep.exists_successor (h : k.InStep) (hr : k.Rooted root)
    (hstep : TreeStep root k.tree (.moved source target) after) (hplain : IsPlain target)
    (hhas : k.index.Has r) (hmeans : Edit.means r source = true) (hkept : k.KeepsUp source target r)
    (htaken : k.TakenUp root after source target r) :
    ∃! q, (k.answered after source target).1.index.Has q ∧
      k.Succeeds root after source target r q := by
  obtain ⟨hproject, hrooted, hin, -⟩ := h.answered hr hstep
  have hfile := h.target_not_directory hr hstep
  obtain ⟨text, hread, q, hq, hnext⟩ := htaken
  cases hstep with
  | @moved _ _ bytes mode _ hs ht there renamed =>
  have hmeans' := h.means_of_succeeds hr hs ht (by simp [there]) hplain hhas hmeans hkept hnext
  obtain ⟨hholder, -, hmonitored⟩ := hkept.proper h ht hhas
  have hsource : q.source = holder source target r := hnext.choose_spec.2.1
  have hthere : (k.answered after source target).1.tree.entryAt root q.source ≠ none := by
    unfold ReadsAs at hread
    rw [hrooted.sound.readText_eq_ok hholder] at hread
    obtain ⟨_, _, hentry, -⟩ := hread
    rw [hsource, hentry]
    simp
  have hinside := isInside_of_means hrooted.sound ht hfile (by rw [hsource]; exact hholder) hthere
    hmeans'
  rw [← hproject] at hread hq hmonitored
  have hfiled : (k.answered after source target).1.index.Has q :=
    hin.has_of_found hrooted (isSource_iff.mpr ⟨hholder, hmonitored⟩) hread hq hinside
  exact ⟨q, ⟨hfiled, hnext⟩, fun p hp =>
    hin.eq_of_place hrooted hfiled hp.1 (hnext.place_eq hp.2)⟩

/-- No new link is empty or breaks its line. -/
theorem InStep.linksIn_inLine (h : k.InStep) (hr : k.Rooted root) (after : FileTree)
    (hs : Proper source) (ht : Proper target) (hfile : k.tree.entryAt root source ≠ some .directory)
    (hsource : IsPlain source) (htarget : IsPlain target) (hkept : k.KeepsUp source target r)
    {content : List Char} {references : List Reference} (hlaid : Links.Laid content references)
    (hmem : ∀ q, k.index.Has q → q.source = r.source → q ∈ references) (hq : q ∈ references) :
    (k.linksIn after source target (holder source target r) q).toList ≠ [] ∧
      '\n' ∉ (k.linksIn after source target (holder source target r) q).toList := by
  obtain ⟨hne, hinline⟩ := (hlaid.stands q hq).some
  have hfeed : '\n' ∉ q.target.toList := fun hc => (hinline _ hc).1 rfl
  obtain hsame | ⟨-, -, -, hrespelled⟩ := h.linksIn_respells hr after hs ht hfile hkept hlaid hmem hq
  · rw [hsame]
    exact ⟨hne, hfeed⟩
  · refine ⟨hrespelled.ne_nil, hrespelled.not_mem rfl (by decide) (fun s hs hc => ?_) hfeed⟩
    simp only [List.mem_cons, List.not_mem_nil, or_false] at hs
    rcases hs with rfl | rfl | rfl
    · exact absurd (hsource _ hc) (by decide)
    · exact absurd (htarget _ hc) (by decide)
    · obtain ⟨rest, -, hspelled⟩ := Edit.exists_fragment q
      rw [← Edit.spelled_targetPath q, hspelled] at hfeed
      exact hfeed (List.mem_append_left _ hc)

/-- **No two links to the old place have one successor.** -/
theorem InStep.eq_of_succeeds (h : k.InStep) (hr : k.Rooted root)
    (hstep : TreeStep root k.tree (.moved source target) after)
    (hdry : k.project.settings.dryRun = false)
    (hdone : (k.answered after source target).2.revision.failures = [])
    (hsource : IsPlain source) (htarget : IsPlain target) (hhas : k.index.Has r)
    (hkept : k.KeepsUp source target r) {s : Reference} (hhas' : k.index.Has s)
    (hmeans : Edit.means s source = true) (hq : k.Succeeds root after source target r q)
    (hq' : k.Succeeds root after source target s q) : s = r := by
  obtain ⟨content, text, hrevised, hmem⟩ :=
    h.revised hr hstep hdry hdone hhas hkept
  cases hstep with
  | @moved _ _ bytes mode _ hs ht there renamed =>
  obtain ⟨content', hread, hholder, hline, hlands, -⟩ := hq
  obtain ⟨content'', hread', hholder', hline', hlands', -⟩ := hq'
  have hsame : s.source = r.source := hkept.source_eq hhas' hmeans (hholder.symm.trans hholder')
  rw [hsame] at hread' hlands'
  obtain rfl : content' = content := Except.ok.inj (hread.symm.trans hrevised.before)
  obtain rfl : content'' = content' := Except.ok.inj (hread'.symm.trans hread)
  rw [← hholder', hholder] at hlands'
  have hlaid := Links.laid_find k.project.rule r.source content''
  exact hrevised.relinked.eq_of_landing hlaid
    (fun p => h.linksIn_inLine hr after hs ht (by simp [there]) hsource htarget hkept hlaid hmem)
    (hmem r hhas rfl) (hmem s hhas' hsame) (hline'.symm.trans hline) (hlands'.symm.trans hlands)

/-! ## Inline links -/

/-- An inline link is taken for one, where the links that get another path beside it are made of path characters. -/
theorem InStep.takenUp_of_inline (h : k.InStep) (hr : k.Rooted root)
    (hstep : TreeStep root k.tree (.moved source target) after)
    (hdry : k.project.settings.dryRun = false)
    (hdone : (k.answered after source target).2.revision.failures = [])
    (hsource : IsPlain source) (htarget : IsPlain target)
    (hformat : Links.Format.ofPath target = Links.Format.ofPath source)
    (hhas : k.index.Has r) (hmeans : Edit.means r source = true) (hkept : k.KeepsUp source target r)
    (hkind : r.kind = .markdownInline)
    (hline : ∀ p, k.index.Has p → p.source = r.source → p.line = r.line →
      k.linksIn after source target (holder source target r) p ≠ p.target → IsPlain p.targetPath) :
    k.TakenUp root after source target r := by
  obtain ⟨content, text, hrevised, hmem⟩ :=
    h.revised hr hstep hdry hdone hhas hkept
  cases hstep with
  | @moved _ _ bytes mode _ hs ht there renamed =>
  have hfile : k.tree.entryAt root source ≠ some .directory := by simp [there]
  have hlaid := Links.laid_find k.project.rule r.source content
  have hrespells := fun q => h.linksIn_respells hr after hs ht hfile hkept hlaid hmem (q := q)
  have hmarkdown := Links.format_of_inline (hmem r hhas rfl) hkind
  have hmarkdown' : Links.Format.ofPath (holder source target r) = .markdown := by
    unfold holder fileMove
    dsimp only
    split
    · rename_i hmoved
      rw [hformat, ← hmoved]
      exact hmarkdown
    · exact hmarkdown
  have hplain : ∀ q : Reference, IsPlain q.targetPath →
      ∀ s ∈ [source, target, q.targetPath], IsPlain s := by
    intro q hq s hmem
    simp only [List.mem_cons, List.not_mem_nil, or_false] at hmem
    rcases hmem with rfl | rfl | rfl
    · exact hsource
    · exact htarget
    · exact hq
  have hseparator : ∀ c, Path.isSeparator c = true → isPathChar c = true := fun c hc => by
    simp [isPathChar, hc]
  have hlinks := fun q => h.linksIn_inLine hr after hs ht hfile hsource htarget hkept hlaid hmem
    (q := q)
  have hpaths : ∀ q ∈ (Links.find k.project.rule r.source content).references, q.line = r.line →
      k.linksIn after source target (holder source target r) q = q.target ∨
        Links.Repathed q.target.toList
          (k.linksIn after source target (holder source target r) q).toList := by
    intro q hq hsame
    by_cases hstays : k.linksIn after source target (holder source target r) q = q.target
    · exact .inl hstays
    · obtain hstays' | ⟨hhasq, hholder, hne, path, hnew, hne', hmade⟩ := hrespells q hq
      · exact .inl hstays'
      · have hold := hline q hhasq hholder hsame hstays
        refine .inr ?_
        rw [hnew]
        exact Edit.repathed_spelled hold hne (hmade _ hseparator rfl (hplain q hold)) hne'
  have hinside : k.linksIn after source target (holder source target r) r ≠ r.target →
      Links.Markdown.isExternal
        (k.linksIn after source target (holder source target r) r).toList = false := by
    intro _
    rw [h.linksIn_of_means hr hs ht hfile hhas hmeans hkept]
    exact Edit.isExternal_outcome (m := fileMove source target r.source) hmeans ht htarget
  obtain ⟨q, hq, hplace⟩ := Links.found_again hmarkdown hmarkdown' hrevised.relinked hlinks
    (hmem r hhas rfl) hkind hpaths hinside
  exact ⟨text, hrevised.after, q, hq, content, hrevised.before, hplace⟩

/-! ## What is left of the old place -/

/-- A record that means the old place is no successor, unless it may mean the new place too. -/
theorem InStep.not_succeeds_of_means_of_hash (h : k.InStep) (hr : k.Rooted root)
    (hstep : TreeStep root k.tree (.moved source target) after) (hhash : '#' ∉ target.toList)
    (hhas : (k.answered after source target).1.index.Has q) (hmeans : Edit.means q source = true)
    (hnot : q.source ≠ target) :
    Edit.means q target = true ∨
      ((k.movePlan after source target).edits q.source ≠ [] ∧
        ∀ r, k.index.Has r → ¬ k.Succeeds root after source target r q) := by
  obtain ⟨hproject, hrooted, hin, hkeeps⟩ := h.answered hr hstep
  have hne : q.source ≠ source := fun he =>
    h.source_ne_of_answered hr hstep (fun hsame => hnot (he.trans hsame)) hhas he
  cases hstep with
  | @moved _ _ bytes mode _ hs ht there renamed =>
  have hfile : k.tree.entryAt root source ≠ some .directory := by simp [there]
  have hproper := hin.proper_source hhas
  have hown := hin.source_not_own hhas
  have hentry : ∀ path, Proper path → after.entryAt root path = _ := fun path hp =>
    hr.sound.entryAt_moved hs ht there renamed hp
  by_cases hedits : (k.movePlan after source target).edits q.source = []
  · -- the record is an old one
    left
    have hsame : (k.answered after source target).1.tree.entryAt root q.source =
        k.tree.entryAt root q.source := by
      rw [hkeeps.same _ hproper (by simp [hedits]) hown, hentry _ hproper, if_neg hnot, if_neg hne]
    have hexpected := hr.expected_congr hrooted hproject fun _ => hsame
    have hold : k.index.Has q := by
      refine h.valid.has (s := q.source) ?_
      rw [h.current _ not_false, ← hexpected, ← hin.current _ not_false]
      exact hin.valid.mem_recordsFrom_iff.mpr ⟨rfl, hhas⟩
    have hkept : k.KeepsUp source target q := by
      unfold KeepsUp
      rw [if_neg hne]
      exact hnot
    have hhost : q.source = holder source target q := by
      unfold holder fileMove
      rw [if_neg hne]
    have hlink : k.linksIn after source target (holder source target q) q = _ :=
      h.linksIn_of_means hr hs ht hfile hold hmeans hkept
    rw [← hhost, linksIn, hedits] at hlink
    exact Edit.outcome_means (m := fileMove source target q.source) hmeans
      (hkept.proper h ht hold).1 ht hhash hhost hlink
  · by_cases hnext : ∃ r, k.index.Has r ∧ k.Succeeds root after source target r q
    · left
      obtain ⟨r, hold, hsucceeds⟩ := hnext
      have hhost := hsucceeds.choose_spec.2.1
      have hstays : r.source ≠ source := by
        intro he
        unfold holder fileMove at hhost
        rw [if_pos he] at hhost
        exact hnot hhost
      have hsource : q.source = r.source := by
        rw [hhost]
        unfold holder fileMove
        exact if_neg hstays
      have hkept : k.KeepsUp source target r := by
        unfold KeepsUp
        rw [if_neg hstays, ← hsource]
        exact hnot
      cases hm : Edit.means r source with
      | true => exact h.means_of_succeeds_of_hash hr hs ht hfile hhash hold hm hkept hsucceeds
      | false =>
          -- a link to something else has not become one to the old place
          have htarget := hsucceeds.choose_spec.2.2.2.2
          rw [h.linksIn_of_not_means hr hold hm hkept hstays] at htarget
          rw [Edit.means_congr hsource htarget, hm] at hmeans
          exact absurd hmeans (by simp)
    · exact .inr ⟨hedits, fun r hold hsucceeds => hnext ⟨r, hold, hsucceeds⟩⟩

theorem InStep.not_succeeds_of_means (h : k.InStep) (hr : k.Rooted root)
    (hstep : TreeStep root k.tree (.moved source target) after) (hplain : IsPlain target)
    (hhas : (k.answered after source target).1.index.Has q) (hmeans : Edit.means q source = true)
    (hnot : q.source ≠ target) :
    Edit.means q target = true ∨
      ((k.movePlan after source target).edits q.source ≠ [] ∧
        ∀ r, k.index.Has r → ¬ k.Succeeds root after source target r q) :=
  h.not_succeeds_of_means_of_hash hr hstep (not_hash_of_isPlain hplain) hhas hmeans hnot

/-! ## Every link -/

/-- An inline link beside which no other path than one of path characters is replaced. -/
def InlineKept (k : Keeper) (after : FileTree) (source target : String) (r : Reference) : Prop :=
  r.kind = .markdownInline ∧ ∀ p, k.index.Has p → p.source = r.source → p.line = r.line →
    k.linksIn after source target (holder source target r) p ≠ p.target → IsPlain p.targetPath

/-- A note with a link, and one with a path in quotes. -/
def hub : FileTree := ⟨.ofList
  [(["w"], Entry.directory), (["w", "docs"], .directory),
    (["w", "docs", "m.md"], .file "# M\n".toUTF8 newMode),
    (["w", "docs", "x.foo"], .file "x\n".toUTF8 newMode),
    (["w", "l.md"], .file "[m](docs/m.md)\n".toUTF8 newMode),
    (["w", "n.md"], .file "\"docs/x.foo\"\n".toUTF8 newMode)]⟩

/-- The notes when a file has been moved. -/
def hubAfter (source target : String) : FileTree :=
  (hub.rename (Path.locate (location ["w"]) source)
    (Path.locate (location ["w"]) target)).toOption.getD hub

def keeperOfHub : Keeper := (Keeper.make shelfProject hub).scan.1

def hubLink : Reference := ⟨some "m", 13, 4, .markdownInline, 1, "l.md", "docs/m.md"⟩

def hubPath : Reference := ⟨none, 11, 1, .markdownQuoted, 1, "n.md", "docs/x.foo"⟩

def scannableHub : Scannable shelfProject ["w"] :=
  scannableNotes hub (by decide +kernel) (by decide +kernel) (by decide +kernel)

theorem scanned_hub :
    SameTree (Keeper.make shelfProject hub) keeperOfHub ∧ keeperOfHub.InStep :=
  scannableHub.scanned

theorem project_keeperOfHub : keeperOfHub.project = shelfProject := scanned_hub.1.project

theorem rooted_keeperOfHub : keeperOfHub.Rooted ["w"] := scannableHub.rooted

theorem dryRun_keeperOfHub : keeperOfHub.project.settings.dryRun = false := by
  rw [project_keeperOfHub]
  rfl

theorem recordsFrom_keeperOfHub : keeperOfHub.index.recordsFrom "l.md" = [hubLink] ∧
    keeperOfHub.index.recordsFrom "n.md" = [hubPath] := by
  decide +kernel

theorem hub_has : keeperOfHub.index.Has hubLink ∧ keeperOfHub.index.Has hubPath := by
  obtain ⟨hlink, hpath⟩ := recordsFrom_keeperOfHub
  exact ⟨scanned_hub.2.valid.has (hlink ▸ List.mem_cons_self),
    scanned_hub.2.valid.has (hpath ▸ List.mem_cons_self)⟩

theorem hub_moved {source target : String} (hs : Proper source) (ht : Proper target)
    {bytes : ByteArray} (hthere : hub.entryAt ["w"] source = some (.file bytes newMode))
    (hok : (hub.rename (Path.locate (location ["w"]) source)
      (Path.locate (location ["w"]) target)).isOk = true) :
    TreeStep ["w"] keeperOfHub.tree (.moved source target) (hubAfter source target) := by
  rw [scanned_hub.1.tree]
  exact .moved hs ht hthere (eq_ok_of_isOk hok hub)

theorem link_moved :
    TreeStep ["w"] keeperOfHub.tree (.moved "docs/m.md" "m.md") (hubAfter "docs/m.md" "m.md") := by
  have hthere : hub.entryAt ["w"] "docs/m.md" = some (.file "# M\n".toUTF8 newMode) := by
    decide +kernel
  exact hub_moved (by decide) (by decide) hthere
    (by decide +kernel)

theorem path_moved : TreeStep ["w"] keeperOfHub.tree (.moved "docs/x.foo" "x.foo")
    (hubAfter "docs/x.foo" "x.foo") := by
  have hthere : hub.entryAt ["w"] "docs/x.foo" = some (.file "x\n".toUTF8 newMode) := by
    decide +kernel
  exact hub_moved (by decide) (by decide) hthere
    (by decide +kernel)

end Keeper

end LinkKeeper
