import LinkKeeper.Proofs.Fitting
import LinkKeeper.Proofs.Shortest

/-!
# There and back

A link without detours is written in one of two ways: from the root, or as the shortest way from
the directory of its file. When what it leads to moves, the new link is written in the same way
again. `retarget` may choose a bare name or the path from the root instead of the shortest way, but
it does so only where these are the shortest way: a bare name for what lies in the directory of the
file, and the path from the root in a file that lies in the root itself.

So a link without detours says where it leads and how it is written, and nothing else. A move back
finds it as the move there has left it, and restores it to the byte, the fragment included.
-/

namespace LinkKeeper

open Text
open Path (parent baseName resolve escapes isRootAbsolute isSeparator segments normalize relative
  join IsName Proper)

namespace Text

theorem replaceChar_of_not_mem {old : Char} {new cs : List Char} (h : old ∉ cs) :
    replaceChar old new cs = cs := by
  have hsame : replaceChar old new cs = cs.flatMap fun c => [c] :=
    List.flatMap_congr fun c hc => if_neg fun he : c = old => h (he ▸ hc)
  rw [hsame, List.flatMap_singleton']

theorem replaceChar_self (c : Char) (cs : List Char) : replaceChar c [c] cs = cs := by
  have hsame : replaceChar c [c] cs = cs.flatMap fun d => [d] :=
    List.flatMap_congr fun d _ => by split <;> simp_all
  rw [hsame, List.flatMap_singleton']

end Text

namespace Edit

/-! ## Links without detours -/

/-- A path in normal form has no sign for the directory in front. -/
theorem beginsHere_of_normal {path : String} (h : normalize path = path) :
    beginsHere path = false := by
  refine Bool.eq_false_iff.mpr fun hhere => ?_
  rw [beginsHere, replaceChar_of_not_mem (isWay_of_normal h).forward,
    List.isPrefixOf_iff_prefix] at hhere
  obtain ⟨rest, hcs⟩ := hhere
  have hne : path ≠ "" := by
    rintro rfl
    exact absurd hcs (by simp)
  have hborder : path.toList = Path.here ++ '/' :: rest := hcs.symm
  have hpieces := (pieces_of_normal h hne).1
  rw [hborder, splitWhere_append_cons rfl] at hpieces
  -- the sign would be a segment of its own
  have hmem : Path.here ∈ segments path := hpieces ▸ List.mem_append_left _ List.mem_cons_self
  exact ((Path.tidy_segments path).collapsed.ne_nil_here _ hmem).2 rfl

theorem beginsHere_relative (dir : String) {path : String} (hp : Proper path) :
    beginsHere (relative dir path) = false := by
  rw [Path.relative_eq]
  split
  · decide
  · exact beginsHere_of_normal
      (Path.normalize_join (Path.tidy_waySegments hp.names (Path.tidy_segments path).plain))

/-- How a link to a path is written from a directory without a detour. -/
def direct (fromRoot : Bool) (dir path : String) : String :=
  if fromRoot then "/" ++ path else relative dir path

theorem direct_true (dir path : String) : direct true dir path = "/" ++ path := if_pos rfl

theorem direct_false (dir path : String) : direct false dir path = relative dir path :=
  if_neg Bool.false_ne_true

variable {fromRoot : Bool} {dir path : String} {r : Reference} {m : Move}

/-- A direct link has forward slashes. -/
theorem isWay_direct (fromRoot : Bool) (dir : String) (hp : Proper path) :
    IsWay fromRoot (direct fromRoot dir path) := by
  cases fromRoot with
  | true =>
      rw [direct_true]
      exact (isWay_of_normal hp.normal).slash
  | false =>
      rw [direct_false]
      exact isWay_relative dir path

/-- **A direct link leads where it says.** -/
theorem resolve_direct (hdir : ∀ s ∈ segments dir, IsName s) (hp : Proper path) :
    resolve dir (direct fromRoot dir path) = path := by
  cases fromRoot with
  | true =>
      have hrooted : isRootAbsolute ("/" ++ path) = true := (isWay_of_normal hp.normal).slash.rooted
      rw [direct_true]
      exact (resolve_of_isRootAbsolute hrooted dir).trans (normalize_slash hp)
  | false =>
      rw [direct_false]
      exact Path.resolve_relative hdir hp.normal hp.names

/-- **A direct link stays one.** Whatever way the new link is chosen, it is the direct one. -/
theorem retarget_direct (hdir : ∀ s ∈ segments dir, IsName s) (hs : Proper m.source)
    (ht : Proper m.target) :
    retarget (direct fromRoot dir m.source) dir m = direct fromRoot dir m.target := by
  have hrooted := (isWay_direct fromRoot dir hs).rooted
  rw [retarget, hrooted]
  cases fromRoot with
  | true => rw [if_pos rfl, direct_true]
  | false =>
      rw [if_neg Bool.false_ne_true, direct_false dir m.target]
      by_cases hbare : isBare (direct false dir m.source) = true ∧ parent m.target = dir
      · rw [if_pos (by simpa using hbare), ← Path.relative_parent ht, hbare.2]
      · rw [if_neg (by simpa using hbare)]
        by_cases hread : normalize (direct false dir m.source) = m.source
        · -- a way that reads alike from the root begins there
          have hnil : segments dir = [] :=
            segments_nil_of_readings_agree hs hrooted (resolve_direct hdir hs) hread
          rw [if_pos hread]
          exact (Path.relative_of_segments_nil hnil ht).symm
        · have hhere : beginsHere (direct false dir m.source) = false := by
            rw [direct_false]
            exact beginsHere_relative dir hs
          rw [if_neg hread, keepHere, hhere, Bool.false_and, if_neg Bool.false_ne_true]

theorem withSeparators_of_forward {written : String} (kind : ReferenceKind)
    (h : '\\' ∉ written.toList) (path : String) : withSeparators written kind path = path := by
  rw [withSeparators_eq, separatorOf_of_not_mem kind h, replaceChar_self, String.ofList_toList]

theorem means_direct (hdir : ∀ s ∈ segments (parent r.source), IsName s) (hp : Proper path)
    (hlink : r.targetPath = direct fromRoot (parent r.source) path) : means r path = true := by
  rw [means_iff hp, Reference.resolved, hlink]
  exact .inr (resolve_direct hdir hp)

theorem hash_not_mem_direct (fromRoot : Bool) (dir : String) (hhash : '#' ∉ path.toList) :
    '#' ∉ (direct fromRoot dir path).toList := by
  cases fromRoot with
  | true => simpa [direct_true, String.toList_append] using hhash
  | false =>
      intro hmem
      rw [direct_false] at hmem
      rcases mem_relative hmem with he | he | he
      · exact absurd he (by decide)
      · exact absurd he (by decide)
      · exact hhash he

/-- The edit of a direct link puts the direct link to the new place into its text. -/
theorem inbound?_direct (hhost : m.host = r.source)
    (hdir : ∀ s ∈ segments (parent r.source), IsName s) (hs : Proper m.source)
    (ht : Proper m.target) (hne : m.source ≠ m.target)
    (hlink : r.targetPath = direct fromRoot (parent r.source) m.source) :
    ∃ e, inbound? r m = some e ∧
      e.replacement = r.spelled (direct fromRoot (parent r.source) m.target) := by
  have hforward : '\\' ∉ r.targetPath.toList := hlink ▸ (isWay_direct fromRoot _ hs).forward
  have hedit : inbound? r m = replacing? r (direct fromRoot (parent r.source) m.target) := by
    rw [inbound?, if_pos (means_direct hdir hs hlink)]
    dsimp only
    rw [withSeparators_of_forward _ hforward, hlink, hhost, retarget_direct hdir hs ht]
  have hchanged : r.spelled (direct fromRoot (parent r.source) m.target) ≠ r.target := by
    rw [← spelled_targetPath, hlink]
    intro hsame
    have hresolved := congrArg (resolve (parent r.source)) (spelled_injective hsame)
    rw [resolve_direct hdir ht, resolve_direct hdir hs] at hresolved
    exact hne hresolved.symm
  have houtcome := outcome_replacing? r (direct fromRoot (parent r.source) m.target)
  rw [hedit]
  cases hreplacing : replacing? r (direct fromRoot (parent r.source) m.target) with
  | none =>
      rw [hreplacing] at houtcome
      exact absurd houtcome.symm hchanged
  | some e =>
      rw [hreplacing] at houtcome
      exact ⟨e, rfl, houtcome⟩

/--
**There and back, a link without detours is what it was.**

Let a link be written from the root or as the shortest way, with any fragment, in a file of the
tree that stays where it is. A move of what it leads to is answered by an edit of it. And the move
back is answered by an edit that restores the text of the link, however the reader takes the new
text: with any kind and at any columns.
-/
theorem inbound?_returns {source target : String} (hs : Proper source) (ht : Proper target)
    (hhash : '#' ∉ target.toList) (hne : source ≠ target)
    (hinside : escapes (normalize (parent r.source)) = false)
    (hlink : r.targetPath = relative (parent r.source) source ∨ r.targetPath = "/" ++ source) :
    ∃ e, inbound? r ⟨r.source, source, target⟩ = some e ∧
      ∀ q : Reference, q.source = r.source → q.target = e.replacement →
        ∃ back, inbound? q ⟨q.source, target, source⟩ = some back ∧
          back.replacement = r.target := by
  have hdir : ∀ s ∈ segments (parent r.source), IsName s := Path.names_of_not_escapes hinside
  obtain ⟨fromRoot, hdirect⟩ :
      ∃ fromRoot, r.targetPath = direct fromRoot (parent r.source) source :=
    hlink.elim (fun h => ⟨false, h.trans (direct_false _ _).symm⟩)
      fun h => ⟨true, h.trans (direct_true _ _).symm⟩
  obtain ⟨e, he, hreplacement⟩ :=
    inbound?_direct (m := ⟨r.source, source, target⟩) rfl hdir hs ht hne hdirect
  refine ⟨e, he, fun q hsource htarget => ?_⟩
  -- the new link is read with the new path and the old fragment
  have hsplit : Path.splitFragment q.target = (direct fromRoot (parent r.source) target,
      (Path.splitFragment r.target).2) := by
    rw [htarget, hreplacement]
    exact splitFragment_spelled_iff.mpr (hash_not_mem_direct fromRoot (parent r.source) hhash)
  have hspelled : ∀ path, q.spelled path = r.spelled path := fun path => by
    rw [Reference.spelled, Reference.spelled, hsplit]
  have hnew : q.targetPath = direct fromRoot (parent q.source) target := by
    rw [Reference.targetPath, hsplit, hsource]
  obtain ⟨back, hback, hrestored⟩ :=
    inbound?_direct (m := ⟨q.source, target, source⟩) rfl (hsource ▸ hdir) ht hs hne.symm hnew
  refine ⟨back, hback, ?_⟩
  rw [hrestored, hspelled, hsource, ← hdirect, spelled_targetPath]

/-- A link with a fragment to a guide one level up. -/
def guideLink : Reference where
  anchorText := some "g"
  columnEnd := 19
  columnStart := 4
  kind := .markdownInline
  line := 1
  source := "docs/api/index.md"
  target := "../guide.md#top"

/-- The link as it is read when the guide has come into the directory of its file. -/
def nearLink : Reference := { guideLink with columnEnd := 16, target := "guide.md#top" }

/-- The way there is written as a bare name, and back with a step up. -/
theorem inbound?_returns_guide :
    Proper "docs/guide.md" ∧ Proper "docs/api/guide.md" ∧ '#' ∉ "docs/api/guide.md".toList ∧
    "docs/guide.md" ≠ "docs/api/guide.md" ∧ escapes (normalize (parent guideLink.source)) = false ∧
    guideLink.targetPath = relative (parent guideLink.source) "docs/guide.md" ∧
    inbound? guideLink ⟨guideLink.source, "docs/guide.md", "docs/api/guide.md"⟩ =
      some ⟨19, 4, 1, "../guide.md#top", nearLink.target⟩ ∧
    ∃ back, inbound? nearLink ⟨nearLink.source, "docs/api/guide.md", "docs/guide.md"⟩ = some back ∧
      back.replacement = "../guide.md#top" := by
  have hs : Proper "docs/guide.md" := by decide +kernel
  have ht : Proper "docs/api/guide.md" := by decide +kernel
  have hhash : '#' ∉ "docs/api/guide.md".toList := by decide +kernel
  have hinside : escapes (normalize (parent guideLink.source)) = false := by decide +kernel
  have hlink : guideLink.targetPath = relative (parent guideLink.source) "docs/guide.md" := by
    decide +kernel
  have hthere : inbound? guideLink ⟨guideLink.source, "docs/guide.md", "docs/api/guide.md"⟩ =
      some ⟨19, 4, 1, "../guide.md#top", nearLink.target⟩ := by
    decide +kernel
  obtain ⟨e, he, hback⟩ := inbound?_returns hs ht hhash (by decide) hinside (.inl hlink)
  obtain rfl := Option.some.inj (hthere.symm.trans he)
  exact ⟨hs, ht, hhash, by decide, hinside, hlink, hthere, hback nearLink rfl rfl⟩

end Edit

end LinkKeeper
