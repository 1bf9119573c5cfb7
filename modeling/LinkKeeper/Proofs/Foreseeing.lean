import LinkKeeper.Proofs.Preparing

/-!
# Plans before and after a move

A move can be planned in two trees: the one before it, and the one in which everything is in its
new place. The index is the same, so the plans differ at most in what the tree is asked, and that
is only whether something is there that a relative link of what has moved leads to. `Brings` says
what may be there after a move that was not there before. If no such link leads to anything of
that, the move is `Foreseeable`, and both plans are one.
-/

namespace LinkKeeper

open FileTree
open Path (spine Proper)

/-- If a relative link is kept up at all, it is when everything is there. -/
theorem Edit.outbound?_of_always {isThere : String → Bool} {r : Reference} {source target : String}
    (h : outbound? (fun _ => true) r source target = none) :
    outbound? isThere r source target = none := by
  unfold outbound? at h ⊢
  simp only [Bool.not_true, Bool.or_false] at h
  split at h
  · rename_i hskip
    exact if_pos (by simp [hskip])
  · dsimp only
    split
    · rfl
    · exact h

namespace Keeper

variable {k l : Keeper} {root : Spine} {op : Operation}

/-! ## One plan -/

/-- Whether the relative links of what an operation moves are kept up. -/
def repairs (k : Keeper) : Operation → Bool
  | .moved _ target => k.project.monitors target && k.project.settings.updatesMovedFiles
  | .directoryMoved _ _ => k.project.settings.updatesMovedFiles
  | .created _ | .deleted _ | .modified _ => false

/--
Two keepers of one index plan the same if they see the same where a relative link of what has
moved leads out of it.
-/
theorem preview_congr (hproject : l.project = k.project) (hindex : l.index = k.index)
    (hvalid : k.index.Valid) {source target : String} (hs : Proper source) (ht : Proper target)
    (hop : op = .moved source target ∨ op = .directoryMoved source target)
    (hout : k.repairs op = true → ∀ r, k.index.Has r → op.placeOf r.resolved = r.resolved →
      Edit.outbound? l.hasPath r r.source (op.placeOf r.source) =
        Edit.outbound? k.hasPath r r.source (op.placeOf r.source)) :
    l.preview op = k.preview op := by
  rcases hop with rfl | rfl
  · refine planFileMove_congr hproject hindex fun hrepairs r hr => ?_
    obtain ⟨hsource, hhas⟩ := hvalid.mem_recordsFrom_iff.mp hr
    have hplace : (Operation.moved source target).placeOf r.source = target := by
      rw [Operation.placeOf, if_pos hsource]
    -- a link to the file itself is not asked after
    by_cases hself : r.resolved = source
    · refine Edit.outbound?_congr fun _ _ _ hne => ?_
      rw [Reference.resolved, hsource] at hself
      exact absurd hself hne
    · have hsame := hout hrepairs r hhas (by rw [Operation.placeOf, if_neg hself])
      rw [hplace, hsource] at hsame
      exact hsame
  · refine planDirectoryMove_congr hproject hindex fun hrepairs file _ new hnew r hr hleaves => ?_
    obtain ⟨hsource, hhas⟩ := hvalid.mem_recordsFrom_iff.mp hr
    have hplace : (Operation.directoryMoved source target).placeOf r.source = new := by
      rw [Operation.placeOf, hsource, hnew, Option.getD_some]
    have hnormal : Path.normalize r.resolved = r.resolved := Path.normalize_resolve _ _
    have hstays : (Operation.directoryMoved source target).placeOf r.resolved = r.resolved := by
      rw [Operation.placeOf, Path.rebase?_of_not_isUnder hnormal hs ht hleaves, Option.getD_none]
    have hsame := hout hrepairs r hhas hstays
    rw [hplace, hsource] at hsame
    exact hsame

end Keeper

/-! ## What a move brings -/

/--
What is not there before a move and is there when it has happened: directories on the way, and
whatever is carried there. The lock is among what may be carried; it is there all the while.
-/
structure Brings (root : Spine) (t : FileTree) (op : Operation) (path : String) : Prop where
  proper : Proper path
  free : t.entryAt root path = none
  brought : spine path <+: spine op.path ∨
    ∃ old, Proper old ∧ (old = lockFileName ∨ t.entryAt root old ≠ none) ∧ op.placeOf old = path

/-- No relative link that a move might keep up leads to something that only the move brings. -/
def Keeper.Foreseeable (k : Keeper) (root : Spine) (op : Operation) : Prop :=
  k.repairs op = true → ∀ r, k.index.Has r →
    Edit.outbound? (fun _ => true) r r.source (op.placeOf r.source) ≠ none →
    ¬ Brings root k.tree op r.resolved

section

variable {t held after : FileTree} {root : Spine} {op : Operation} {path : String}

/-- What a move carries stands where it is carried. -/
theorem Relocated.entryAt_placeOf (h : Relocated root held op op.path after)
    (hheld : Lock.Held root t held) (hfree : t.entryAt root op.path = none) (hp : Proper path)
    (hlock : path ≠ lockFileName) (hthere : t.entryAt root path ≠ none) :
    after.entryAt root (op.placeOf path) = t.entryAt root path := by
  obtain ⟨entry, he⟩ := Option.ne_none_iff_exists'.mp hthere
  rw [he]
  refine h.carried path entry hp (fun heq => hthere (heq ▸ hfree)) ?_
  rw [hheld.same path hp hlock, he]

/-- Beside what it carries away and what it brings a move changes nothing about what is there. -/
theorem Relocated.isThere_eq (h : Relocated root held op op.path after) (ht : t.Sound root)
    (hheld : Lock.Held root t held) (hfree : t.entryAt root op.path = none)
    (hn : Path.normalize path = path) (hin : Path.escapes path = false)
    (hstays : op.placeOf path = path) (hnot : ¬ Brings root t op path) :
    after.isThere (Path.locate (location root) path) =
      t.isThere (Path.locate (location root) path) := by
  by_cases hempty : path = ""
  · rw [hempty, FileTree.isThere, FileTree.isThere, h.sound.grounded.entry_root, ht.grounded.entry_root]
  · have hp : Proper path := ⟨hn, hempty, hin⟩
    rw [Bool.eq_iff_iff, h.sound.isThere_iff hp, ht.isThere_iff hp]
    constructor
    · intro hafter hnone
      refine hnot ⟨hp, hnone, (h.new path hp hafter).imp_right ?_⟩
      rintro ⟨old, hold, hthere, hplace⟩
      refine ⟨old, hold, ?_, hplace⟩
      by_cases hlock : old = lockFileName
      · exact .inl hlock
      · exact .inr (by rwa [hheld.same old hold hlock] at hthere)
    · intro hthere
      have hsome : held.entryAt root path ≠ none := by
        by_cases hlock : path = lockFileName
        · obtain ⟨content, mode, he⟩ := hheld.lock
          simp [hlock, he]
        · rwa [hheld.same path hp hlock]
      obtain ⟨entry, he⟩ := Option.ne_none_iff_exists'.mp hsome
      have hcarried := h.carried path entry hp (fun heq => hthere (heq ▸ hfree)) he
      rw [hstays] at hcarried
      simp [hcarried]

end

namespace Keeper

variable {k l : Keeper} {root : Spine} {op : Operation} {held : FileTree}

/-- **A plan that is made after the move is the one that was made before.** -/
theorem Foreseeable.preview_eq (h : k.Foreseeable root op) (hr : k.Rooted root)
    (hvalid : k.index.Valid) (hproject : l.project = k.project) (hindex : l.index = k.index)
    {source target : String} (hs : Proper source) (ht : Proper target)
    (hop : op = .moved source target ∨ op = .directoryMoved source target)
    (hheld : Lock.Held root k.tree held) (hfree : k.tree.entryAt root op.path = none)
    (hmoved : Relocated root held op op.path l.tree) : l.preview op = k.preview op := by
  have hl : l.Rooted root := ⟨by rw [hproject, hr.located], hmoved.sound⟩
  refine preview_congr hproject hindex hvalid hs ht hop fun hrepairs r hhas hstays => ?_
  by_cases hnone : Edit.outbound? (fun _ => true) r r.source (op.placeOf r.source) = none
  · rw [Edit.outbound?_of_always hnone, Edit.outbound?_of_always hnone]
  · refine Edit.outbound?_congr fun _ _ hinside _ => ?_
    rw [hasPath, hasPath, hl.locate_eq, hr.locate_eq]
    exact hmoved.isThere_eq hr.sound hheld hfree (Path.normalize_resolve _ _) hinside hstays
      (h hrepairs r hhas hnone)

/-- A move is foreseeable if what the links of an index lead to is there before it. -/
theorem foreseeable_of_records (hvalid : k.index.Valid)
    (h : ∀ file ∈ k.index.bySource.toList.map (·.1), ∀ r ∈ k.index.recordsFrom file,
      Edit.outbound? (fun _ => true) r r.source (op.placeOf r.source) = none ∨
        k.tree.entryAt root r.resolved ≠ none) : k.Foreseeable root op := by
  intro _ r hhas hkept hbrings
  have hr := hvalid.mem_recordsFrom_iff.mpr ⟨rfl, hhas⟩
  have hkey := hvalid.mem_keys_bySource.mpr (List.ne_nil_of_mem hr)
  rw [← Std.TreeMap.map_fst_toList_eq_keys] at hkey
  exact (h r.source hkey r hr).elim hkept fun hthere => hthere hbrings.free

end Keeper

end LinkKeeper
