import LinkKeeper.Proofs.Successors

/-!
# Where the links of a moved file lead

A file that goes to another directory takes its relative links along, and read from there they
lead somewhere else, or nowhere. So a link that led to something is written anew as the shortest
way from the new directory. That it leads to the same thing is a fact about segments: the way goes
up to the deepest directory above both places and down again, and neither its separators nor a
sign for the directory in front change that.

Nothing is written in four cases. In three of them there is nothing to keep, or the link is none
of this concern. In the fourth the new text is the old one, which must then be such a way already.
-/

namespace LinkKeeper

open Path (normalize parent resolve escapes isRootAbsolute segments IsName Proper)

namespace Edit

variable {isThere : String → Bool} {r : Reference} {source target : String}

/--
A relative link that leads, from the directory of the file that holds it, to something in the tree
other than this file.
-/
structure LeadsOut (isThere : String → Bool) (r : Reference) (source : String) : Prop where
  written : r.targetPath ≠ ""
  relative : isRootAbsolute r.targetPath = false
  inside : escapes (resolve (parent source) r.targetPath) = false
  other : resolve (parent source) r.targetPath ≠ source
  there : isThere (resolve (parent source) r.targetPath) = true

/-- The directory of a place in the tree is made of names. -/
theorem names_parent {path : String} (hnormal : normalize path = path)
    (hinside : escapes path = false) : ∀ s ∈ segments (parent path), IsName s := by
  by_cases hroot : path = ""
  · subst hroot
    exact fun s hs => absurd hs List.not_mem_nil
  · exact Path.Proper.names_parent ⟨hnormal, hroot, hinside⟩

/-- The shortest way leads to its end, with any separators and with a sign for the directory in front. -/
theorem resolve_way {dir goal : String} (written : String) (kind : ReferenceKind)
    (hdir : ∀ s ∈ segments dir, IsName s) (hnormal : normalize goal = goal)
    (hgoal : ∀ s ∈ segments goal, IsName s) :
    resolve dir (withSeparators written kind (keepHere written (Path.relative dir goal))) =
      goal := by
  have hrelative : isRootAbsolute (keepHere written (Path.relative dir goal)) = false :=
    isRootAbsolute_keepHere (Path.isRootAbsolute_relative hgoal)
  rw [resolve_withSeparators, Path.resolve_eq_iff hnormal, hrelative, if_neg Bool.false_ne_true,
    segments_keepHere, Path.segments_relative hgoal, Path.collapse_waySegments hdir hgoal]

/-- In another directory such a link becomes the shortest way, in its own look. -/
theorem LeadsOut.outcome_eq (h : LeadsOut isThere r source) (hdirs : parent source ≠ parent target) :
    outcome r (outbound? isThere r source target) =
      r.spelled (withSeparators r.targetPath r.kind (keepHere r.targetPath
        (Path.relative (parent target) (resolve (parent source) r.targetPath)))) := by
  have hkept : (r.targetPath.isEmpty || isRootAbsolute r.targetPath ||
      parent source == parent target || escapes (resolve (parent source) r.targetPath) ||
      resolve (parent source) r.targetPath == source ||
      !isThere (resolve (parent source) r.targetPath)) = false := by
    simp [h.written, h.relative, hdirs, h.inside, h.other, h.there]
  rw [outbound?]
  dsimp only
  rw [hkept, if_neg Bool.false_ne_true, outcome_replacing?]

/-- Any other link is left alone. -/
theorem outbound?_of_not_leadsOut (h : ¬ LeadsOut isThere r source) :
    outbound? isThere r source target = none := by
  by_contra hedit
  refine h ?_
  unfold outbound? at hedit
  dsimp only at hedit
  split at hedit
  · exact absurd rfl hedit
  · rename_i hkept
    simp only [Bool.or_eq_true, not_or, Bool.not_eq_true, beq_eq_false_iff_ne,
      Bool.not_eq_false'] at hkept
    obtain ⟨⟨⟨⟨⟨hempty, hrelative⟩, -⟩, hinside⟩, hother⟩, hthere⟩ := hkept
    refine ⟨fun hnil => ?_, hrelative, hinside, hother, hthere⟩
    rw [hnil] at hempty
    exact absurd hempty (by decide)

/--
**A link of a moved file leads where it led.**

Let a relative link lead, read from the old directory of its file, to something in the tree that is
not the file itself, and let the file go to any place in the tree. Then the link has a relative path
in front of its old fragment afterwards, be it edited or not, and read from the new directory this
leads to the same thing. Links from the root, links that climb out of the tree and links that led
to nothing are not edited.
-/
theorem outbound?_keeps_target (isThere : String → Bool) (r : Reference) (source : String)
    {target : String} (hnormal : normalize target = target) (hinside : escapes target = false) :
    (LeadsOut isThere r source →
      ∃ path, outcome r (outbound? isThere r source target) = r.spelled path ∧
        path ≠ "" ∧ isRootAbsolute path = false ∧
        resolve (parent target) path = resolve (parent source) r.targetPath) ∧
    (isRootAbsolute r.targetPath = true ∨ escapes (resolve (parent source) r.targetPath) = true ∨
        isThere (resolve (parent source) r.targetPath) = false →
      outbound? isThere r source target = none) := by
  refine ⟨fun h => ?_, fun hnot => outbound?_of_not_leadsOut fun h => ?_⟩
  · by_cases hdirs : parent source = parent target
    · -- in the same directory the link stays as it is
      refine ⟨r.targetPath, ?_, h.written, h.relative, by rw [hdirs]⟩
      rw [outbound?_of_parent_eq hdirs, spelled_targetPath]
      rfl
    · have hnames : ∀ s ∈ segments (resolve (parent source) r.targetPath), IsName s :=
        Path.names_of_not_escapes (by rw [Path.normalize_resolve]; exact h.inside)
      refine ⟨_, h.outcome_eq hdirs, ?_, ?_, ?_⟩
      · exact withSeparators_ne_empty _ _ (keepHere_ne_empty _ (relative_ne_empty _ hnames))
      · rw [isRootAbsolute_withSeparators]
        exact isRootAbsolute_keepHere (Path.isRootAbsolute_relative hnames)
      · exact resolve_way _ _ (names_parent hnormal hinside) (Path.normalize_resolve _ _) hnames
  · rcases hnot with habsolute | hescapes | hmissing
    · exact absurd (habsolute.symm.trans h.relative) (by decide)
    · exact absurd (hescapes.symm.trans h.inside) (by decide)
    · exact absurd (hmissing.symm.trans h.there) (by decide)

/-- A tree with a picture in a directory of its own. -/
def album : FileTree :=
  (((FileTree.empty.put ["p"] .directory).put ["p", "docs"] .directory).put
    ["p", "docs", "img"] .directory).put ["p", "docs", "img", "a.png"] (.file ⟨#[]⟩ 420)

/-- A link with backslashes and a detour to the picture, in a file next to its directory. -/
def pictureLink : Reference where
  anchorText := none
  columnEnd := 30
  columnStart := 4
  kind := .markdownInline
  line := 1
  source := "docs/api/index.md"
  target := ".\\..\\img\\a.png#top"

/--
The file goes one level up, and the link keeps its look; it goes to a directory beside the old one,
and the link leads to the picture as it is but for the sign in front.
-/
theorem outbound?_keeps_target_picture :
    LeadsOut (fun path => album.isThere (Path.locate "/p" path)) pictureLink "docs/api/index.md" ∧
    (normalize "docs/index.md" = "docs/index.md" ∧ escapes "docs/index.md" = false) ∧
    (normalize "docs/old/index.md" = "docs/old/index.md" ∧ escapes "docs/old/index.md" = false) ∧
    outcome pictureLink (outbound? (fun path => album.isThere (Path.locate "/p" path)) pictureLink
      "docs/api/index.md" "docs/index.md") = ".\\img\\a.png#top" ∧
    resolve (parent "docs/index.md") ".\\img\\a.png" = "docs/img/a.png" ∧
    outcome pictureLink (outbound? (fun path => album.isThere (Path.locate "/p" path)) pictureLink
      "docs/api/index.md" "docs/old/index.md") = "..\\img\\a.png#top" ∧
    resolve (parent "docs/old/index.md") "..\\img\\a.png" = "docs/img/a.png" := by
  have hleads : LeadsOut (fun path => album.isThere (Path.locate "/p" path)) pictureLink
      "docs/api/index.md" :=
    ⟨by decide +kernel, by decide +kernel, by decide +kernel, by decide +kernel, by decide +kernel⟩
  have hgoal : resolve (parent "docs/api/index.md") pictureLink.targetPath = "docs/img/a.png" := by
    decide +kernel
  have hup : outcome pictureLink (outbound? (fun path => album.isThere (Path.locate "/p" path))
      pictureLink "docs/api/index.md" "docs/index.md") = pictureLink.spelled ".\\img\\a.png" := by
    decide +kernel
  have hbeside : outcome pictureLink (outbound? (fun path => album.isThere (Path.locate "/p" path))
      pictureLink "docs/api/index.md" "docs/old/index.md") =
        pictureLink.spelled "..\\img\\a.png" := by
    decide +kernel
  have hfirst : normalize "docs/index.md" = "docs/index.md" ∧ escapes "docs/index.md" = false := by
    decide +kernel
  have hsecond : normalize "docs/old/index.md" = "docs/old/index.md" ∧
      escapes "docs/old/index.md" = false := by
    decide +kernel
  obtain ⟨path, hpath, -, -, hleadsUp⟩ := (outbound?_keeps_target
    (fun path => album.isThere (Path.locate "/p" path)) pictureLink "docs/api/index.md"
    hfirst.1 hfirst.2).1 hleads
  obtain ⟨path', hpath', -, -, hleadsBeside⟩ := (outbound?_keeps_target
    (fun path => album.isThere (Path.locate "/p" path)) pictureLink "docs/api/index.md"
    hsecond.1 hsecond.2).1 hleads
  rw [spelled_injective (hpath.symm.trans hup), hgoal] at hleadsUp
  rw [spelled_injective (hpath'.symm.trans hbeside), hgoal] at hleadsBeside
  exact ⟨hleads, hfirst, hsecond, hup, hleadsUp, hbeside, hleadsBeside⟩

end Edit

end LinkKeeper
