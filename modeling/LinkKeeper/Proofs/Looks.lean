import LinkKeeper.Proofs.Outgoing
import LinkKeeper.Proofs.Strings

/-!
# The look of a new link

Both planners first find a way to the new place, written with single forward slashes, and only then
give it the separators of the old link. So the look of a new link is settled in two steps: a way
begins at the root when the old link did, and other separators leave that as it is.

In a string of JSON the separators of a link may be backslashes that are written twice. Since no two
slashes of a way come together, each of these pairs is read as one backslash again.
-/

namespace LinkKeeper

open Text
open Path (parent resolve escapes isRootAbsolute isSeparator segments join)

namespace Edit

variable {isThere : String → Bool} {r : Reference} {m : Move} {e : Edit} {source target path : String}

/-! ## Ways -/

/-- A path with single forward slashes, from the root or not. -/
structure IsWay (rooted : Bool) (path : String) : Prop where
  rooted : isRootAbsolute path = rooted
  forward : '\\' ∉ path.toList
  single : ¬ ['/', '/'] <:+: path.toList

/-- Segments that are written out make a way, as none of them is empty. -/
theorem isWay_join {ss : List (List Char)} (h : ∀ s ∈ ss, s ≠ [] ∧ ∀ c ∈ s, isSeparator c = false) :
    IsWay false (join ss) := by
  by_cases hss : ss = []
  · subst hss
    exact ⟨rfl, by simp, by simp⟩
  have hpieces : splitWhere isSeparator (join ss).toList = ss := by
    rw [Path.toList_join, splitWhere_intercalate Path.isSeparator_slash hss fun s hs => (h s hs).2]
  -- an empty piece would be one of the segments
  have hfull : ∀ s ∈ splitWhere isSeparator (join ss).toList, s ≠ [] := by
    rw [hpieces]
    exact fun s hs => (h s hs).1
  refine ⟨?_, fun hmem => ?_, ?_⟩
  · rw [isRootAbsolute]
    split
    · rename_i c cs hcs
      by_contra hc
      rw [hcs, splitWhere, if_pos (by simpa using hc)] at hfull
      exact hfull [] List.mem_cons_self rfl
    · rfl
  · rw [Path.toList_join] at hmem
    rcases of_mem_intercalate hmem with hslash | ⟨s, hs, hc⟩
    · exact absurd hslash (by decide)
    · exact absurd ((h s hs).2 _ hc) (by decide)
  · rintro ⟨front, back, hcs⟩
    have hborder : front ++ ['/', '/'] ++ back = front ++ '/' :: ([] ++ '/' :: back) := by simp
    rw [← hcs, hborder, splitWhere_append_cons rfl, splitWhere_append_cons rfl] at hfull
    exact hfull [] (by simp [splitWhere]) rfl

theorem isWay_of_normal (h : Path.normalize path = path) : IsWay false path := by
  rw [← h]
  have htidy := Path.tidy_segments path
  exact isWay_join fun s hs => ⟨(htidy.collapsed.ne_nil_here s hs).1, htidy.plain s hs⟩

theorem isWay_relative (dir path : String) : IsWay false (Path.relative dir path) := by
  have htidy := Path.tidy_segments path
  rw [Path.relative_eq]
  split
  · exact ⟨by decide, by decide, by decide⟩
  · refine isWay_join fun s hs => ?_
    rcases List.mem_append.mp hs with hs | hs
    · rw [List.eq_of_mem_replicate hs]
      exact ⟨by decide, by simp [Path.above, isSeparator]⟩
    · have hmem := List.mem_of_mem_drop hs
      exact ⟨(htidy.collapsed.ne_nil_here s hmem).1, htidy.plain s hmem⟩

/-- A name holds no separator at all. -/
theorem isWay_baseName (h : Path.normalize path = path) : IsWay false (Path.baseName path) := by
  rw [Path.baseName]
  split
  · rename_i front name hsplit
    have hslash : '/' ∉ name := not_mem_of_splitLast? hsplit
    have hback : '\\' ∉ name := fun hmem => (isWay_of_normal h).forward
      (by rw [← append_of_splitLast? hsplit]; simp [hmem])
    refine ⟨?_, by rwa [String.toList_ofList], ?_⟩
    · rw [isRootAbsolute, String.toList_ofList]
      cases name with
      | nil => rfl
      | cons c cs =>
          rw [List.mem_cons, not_or] at hslash hback
          simp [isSeparator, Ne.symm hslash.1, Ne.symm hback.1]
    · rw [String.toList_ofList]
      exact fun hinside => hslash (hinside.subset List.mem_cons_self)
  · exact isWay_of_normal h

theorem IsWay.not_slash_start (h : IsWay false path) : ¬ ['/'] <+: path.toList := by
  rintro ⟨rest, hcs⟩
  have hrooted := h.rooted
  rw [isRootAbsolute, ← hcs] at hrooted
  exact Bool.noConfusion hrooted

theorem IsWay.slash (h : IsWay false path) : IsWay true ("/" ++ path) := by
  have hcs : ("/" ++ path).toList = '/' :: path.toList := by simp [String.toList_append]
  refine ⟨by rw [isRootAbsolute, hcs]; rfl, by simp [hcs, h.forward], ?_⟩
  rw [hcs, List.infix_cons_iff, List.cons_prefix_cons]
  exact fun hinside => hinside.elim (fun hstart => h.not_slash_start hstart.2) h.single

theorem IsWay.keepHere (h : IsWay false path) (written : String) :
    IsWay false (keepHere written path) := by
  rw [Edit.keepHere]
  split
  · have hcs : ("./" ++ path).toList = '.' :: '/' :: path.toList := by simp [String.toList_append]
    refine ⟨by rw [isRootAbsolute, hcs]; rfl, by simp [hcs, h.forward], ?_⟩
    rw [hcs, List.infix_cons_iff, List.infix_cons_iff]
    rintro (hdot | hslash | hinside)
    · exact absurd (List.cons_prefix_cons.mp hdot).1 (by decide)
    · exact h.not_slash_start (List.cons_prefix_cons.mp hslash).2
    · exact h.single hinside
  · exact h

/-- What is put in place of a link to something that has moved begins at the root if the link did. -/
theorem isWay_retarget (written hostDir : String) (ht : Path.normalize m.target = m.target) :
    IsWay (isRootAbsolute written) (retarget written hostDir m) := by
  rw [retarget]
  split
  · rename_i hrooted
    rw [hrooted]
    exact (isWay_of_normal ht).slash
  · rename_i hrelative
    rw [Bool.not_eq_true] at hrelative
    rw [hrelative]
    split
    · exact isWay_baseName ht
    · split
      · exact isWay_of_normal ht
      · exact (isWay_relative hostDir m.target).keepHere written

/-! ## Separators -/

/-- A way written with backslashes. -/
def backward (path : String) : List Char := replaceChar '/' ['\\'] path.toList

theorem slash_not_mem_replaceChar {sep : List Char} (hsep : '/' ∉ sep) (cs : List Char) :
    '/' ∉ replaceChar '/' sep cs := by
  intro hmem
  obtain ⟨c, -, hc⟩ := List.mem_flatMap.mp hmem
  split at hc
  · exact hsep hc
  · rename_i hne
    exact hne (List.mem_singleton.mp hc).symm

/-- No two backslashes come together where no two slashes did. -/
theorem IsWay.single_backward {rooted : Bool} (h : IsWay rooted path) :
    ¬ ['\\', '\\'] <:+: backward path := by
  have hmap : backward path = path.toList.map fun c => if c = '/' then '\\' else c := by
    rw [backward, replaceChar, List.map_eq_flatMap]
    exact List.flatMap_congr fun c _ => by split <;> rfl
  have hslash : ∀ c ∈ path.toList, (if c = '/' then '\\' else c) = '\\' → c = '/' := by
    intro c hc hsep
    split at hsep
    · assumption
    · exact absurd (hsep ▸ hc) h.forward
  rw [hmap, List.infix_map_iff]
  rintro ⟨cs, hinside, hcs⟩
  obtain ⟨a, b, rfl⟩ := List.length_eq_two.mp (by simpa using (congrArg List.length hcs).symm)
  simp only [List.map_cons, List.map_nil, List.cons.injEq, and_true] at hcs
  obtain rfl := hslash a (hinside.subset (by simp)) hcs.1.symm
  obtain rfl := hslash b (hinside.subset (by simp)) hcs.2.symm
  exact h.single hinside

/-- With its backslashes doubled a way is what it is with doubled separators. -/
theorem doubled_backward (h : '\\' ∉ path.toList) :
    Json.doubled (backward path) = replaceChar '/' ['\\', '\\'] path.toList := by
  rw [backward, Json.doubled, replaceChar, replaceChar, replaceChar, List.flatMap_assoc]
  refine List.flatMap_congr fun c hc => ?_
  have hne : c ≠ '\\' := fun he => h (he ▸ hc)
  split <;> simp [hne]

theorem separatorOf_of_not_mem {written : String} (kind : ReferenceKind)
    (h : '\\' ∉ written.toList) : separatorOf written kind = ['/'] := by
  have hsingle : hasDoubled written = false := by
    refine Bool.eq_false_iff.mpr fun hdoubled => ?_
    exact h ((contains_iff.mp hdoubled).subset List.mem_cons_self)
  rw [separatorOf, hsingle, if_neg (by simp), if_neg (by simpa using h)]

theorem slash_not_mem_separatorOf {written : String} (kind : ReferenceKind)
    (h : '\\' ∈ written.toList) : '/' ∉ separatorOf written kind := by
  rw [separatorOf]
  split
  · decide
  · rw [if_pos (by simpa using h)]
    decide

/-! ## The edit -/

/--
An edit of a reference puts a path in the place of the old one and leaves everything about the look
of the link as it was.
-/
structure KeepsForm (r : Reference) (e : Edit) (path : String) : Prop where
  line : e.line = r.line
  columnStart : e.columnStart = r.columnStart
  columnEnd : e.columnEnd = r.columnEnd
  expected : e.expected = r.target
  changed : e.replacement ≠ r.target
  /-- The fragment, or that there is none. -/
  replacement : e.replacement = r.spelled path
  rooted : isRootAbsolute path = isRootAbsolute r.targetPath
  backward : '\\' ∈ r.targetPath.toList → '/' ∉ path.toList
  forward : '\\' ∉ r.targetPath.toList → '\\' ∉ path.toList
  /-- In a string, the path that is meant has a single backslash for each pair of them. -/
  doubled : r.kind = .jsonValue → hasDoubled r.targetPath = true → ∃ single,
    path.toList = Json.doubled single ∧ '/' ∉ single ∧ ¬ ['\\', '\\'] <:+: single ∧
    ∀ meant, Json.Spelt path.toList meant ↔ meant = single ∧ ∀ c ∈ single, Json.IsPrinted c

/-- An edit that writes a way with the separators of the old link keeps the look of the link. -/
theorem IsWay.keepsForm (h : IsWay (isRootAbsolute r.targetPath) path)
    (he : replacing? r (withSeparators r.targetPath r.kind path) = some e) :
    KeepsForm r e (withSeparators r.targetPath r.kind path) := by
  have hfor := isFor_of_replacing? he
  have hspelled := outcome_replacing? r (withSeparators r.targetPath r.kind path)
  rw [he] at hspelled
  have hcs := congrArg String.toList (withSeparators_eq r.targetPath r.kind path)
  rw [String.toList_ofList] at hcs
  refine ⟨hfor.line, hfor.columnStart, hfor.columnEnd, hfor.expected, ?_, hspelled,
    (isRootAbsolute_withSeparators _ _ _).trans h.rooted, fun hback => ?_, fun hforward => ?_,
    fun hkind hdoubled => ?_⟩
  · rw [replacing?] at he
    obtain ⟨hchanged, he⟩ := Option.ite_none_left_eq_some.mp he
    obtain rfl := Option.some.inj he
    exact hchanged
  · rw [hcs]
    exact slash_not_mem_replaceChar (slash_not_mem_separatorOf _ hback) _
  · rw [hcs, separatorOf_of_not_mem _ hforward]
    intro hmem
    obtain ⟨c, hc, hback⟩ := List.mem_flatMap.mp hmem
    split at hback
    · exact absurd hback (by decide)
    · exact h.forward (List.mem_singleton.mp hback ▸ hc)
  · have hsep : separatorOf r.targetPath r.kind = ['\\', '\\'] := if_pos ⟨hkind, hdoubled⟩
    rw [hcs, hsep, ← doubled_backward h.forward]
    exact ⟨Edit.backward path, rfl, slash_not_mem_replaceChar (by decide) _, h.single_backward,
      fun meant => Json.spelt_doubled_iff⟩

theorem isWay_of_outbound? (he : outbound? isThere r source target = some e) :
    ∃ path, IsWay (isRootAbsolute r.targetPath) path ∧
      replacing? r (withSeparators r.targetPath r.kind path) = some e := by
  unfold outbound? at he
  dsimp only at he
  split at he
  · exact absurd he (by simp)
  · rename_i hout
    simp only [Bool.or_eq_true, not_or, Bool.not_eq_true] at hout
    obtain ⟨⟨⟨⟨⟨-, hrelative⟩, -⟩, -⟩, -⟩, -⟩ := hout
    refine ⟨_, ?_, he⟩
    rw [hrelative]
    exact (isWay_relative _ _).keepHere _

/--
**A new link looks like the old one.**

An edit stands where its reference stands and wants what is written there. It puts something else in
its place, which is a path in front of the fragment of the reference, if it has one. The path begins
at the root when the old one did. It has backslashes and no slashes if the old one had a backslash,
and else it has no backslash. In a string where the old path had a doubled backslash, the path is one
with single backslashes and with each of them doubled, and it means the one with the single ones
unless a name in it holds a quote or a control character. This is so for links to something that has
moved to any place, and for the links of a file that has moved itself.
-/
theorem keepsForm_of_planned
    (he : (∃ m, Path.normalize m.target = m.target ∧ inbound? r m = some e) ∨
      ∃ isThere source target, outbound? isThere r source target = some e) :
    ∃ path, KeepsForm r e path := by
  rcases he with ⟨m, htarget, he⟩ | ⟨isThere, source, target, he⟩
  · rw [inbound?, if_pos (of_inbound? he).2] at he
    exact ⟨_, (isWay_retarget r.targetPath (parent m.host) htarget).keepsForm he⟩
  · obtain ⟨path, hway, he⟩ := isWay_of_outbound? he
    exact ⟨_, hway.keepsForm he⟩

/-- A link with doubled backslashes and a fragment in a string of a document two levels down. -/
def escapedLink : Reference where
  anchorText := none
  columnEnd := 40
  columnStart := 9
  kind := .jsonValue
  line := 3
  source := "docs/api/index.json"
  target := "..\\\\old\\\\guide.md#top"

/--
What the link means moves to another directory, and its new path has the doubled backslashes and the
fragment of the old one; so has the path that it gets when its file goes one level up.
-/
theorem keepsForm_of_planned_escaped :
    Path.normalize "manual/my guide.md" = "manual/my guide.md" ∧
    inbound? escapedLink ⟨"docs/api/index.json", "docs/old/guide.md", "manual/my guide.md"⟩ =
      some ⟨40, 9, 3, escapedLink.target, "..\\\\..\\\\manual\\\\my guide.md#top"⟩ ∧
    KeepsForm escapedLink
      ⟨40, 9, 3, escapedLink.target, "..\\\\..\\\\manual\\\\my guide.md#top"⟩
      "..\\\\..\\\\manual\\\\my guide.md" ∧
    outbound? (· == "docs/old/guide.md") escapedLink "docs/api/index.json" "docs/index.json" =
      some ⟨40, 9, 3, escapedLink.target, "old\\\\guide.md#top"⟩ ∧
    KeepsForm escapedLink ⟨40, 9, 3, escapedLink.target, "old\\\\guide.md#top"⟩
      "old\\\\guide.md" := by
  have hnormal : Path.normalize "manual/my guide.md" = "manual/my guide.md" := by decide +kernel
  have hinbound : inbound? escapedLink
      ⟨"docs/api/index.json", "docs/old/guide.md", "manual/my guide.md"⟩ =
        some ⟨40, 9, 3, escapedLink.target, "..\\\\..\\\\manual\\\\my guide.md#top"⟩ := by
    decide +kernel
  have houtbound : outbound? (· == "docs/old/guide.md") escapedLink "docs/api/index.json"
      "docs/index.json" = some ⟨40, 9, 3, escapedLink.target, "old\\\\guide.md#top"⟩ := by
    decide +kernel
  have hspelled : escapedLink.spelled "..\\\\..\\\\manual\\\\my guide.md" =
      "..\\\\..\\\\manual\\\\my guide.md#top" := by
    decide +kernel
  have hspelled' : escapedLink.spelled "old\\\\guide.md" = "old\\\\guide.md#top" := by
    decide +kernel
  obtain ⟨path, hform⟩ := keepsForm_of_planned (.inl
    ⟨⟨"docs/api/index.json", "docs/old/guide.md", "manual/my guide.md"⟩, hnormal, hinbound⟩)
  obtain ⟨path', hform'⟩ := keepsForm_of_planned (.inr ⟨_, _, _, houtbound⟩)
  obtain rfl := spelled_injective (hform.replacement.symm.trans hspelled.symm)
  obtain rfl := spelled_injective (hform'.replacement.symm.trans hspelled'.symm)
  exact ⟨hnormal, hinbound, hform, houtbound, hform'⟩

end Edit

end LinkKeeper
