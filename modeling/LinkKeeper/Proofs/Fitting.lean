import LinkKeeper.Proofs.Looks
import LinkKeeper.Proofs.Reparsing

/-!
# Where a new link fits

The path of a new link is put together from names in the tree, and only its separators are adapted to
the place where it is written. So it fits there as long as no name holds a character with a meaning
of its own: a blank or a parenthesis in an inline link, a hash in front of a fragment, a quote or a
control character in a string. What fits and what does not is said exactly, since nothing keeps such
names out.
-/

namespace LinkKeeper

open Text
open Path (parent isRootAbsolute isSeparator segments join splitFragment)

/-! ## Inline links -/

namespace Links.Markdown

variable {text target : List Char}

/-- A line that is an inline link. -/
def inlineLine (text target : List Char) : List Char :=
  '[' :: (text ++ ']' :: '(' :: (target ++ [')']))

/-- What is found on such a line when all of it is the link. -/
def wholeLink (text target : List Char) : Link :=
  ⟨⟨0, width (inlineLine text target)⟩, some text, ⟨width ('[' :: (text ++ [']', '('])), target⟩⟩

/-- A text is the target of one inline link, whatever stands between the brackets. -/
def FitsLink (target : List Char) : Prop :=
  ∀ text : List Char, (∀ c ∈ text, isTextChar c = true) →
    links (inlineLine text target) = [wholeLink text target]

theorem destination?_shut (hne : target ≠ []) (h : ∀ c ∈ target, isTargetChar c = true) :
    destination? (target ++ [')']) = some (⟨0, target⟩, []) := by
  obtain ⟨c, cs, hcs⟩ := List.exists_cons_of_ne_nil hne
  have hblank : isBlank c = false := by
    have hc := h c (hcs ▸ List.mem_cons_self)
    simp only [isTargetChar, Bool.not_eq_true', Bool.or_eq_false_iff] at hc
    exact hc.2
  have hlead : (target ++ [')']).takeWhile isBlank = [] := by simp [hcs, hblank]
  have hinner : (target ++ [')']).dropWhile isBlank = target ++ [')'] := by simp [hcs, hblank]
  have htarget : (target ++ [')']).takeWhile isTargetChar = target := by
    rw [List.takeWhile_append_of_pos h, List.takeWhile_cons_of_neg (by decide), List.append_nil]
  have hbehind : (target ++ [')']).dropWhile isTargetChar = [')'] := by
    rw [List.dropWhile_append_of_pos h]
    rfl
  rw [destination?_eq (by rwa [hinner, htarget]), hinner, htarget, hbehind, hlead]
  rfl

theorem linksOf_inlineLine (htext : ∀ c ∈ text, isTextChar c = true) (hne : target ≠ [])
    (h : ∀ c ∈ target, isTargetChar c = true) :
    linksOf inlineLink (inlineLine text target) = [wholeLink text target] := by
  have hinside : (text ++ ']' :: '(' :: (target ++ [')'])).takeWhile isTextChar = text := by
    rw [List.takeWhile_append_of_pos htext, List.takeWhile_cons_of_neg (by decide), List.append_nil]
  have hrest : (text ++ ']' :: '(' :: (target ++ [')'])).dropWhile isTextChar =
      ']' :: '(' :: (target ++ [')']) := by
    rw [List.dropWhile_append_of_pos htext]
    rfl
  have hfound : inlineLink none (inlineLine text target ++ []) =
      some ((some text, ⟨width ('[' :: (text ++ [']', '('])), target⟩,
        width (inlineLine text target)), (inlineLine text target).length) := by
    have hsplit : target ++ [')'] = [] ++ (target ++ ([')'] ++ [])) := by simp
    rw [List.append_nil, inlineLine, inlineLink_eq none _ _ hrest, hinside,
      found?_eq hsplit (destination?_shut hne h), answer]
    simp
  obtain ⟨last, hmatches⟩ := matchesFrom_found (by simp [inlineLine]) hfound 0
  rw [List.append_nil] at hmatches
  rw [linksOf, matchesOf, hmatches]
  simp [matchesFrom, Piece.shift, wholeLink]

/-- **An inline link with such a target is one link**, and no end of an image is taken for another. -/
theorem fitsLink_of_isTargetChar (hne : target ≠ []) (h : ∀ c ∈ target, isTargetChar c = true) :
    FitsLink target := by
  intro text htext
  have hinline := linksOf_inlineLine htext hne h
  -- whatever else begins with `](` lies within the link, which is the whole line
  have hnone : ((linksOf imageLinkEnd (inlineLine text target)).filter fun l => !l.target.span.isClaimed
      ((linksOf inlineLink (inlineLine text target)).map (·.whole))) = [] := by
    rw [List.filter_eq_nil_iff]
    intro l hl
    obtain ⟨hplaced, -⟩ := placed_linksOf foundAt_imageLinkEnd (inlineLine text target)
    obtain ⟨front, back, hwhere, hstart⟩ := hplaced.on _ (List.mem_map_of_mem hl)
    have hsome := width_pos_of_ne_nil (hplaced.some _ (List.mem_map_of_mem hl)).1
    have hwidth := congrArg width hwhere
    rw [width_append, width_append] at hwidth
    rw [Bool.not_eq_true, Bool.not_eq_false', hinline, Span.isClaimed, List.any_eq_true]
    refine ⟨_, List.mem_cons_self, ?_⟩
    rw [Span.meets, Bool.and_eq_true, decide_eq_true_iff, decide_eq_true_iff]
    show l.target.start < width (inlineLine text target) ∧
      0 < l.target.start + width l.target.text
    omega
  rw [links, hnone, List.append_nil, hinline]

/-- A text fits when it has no blank and no parenthesis, and only then. -/
theorem fitsLink_iff (hne : target ≠ []) :
    FitsLink target ↔ ∀ c ∈ target, isTargetChar c = true := by
  refine ⟨fun hfits => ?_, fitsLink_of_isTargetChar hne⟩
  have hl : wholeLink [] target ∈ links (inlineLine [] target) :=
    hfits [] (by simp) ▸ List.mem_singleton_self _
  obtain ⟨front, back, haimed⟩ := exists_aimed hl
  exact haimed.chars

end Links.Markdown

/-! ## Strings -/

namespace Json

end Json

/-! ## The new link -/

namespace Edit

variable {rule : CandidateRule} {source content : String} {r : Reference} {m : Move} {e : Edit}
  {written way : String}

/-- Where a character that is no slash is not part of any separator, it is where it was. -/
theorem madeOf_withSeparators_iff {p : Char → Prop} (hsep : ∀ c, isSeparator c = true → p c)
    (written : String) (kind : ReferenceKind) :
    MadeOf p (withSeparators written kind way) ↔ MadeOf p way := by
  refine ⟨fun h c hc => ?_, madeOf_withSeparators hsep written kind⟩
  by_cases hslash : c = '/'
  · exact hsep c (hslash ▸ rfl)
  · refine h c ?_
    rw [withSeparators_eq, String.toList_ofList]
    refine List.mem_flatMap.mpr ⟨c, hc, ?_⟩
    rw [if_neg hslash]
    exact List.mem_singleton_self c

/-- The pieces of a path in normal form are its segments, of which none is empty. -/
theorem pieces_of_normal {path : String} (h : Path.normalize path = path) (hne : path ≠ "") :
    splitWhere isSeparator path.toList = segments path ∧ [] ∉ segments path := by
  have htidy := Path.tidy_segments path
  refine ⟨?_, fun hmem => (htidy.collapsed.ne_nil_here [] hmem).1 rfl⟩
  have hsome : segments path ≠ [] := fun hnil => hne (by rw [← h, Path.normalize, hnil]; rfl)
  conv_lhs => rw [← h, Path.normalize, Path.toList_join]
  exact splitWhere_intercalate Path.isSeparator_slash hsome htidy.plain

theorem baseName_ne_empty {path : String} (h : Path.normalize path = path) (hne : path ≠ "") :
    Path.baseName path ≠ "" := by
  obtain ⟨hpieces, hsome⟩ := pieces_of_normal h hne
  rw [Path.baseName]
  split
  · rename_i front name hsplit
    intro he
    obtain rfl : name = [] := by rw [← String.toList_ofList (l := name), he]; rfl
    rw [← append_of_splitLast? hsplit, splitWhere_append_cons Path.isSeparator_slash] at hpieces
    exact hsome (hpieces ▸ by simp [splitWhere])
  · exact hne

theorem join_ne_empty {ss : List (List Char)} (hss : ss ≠ []) (h : [] ∉ ss) : join ss ≠ "" := by
  obtain ⟨s, rest, rfl⟩ := List.exists_cons_of_ne_nil hss
  rw [ne_eq, ← String.toList_inj, Path.toList_join]
  intro hnil
  refine h (List.mem_cons.mpr (.inl ?_))
  by_cases hrest : rest = []
  · rw [hrest, intercalate_singleton] at hnil
    exact hnil.symm
  · rw [intercalate_cons hrest] at hnil
    exact absurd hnil (by simp)

/-- No new link is empty. -/
theorem retarget_ne_empty (written hostDir : String) (ht : Path.normalize m.target = m.target)
    (hne : m.target ≠ "") : retarget written hostDir m ≠ "" := by
  rw [retarget]
  split
  · rw [ne_eq, ← String.toList_inj, String.toList_append]
    exact List.cons_ne_nil _ _
  · split
    · exact baseName_ne_empty ht hne
    · split
      · exact hne
      · refine keepHere_ne_empty _ ?_
        rw [Path.relative_eq]
        split
        · decide
        · rename_i hway
          refine join_ne_empty hway fun hmem => ?_
          rcases List.mem_append.mp hmem with hmem | hmem
          · exact absurd (List.eq_of_mem_replicate hmem) (by decide)
          · exact (pieces_of_normal ht hne).2 (List.mem_of_mem_drop hmem)

/-- A path with the separators of a link as they are read: none of them is written twice. -/
def singly (written way : String) : List Char :=
  if hasDoubled written then backward way else way.toList

/-- Between quotes, a link has a way with each backslash doubled. -/
theorem withSeparators_eq_doubled (hway : '\\' ∉ way.toList)
    (hwritten : '\\' ∈ written.toList → hasDoubled written = true) :
    (withSeparators written .jsonValue way).toList = Json.doubled (singly written way) := by
  rw [withSeparators_eq, String.toList_ofList, singly]
  split
  · rename_i hdoubled
    rw [separatorOf, if_pos ⟨rfl, hdoubled⟩, doubled_backward hway]
  · rename_i hsingle
    rw [separatorOf_of_not_mem _ (mt hwritten hsingle), Json.doubled_of_not_mem hway]
    exact (List.flatMap_congr fun c _ => by split <;> simp_all).trans
      (List.flatMap_singleton' way.toList)

/-- The target of an inline link that was found has no blank and no parenthesis. -/
theorem isTargetChar_of_found (hr : r ∈ (Links.find rule source content).references)
    (hkind : r.kind = .markdownInline) :
    ∀ c ∈ r.target.toList, Links.Markdown.isTargetChar c = true := by
  have hmem := (Links.mem_find_markdown (Links.format_of_inline hr hkind)).mp hr
  obtain ⟨index, line, -, -, hline⟩ := Links.mem_perLine (Links.Markdown.given rule source) hmem
  obtain ⟨l, hl, htarget, -⟩ := Links.Markdown.mem_lineReferences hline hkind
  obtain ⟨front, back, haimed⟩ := Links.Markdown.exists_aimed hl
  have hchars := haimed.chars
  rwa [htarget] at hchars

/-- A string that was found stands for a text, and is that text with each backslash doubled. -/
theorem exists_doubled_of_found (hr : r ∈ (Links.find rule source content).references)
    (hkind : r.kind = .jsonValue) :
    ∃ decoded, r.target.toList = Json.doubled decoded ∧ ∀ c ∈ decoded, Json.IsPrinted c := by
  obtain ⟨-, v, ⟨key, l⟩, hparse, hg, hlink, rfl⟩ := Links.Json.exists_document hr hkind
  obtain ⟨stop, horder⟩ := Json.inOrder_of_parse? hparse none
  have hspelt : Json.Spelt l.raw l.decoded := horder.spelt _ (Json.Value.mem_literals_of_mem_strings hg)
  have hwritable : Links.Json.isWritable l = true := by
    cases key with
    | none => exact absurd hlink (by simp [Links.Json.isLink])
    | some key =>
        simp only [Links.Json.isLink, Bool.and_eq_true] at hlink
        exact hlink.2
  have hraw := Json.raw_eq_doubled hspelt hwritable
  rw [hraw] at hspelt
  exact ⟨l.decoded, by rw [← hraw]; exact String.toList_ofList, (Json.spelt_doubled_iff.mp hspelt).2⟩

/-- The path of a new link is told apart from its fragment when it holds no hash, and only then. -/
theorem splitFragment_spelled_iff {path : String} :
    splitFragment (r.spelled path) = (path, (splitFragment r.target).2) ↔ '#' ∉ path.toList := by
  constructor
  · intro h
    rw [splitFragment] at h
    split at h
    · rename_i front back hsplit
      have hpath := (Prod.mk.inj h).1
      rw [← hpath, String.toList_ofList]
      exact not_mem_of_splitFirst? hsplit
    · rename_i hnone
      have hpath := (Prod.mk.inj h).1
      rw [← hpath]
      exact splitFirst?_eq_none.mp hnone
  · intro h
    refine Prod.ext (splitFragment_spelled h) ?_
    cases hfragment : (splitFragment r.target).2 with
    | none => 
        rw [Reference.spelled, hfragment, splitFragment, splitFirst?_eq_none.mpr h]
    | some fragment =>
        have hcs : (path ++ "#" ++ fragment).toList = path.toList ++ '#' :: fragment.toList := by
          simp [String.toList_append]
        rw [Reference.spelled, hfragment, splitFragment, hcs, splitFirst?_append_cons h]
        simp

/-- A way is parted from its fragment again if it has no hash of its own. -/
theorem splitFragment_written_iff (r : Reference) (way : String) :
    splitFragment (r.spelled (withSeparators r.targetPath r.kind way)) =
        (withSeparators r.targetPath r.kind way, (splitFragment r.target).2) ↔
      MadeOf (· ≠ '#') way := by
  have hsep : ∀ c, isSeparator c = true → c ≠ '#' := by
    rintro _ hc rfl
    exact absurd hc (by decide)
  rw [splitFragment_spelled_iff, ← madeOf_withSeparators_iff hsep r.targetPath r.kind]
  exact ⟨fun h c hc he => h (he ▸ hc), fun h hmem => h '#' hmem rfl⟩

/-- A way fits into an inline link if no character of it ends a target. -/
theorem fitsLink_written_iff (hr : r ∈ (Links.find rule source content).references)
    (hkind : r.kind = .markdownInline) (hsome : way ≠ "") :
    Links.Markdown.FitsLink (r.spelled (withSeparators r.targetPath r.kind way)).toList ↔
      MadeOf (fun c => Links.Markdown.isTargetChar c = true) way := by
  obtain ⟨rest, -, hlists⟩ := exists_fragment r
  have hchars := isTargetChar_of_found hr hkind
  rw [← spelled_targetPath r, hlists] at hchars
  have hne : (withSeparators r.targetPath r.kind way).toList ++ rest ≠ [] := fun hnil =>
    withSeparators_ne_empty _ _ hsome (String.toList_inj.mp (List.append_eq_nil_iff.mp hnil).1)
  have hsep : ∀ c, isSeparator c = true → Links.Markdown.isTargetChar c = true := fun c hc =>
    Links.Markdown.isTargetChar_of_isPathChar (by simp [isPathChar, hc])
  rw [hlists, Links.Markdown.fitsLink_iff hne,
    ← madeOf_withSeparators_iff hsep r.targetPath r.kind, List.forall_mem_append]
  exact and_iff_left fun c hc => hchars c (List.mem_append_right _ hc)

/-- A way stands for itself in a string if no character of it needs an escape. -/
theorem spelt_written_iff (hr : r ∈ (Links.find rule source content).references)
    (hkind : r.kind = .jsonValue) (hforward : '\\' ∉ way.toList) :
    ∃ old tail, Json.Spelt r.targetPath.toList old ∧ Json.Spelt r.target.toList (old ++ tail) ∧
      ∀ meant, Json.Spelt (r.spelled (withSeparators r.targetPath r.kind way)).toList meant ↔
        meant = singly r.targetPath way ++ tail ∧ MadeOf Json.IsPrinted way := by
  obtain ⟨rest, hrest, hlists⟩ := exists_fragment r
  have hold := hlists r.targetPath
  rw [spelled_targetPath] at hold
  obtain ⟨decoded, hdecoded, hprinted⟩ := exists_doubled_of_found hr hkind
  rw [hold] at hdecoded
  have hhash : '#' ∉ r.targetPath.toList :=
    splitFragment_spelled_iff.mp (by rw [spelled_targetPath]; rfl)
  -- the string is read in two parts, and the fragment keeps its own
  obtain ⟨old, tail, rfl, hfront, htail⟩ :=
    Json.exists_append_of_doubled hdecoded.symm hhash hrest
  obtain ⟨hprintedOld, hprintedTail⟩ := List.forall_mem_append.mp hprinted
  have hdoubled : '\\' ∈ r.targetPath.toList → hasDoubled r.targetPath = true := by
    intro hback
    rw [← hfront] at hback
    rw [hasDoubled, ← hfront]
    exact Json.contains_doubled (Json.mem_doubled.mp hback)
  have hpath := withSeparators_eq_doubled hforward hdoubled
  have hsep : ∀ c, isSeparator c = true → Json.IsPrinted c := by
    intro c hc
    rcases (Bool.or_eq_true _ _).mp hc with hc | hc <;> rw [eq_of_beq hc] <;> decide
  have hprintedWay : (∀ c ∈ singly r.targetPath way, Json.IsPrinted c) ↔
      MadeOf Json.IsPrinted way := by
    rw [← madeOf_withSeparators_iff hsep r.targetPath .jsonValue, MadeOf, hpath]
    simp only [Json.mem_doubled]
  refine ⟨old, tail, ?_, ?_, fun meant => ?_⟩
  · rw [← hfront]
    exact Json.spelt_doubled_iff.mpr ⟨rfl, hprintedOld⟩
  · rw [hold, hdecoded]
    exact Json.spelt_doubled_iff.mpr ⟨rfl, hprinted⟩
  · rw [hlists, hkind, hpath, ← htail, ← Json.doubled_append, Json.spelt_doubled_iff,
      List.forall_mem_append, hprintedWay]
    exact and_congr_right fun _ => and_iff_left hprintedTail

/--
**A new link fits as far as its names do.**

Let a link that was read from a file be edited because what it leads to has moved to a place with any
name. Then the new link is a way to this place, never empty, with the separators and the fragment of
the old one, and besides signs for directories the way has only characters of the new path. It is
parted from its fragment again if no hash is on the way. An inline link stays one, with this target,
if no blank and no parenthesis is on the way. In a string, what the new link stands for is the way
with single separators and what the fragment stood for, if no quote and no control character is on
the way. In each case it is so only then; else the text can no longer be read as what was meant.
-/
theorem inbound?_fits_iff (hr : r ∈ (Links.find rule source content).references)
    (ht : Path.normalize m.target = m.target) (hne : m.target ≠ "") (he : inbound? r m = some e) :
    ∃ way, way = retarget r.targetPath (parent m.host) m ∧ way ≠ "" ∧
      (∀ p : Char → Prop, (∀ c, isSeparator c = true → p c) → p '.' → MadeOf p m.target →
        MadeOf p way) ∧
      e.replacement = r.spelled (withSeparators r.targetPath r.kind way) ∧
      (splitFragment e.replacement =
          (withSeparators r.targetPath r.kind way, (splitFragment r.target).2) ↔
        MadeOf (· ≠ '#') way) ∧
      (r.kind = .markdownInline → (Links.Markdown.FitsLink e.replacement.toList ↔
        MadeOf (fun c => Links.Markdown.isTargetChar c = true) way)) ∧
      (r.kind = .jsonValue → ∃ old tail,
        Json.Spelt r.targetPath.toList old ∧ Json.Spelt r.target.toList (old ++ tail) ∧
        ∀ meant, Json.Spelt e.replacement.toList meant ↔
          meant = singly r.targetPath way ++ tail ∧ MadeOf Json.IsPrinted way) := by
  have hway := isWay_retarget r.targetPath (parent m.host) ht
  have hsome := retarget_ne_empty r.targetPath (parent m.host) ht hne
  have hspelled := outcome_inbound? (of_inbound? he).2
  rw [he] at hspelled
  have hspelled : e.replacement = r.spelled _ := hspelled
  rw [hspelled]
  exact ⟨_, rfl, hsome, fun p hsep hdot => madeOf_retarget hsep hdot _ _, rfl,
    splitFragment_written_iff r _, fun hkind => fitsLink_written_iff hr hkind hsome,
    fun hkind => spelt_written_iff hr hkind hway.forward⟩

/-- The reference to the link of a file with nothing else in it. -/
def loneLink : Reference := ⟨some "g", 12, 4, .markdownInline, 1, "n.md", "guide.md"⟩

/-- The reference to the string of a small document. -/
def loneString : Reference := ⟨none, 18, 10, .jsonValue, 1, "n.json", "guide.md"⟩

theorem loneLink_mem :
    loneLink ∈ (Links.find (.ofExtensions ["md"]) "n.md" "[g](guide.md)").references :=
  (Links.mem_find_markdown (by decide +kernel)).mpr (by decide +kernel)

theorem loneString_mem :
    loneString ∈ (Links.find (.ofExtensions ["md"]) "n.json"
      "\x7b\"file\": \"guide.md\"\x7d").references := by
  decide +kernel

/-- The link fits when the file goes to a directory, and not when a blank comes into its name. -/
theorem inbound?_fits_iff_lone :
    inbound? loneLink ⟨"n.md", "guide.md", "manual/guide.md"⟩ =
      some ⟨12, 4, 1, "guide.md", "manual/guide.md"⟩ ∧
    Links.Markdown.FitsLink "manual/guide.md".toList ∧
    inbound? loneLink ⟨"n.md", "guide.md", "my guide.md"⟩ =
      some ⟨12, 4, 1, "guide.md", "my guide.md"⟩ ∧
    ¬ Links.Markdown.FitsLink "my guide.md".toList := by
  have hgood : inbound? loneLink ⟨"n.md", "guide.md", "manual/guide.md"⟩ =
      some ⟨12, 4, 1, "guide.md", "manual/guide.md"⟩ := by decide +kernel
  have hblank : inbound? loneLink ⟨"n.md", "guide.md", "my guide.md"⟩ =
      some ⟨12, 4, 1, "guide.md", "my guide.md"⟩ := by decide +kernel
  obtain ⟨way, hway, -, -, -, -, hfits, -⟩ :=
    inbound?_fits_iff loneLink_mem (by decide +kernel) (by decide) hgood
  obtain ⟨way', hway', -, -, -, -, hfits', -⟩ :=
    inbound?_fits_iff loneLink_mem (by decide +kernel) (by decide) hblank
  refine ⟨hgood, (hfits rfl).mpr ?_, hblank, fun h => ?_⟩
  · rw [hway]
    decide +kernel
  · have hmade := (hfits' rfl).mp h
    rw [hway'] at hmade
    exact absurd hmade (by decide +kernel)

/--
Names that the tree may well hold take a link apart: with a blank the line has no link any more, with
a hash the link leads to another path, and with a quote the document is none any more.
-/
theorem inbound?_breaks_syntax :
    (loneLink ∈ (Links.find (.ofExtensions ["md"]) "n.md" "[g](guide.md)").references ∧
      loneString ∈ (Links.find (.ofExtensions ["md"]) "n.json"
        "\x7b\"file\": \"guide.md\"\x7d").references) ∧
    (Path.normalize "my guide.md" = "my guide.md" ∧
      inbound? loneLink ⟨"n.md", "guide.md", "my guide.md"⟩ =
        some ⟨12, 4, 1, "guide.md", "my guide.md"⟩ ∧
      Links.Markdown.links "[g](my guide.md)".toList = []) ∧
    (Path.normalize "a#b.md" = "a#b.md" ∧
      inbound? loneLink ⟨"n.md", "guide.md", "a#b.md"⟩ =
        some ⟨12, 4, 1, "guide.md", "a#b.md"⟩ ∧
      splitFragment "a#b.md" = ("a", some "b.md")) ∧
    (Path.normalize "say \"hi\".md" = "say \"hi\".md" ∧
      inbound? loneString ⟨"n.json", "guide.md", "say \"hi\".md"⟩ =
        some ⟨18, 10, 1, "guide.md", "say \"hi\".md"⟩ ∧
      Json.parse? "\x7b\"file\": \"guide.md\"\x7d".toList ≠ none ∧
      Json.parse? "\x7b\"file\": \"say \"hi\".md\"\x7d".toList = none) :=
  ⟨⟨loneLink_mem, loneString_mem⟩, by decide +kernel⟩

end Edit

end LinkKeeper
