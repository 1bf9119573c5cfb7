import LinkKeeper.Proofs.Splicing

/-!
# The spans of the references of a file

Readers of structured text find links by value and look up or count where these stand,
and readers of lines try several ways of writing one after the other. Whichever way a
reference was found, its columns are the bytes of its link on its line, no other reference
of the file has one of these bytes, and no two references were found at one place to begin
with: leaving out what starts where its neighbour does leaves nothing out.

So an edit that is planned from a reference finds its link exactly where it was.
-/

namespace LinkKeeper

open Text

namespace Links

/-! ## Nothing is found twice -/

/-- References of which no two start at one place. -/
def Discrete (references : List Reference) : Prop :=
  references.Pairwise fun a b => ¬ (a.line = b.line ∧ a.columnStart = b.columnStart)

theorem startsAt_iff {a b : Reference} :
    startsAt a b = true ↔ a.line = b.line ∧ a.columnStart = b.columnStart := by
  rw [startsAt, Bool.and_eq_true, beq_iff_eq, beq_iff_eq]

theorem Discrete.perm {references others : List Reference} (h : Discrete references)
    (hp : references.Perm others) : Discrete others := by
  have hsymm : ∀ {a b : Reference}, ¬ (a.line = b.line ∧ a.columnStart = b.columnStart) →
      ¬ (b.line = a.line ∧ b.columnStart = a.columnStart) :=
    fun hn he => hn ⟨he.1.symm, he.2.symm⟩
  exact (hp.pairwise_iff hsymm).mp h

/-- Where no two references start at one place there is nothing to leave out. -/
theorem Discrete.distinct_eq {references : List Reference} (h : Discrete references) :
    distinct references = references := by
  induction references with
  | nil => rfl
  | cons r rest ih =>
      rw [distinct, ih h.of_cons]
      cases rest with
      | nil => rfl
      | cons s others =>
          have hdiffer : startsAt r s = false := by
            rw [Bool.eq_false_iff, ne_eq, startsAt_iff]
            exact List.rel_of_pairwise_cons h List.mem_cons_self
          dsimp only
          rw [hdiffer, if_neg Bool.false_ne_true]

/-! ## Line by line -/

/-- What is found on a line is found at places of its own. -/
theorem Given.discrete {number : Nat} {line : List Char} {references : List Reference}
    (h : Given number line references) : Discrete references := by
  have hapart := List.pairwise_map.mp h.placed.apart
  refine hapart.imp_of_mem fun {a b} ha hb hab hsame => ?_
  have hwidth : ∀ r ∈ references, r.columnStart < r.piece.stop := by
    intro r hr
    have hpos := width_pos_of_ne_nil (h.placed.some _ (List.mem_map_of_mem hr)).1
    show r.columnStart < r.columnStart + width r.piece.text
    omega
  have hab : a.piece.stop ≤ b.columnStart ∨ b.piece.stop ≤ a.columnStart := hab
  have := hwidth a ha
  have := hwidth b hb
  omega

theorem pairwise_numbered (content : List Char) :
    (numbered content).Pairwise fun a b => a.1 < b.1 := by
  rw [numbered, List.pairwise_map, List.pairwise_iff_getElem]
  intro i j hi hj hij
  rw [List.getElem_zipIdx, List.getElem_zipIdx]
  dsimp only
  omega

theorem discrete_perLine {find : Nat → List Char → List Reference}
    (h : ∀ number line, Given number line (find number line)) (content : List Char) :
    Discrete (perLine find content) := by
  rw [perLine, Discrete, List.pairwise_flatMap]
  refine ⟨fun pair _ => (h pair.1 pair.2).discrete, (pairwise_numbered content).imp ?_⟩
  intro first second hlt a ha b hb hsame
  -- what is found on two lines differs in its line
  have hfirst := (h first.1 first.2).line a ha
  have hsecond := (h second.1 second.2).line b hb
  omega

/-! ## Words -/

variable {content : List Char}

/-- At an offset of a text there is one word at most. -/
theorem Word.unique {as bs : List Char} {offset : Nat} (ha : Word content offset as)
    (hb : Word content offset bs) : as = bs := by
  obtain ⟨front, back, hcontent, hwidth, -, hback⟩ := ha.stands
  obtain ⟨front', back', hcontent', hwidth', -, hback'⟩ := hb.stands
  obtain ⟨-, hsame⟩ := append_inj_of_width (hcontent.symm.trans hcontent') (by omega)
  -- a word is all of its run of path characters
  have hrun : ∀ {word rest : List Char}, (∀ c ∈ word, isPathChar c = true) →
      (∀ c ∈ rest.head?, isPathChar c = false) → (word ++ rest).takeWhile isPathChar = word := by
    intro word rest hword hrest
    rw [List.takeWhile_append_of_pos hword]
    cases rest with
    | nil => simp
    | cons c cs => rw [List.takeWhile_cons_of_neg (by simp [hrest c (by simp)]), List.append_nil]
  rw [← hrun ha.chars hback, ← hrun hb.chars hback', hsame]

/-- References to words at places of their own. -/
theorem discrete_words {source : String} {kind : ReferenceKind} {pieces : List Piece}
    (h : pieces.Pairwise fun p q => p.start ≠ q.start) :
    Discrete (pieces.map (referToWord content source kind)) := by
  rw [Discrete, List.pairwise_map]
  refine h.imp fun {p q} hpq hsame => hpq ?_
  -- words of one line are as far from its start as their columns say
  obtain ⟨start, hp, hq⟩ := exists_line_offset hsame.1
  have hcolumn : (place (lineStarts content) p.start).2 = (place (lineStarts content) q.start).2 :=
    hsame.2
  omega

theorem Json.discrete {rule : CandidateRule} {source : String} {references : List Reference}
    (h : Json.references? rule source content = some references) : Discrete references := by
  rw [references?_eq] at h
  obtain ⟨value, hparse, rfl⟩ := Option.map_eq_some_iff.mp h
  have horder := LinkKeeper.Json.pairwise_strings_of_parse? hparse none
  have hpieces : (((value.strings none).filter (isLink rule)).map fun g =>
      (⟨g.2.start, g.2.raw⟩ : Piece)).Pairwise fun p q => p.start ≠ q.start :=
    List.pairwise_map.mpr ((horder.filter _).imp fun hlt => Nat.ne_of_lt hlt)
  have hdiscrete : Discrete ((((value.strings none).filter (isLink rule)).map fun g =>
      (⟨g.2.start, g.2.raw⟩ : Piece)).map (referToWord content source .jsonValue)) :=
    discrete_words hpieces
  rw [List.map_map] at hdiscrete
  exact hdiscrete

namespace Yaml

theorem offset_skip {s : Spot} {word back : List Char} (h : s.rest = word ++ back) :
    (s.skip word.length).offset = s.offset + width word := by
  induction word generalizing s with
  | nil => rfl
  | cons c word ih =>
      rw [List.length_cons, Spot.skip, h]
      dsimp only [List.cons_append]
      rw [ih rfl, width_cons, Nat.add_assoc]

theorem le_of_findWord {word : List Char} {offset : Nat} {before : Option Char} {cs : List Char}
    {s : Spot} (h : findWord word offset before cs = some s) : offset ≤ s.offset := by
  induction cs generalizing offset before with
  | nil => simp [findWord] at h
  | cons c cs ih =>
      rw [findWord] at h
      split at h
      · obtain rfl := Option.some.inj h
        exact Nat.le_refl _
      · exact Nat.le_trans (Nat.le_add_right _ _) (ih h)

theorem lookup_filter_ne {left : List (List Char × Spot)} {word other : List Char}
    (h : other ≠ word) : (left.filter (·.1 != word)).lookup other = left.lookup other := by
  induction left with
  | nil => rfl
  | cons pair left ih =>
      obtain ⟨name, spot⟩ := pair
      by_cases hname : name = word
      · have hne : (other == name) = false := by rw [hname]; exact beq_false_of_ne h
        rw [List.filter_cons_of_neg (by simp [hname]), List.lookup_cons, hne, ih]
      · rw [List.filter_cons_of_pos (by simpa using hname), List.lookup_cons, List.lookup_cons, ih]

/--
**Each word is placed at a place of its own**, by induction over the words. A word is looked
for behind where the last one of its text was left, and words of two texts have no place in
common.
-/
theorem pairwise_locateAll {words : List (List Char)} {left : List (List Char × Spot)}
    (hleft : ∀ pair ∈ left, pair.2.In content)
    (hwords : ∀ word ∈ words, word ≠ [] ∧ ∀ c ∈ word, isPathChar c = true) :
    (locateAll content left words).Pairwise (fun p q => p.start ≠ q.start) ∧
      ∀ p ∈ locateAll content left words, ∀ s, left.lookup p.text = some s →
        s.offset ≤ p.start := by
  induction words generalizing left with
  | nil => exact ⟨.nil, by simp [locateAll]⟩
  | cons word words ih =>
      have hrest : ∀ word ∈ words, word ≠ [] ∧ ∀ c ∈ word, isPathChar c = true :=
        fun other ho => hwords other (List.mem_cons_of_mem _ ho)
      rw [locateAll]
      split
      · rename_i offset left' hlocate
        obtain ⟨hne, hchars⟩ := hwords word List.mem_cons_self
        obtain ⟨hword, hleft'⟩ := word_of_locate hleft hne hchars hlocate
        obtain ⟨hpairwise, hbehind⟩ := ih hleft' hrest
        -- where the word was looked for, and where it was left
        unfold locate at hlocate
        obtain ⟨spot, hfind, hpair⟩ := Option.map_eq_some_iff.mp hlocate
        obtain ⟨rfl, rfl⟩ := Prod.mk.inj hpair
        have hstart : ∀ s, left.lookup word = some s → s.offset ≤ spot.offset := by
          intro s hs
          rw [hs] at hfind
          exact le_of_findWord hfind
        have hlater : ∀ q ∈ locateAll content ((word, spot.skip word.length) ::
            left.filter (·.1 != word)) words, q.text = word → spot.offset < q.start := by
          intro q hq htext
          obtain ⟨-, ⟨back, hback⟩, -⟩ := findWord_eq_some (in_of_lookup hleft word) hfind
          have hle := hbehind q hq (spot.skip word.length) (by rw [htext, List.lookup_cons_self])
          rw [offset_skip hback.symm] at hle
          have hpos := width_pos_of_ne_nil hne
          omega
        refine ⟨.cons (fun q hq => ?_) hpairwise, fun q hq s hs => ?_⟩
        · -- a word that starts here is the same word, and that was looked for further on
          intro hsame
          have hsame : spot.offset = q.start := hsame
          have hother := word_of_mem_locateAll hleft' hrest hq
          rw [← hsame] at hother
          have := hlater q hq (hword.unique hother).symm
          omega
        · rcases List.mem_cons.mp hq with rfl | hq
          · exact hstart s hs
          · by_cases htext : q.text = word
            · have := hlater q hq htext
              have := hstart s (htext ▸ hs)
              omega
            · refine hbehind q hq s ?_
              have hne : (q.text == word) = false := beq_false_of_ne htext
              rw [List.lookup_cons, hne, lookup_filter_ne htext]
              exact hs
      · exact ih hleft hrest

theorem discrete {rule : CandidateRule} {source : String} {references : List Reference}
    (h : Yaml.references? rule source content = some references) : Discrete references := by
  obtain ⟨values, -, rfl⟩ := Option.map_eq_some_iff.mp h
  refine discrete_words (pairwise_locateAll (by simp) fun word hw => ?_).1
  have haccepts := (List.mem_filter.mp hw).2
  exact ⟨(some_of_accepts haccepts).1, isPathChar_of_accepts haccepts⟩

end Yaml

/-! ## All formats -/

theorem Format.discrete {format : Format} {rule : CandidateRule} {source : String}
    {references : List Reference}
    (h : format.references? rule source content = some references) : Discrete references := by
  cases format with
  | json => exact Json.discrete h
  | markdown =>
      obtain rfl := Option.some.inj h
      exact discrete_perLine (Markdown.given rule source) content
  | plain =>
      obtain rfl := Option.some.inj h
      exact discrete_perLine (Plain.given rule source) content
  | yaml => exact Yaml.discrete h

/-- All that is found in a file, in the order in which it is found. A broken file is read as plain text. -/
def gathered (rule : CandidateRule) (source content : String) : List Reference :=
  ((Format.ofPath source).references? rule source content.toList).getD
    (perLine (Plain.lineReferences rule source) content.toList)

theorem fallback_find (rule : CandidateRule) (source content : String) :
    (find rule source content).fallback =
      ((Format.ofPath source).references? rule source content.toList).isNone := by
  rw [find]
  dsimp only
  split
  · rename_i references h
    rw [h]
    rfl
  · rename_i h
    rw [h]
    rfl

theorem find_eq (rule : CandidateRule) (source content : String) :
    (find rule source content).references =
      distinct ((gathered rule source content).mergeSort startsBefore) := by
  rw [find, gathered]
  dsimp only
  split
  · rename_i references h
    rw [h, Option.getD_some]
  · rename_i h
    rw [h, Option.getD_none]

theorem discrete_gathered (rule : CandidateRule) (source content : String) :
    Discrete (gathered rule source content) := by
  rw [gathered]
  cases h : (Format.ofPath source).references? rule source content.toList with
  | none => exact discrete_perLine (Plain.given rule source) content.toList
  | some references => exact Format.discrete h

/-- **Sorting is all that is done to what is found**: no reference is left out. -/
theorem find_eq_mergeSort (rule : CandidateRule) (source content : String) :
    (find rule source content).references =
      (gathered rule source content).mergeSort startsBefore := by
  rw [find_eq]
  exact ((discrete_gathered rule source content).perm (List.mergeSort_perm _ _).symm).distinct_eq

theorem mem_find_iff {rule : CandidateRule} {source content : String} {r : Reference} :
    r ∈ (find rule source content).references ↔ r ∈ gathered rule source content := by
  rw [find_eq_mergeSort]
  exact (List.mergeSort_perm _ _).mem_iff

end Links

/-! ## The bytes of a reference -/

open Links

/-- On its line, without the ending, a reference takes the bytes of its link. -/
theorem slice_of_standsIn {content : List Char} {r : Reference} (h : r.StandsIn content) :
    ∃ index line, (keepEnds content)[index]? = some line ∧ r.line = index + 1 ∧
      slice? (splitEnding line).1 r.columnStart r.columnEnd = some r.target.toList := by
  obtain ⟨index, line, hline, hnumber, front, back, hon, hstart⟩ := h.on
  refine ⟨index, line, hline, hnumber, ?_⟩
  have hlast : ∀ c ∈ (front ++ r.target.toList).getLast?, InLine c := by
    intro c hc
    have hne : r.target.toList ≠ [] := h.some.1
    rw [List.getLast?_append_of_ne_nil _ hne] at hc
    exact h.some.2 c (List.mem_of_getLast? hc)
  obtain ⟨behind, hbody, -⟩ := exists_splitEnding hlast back
  have hon : line = front ++ r.target.toList ++ back := by
    rw [List.append_assoc]
    exact hon
  have hstart : r.columnStart = width front := hstart
  have hends : r.columnEnd = r.columnStart + width r.target.toList := h.ends
  rw [hon, hbody, List.append_assoc, hends, hstart]
  exact slice?_append front r.target.toList behind

/-- An edit that is planned for a reference when something has moved: what it means, or its file. -/
def Edit.IsPlannedFor (e : Edit) (r : Reference) : Prop :=
  (∃ m, Edit.inbound? r m = some e) ∨
    ∃ isThere source target, Edit.outbound? isThere r source target = some e

theorem Edit.IsPlannedFor.isFor {e : Edit} {r : Reference} (h : e.IsPlannedFor r) : e.IsFor r := by
  rcases h with ⟨m, hin⟩ | ⟨isThere, source, target, hout⟩
  · exact (Edit.of_inbound? hin).1
  · exact Edit.isFor_of_outbound? hout

/--
**Every reference of a file spans exactly its link.**

This is so in every format, and when a broken file is read as plain text. The references come
in the order of their places, with nothing left out of what was found. Each says its file, has
a link, and takes on its line the bytes of the link, and no byte is in two of them. Edits that
are planned from references of the file are never found stale, and the text that comes of them
has, in place of the old links, the new ones, and no other character changed.
-/
theorem Links.find_spans (rule : CandidateRule) (source content : String) :
    (find rule source content).references =
        (gathered rule source content).mergeSort startsBefore ∧
      (find rule source content).references.Pairwise Before ∧
      (∀ r ∈ (find rule source content).references,
        r.source = source ∧ r.target ≠ "" ∧
          r.columnEnd = r.columnStart + r.target.utf8ByteSize ∧
          ∃ index line, (keepEnds content.toList)[index]? = some line ∧ r.line = index + 1 ∧
            slice? (splitEnding line).1 r.columnStart r.columnEnd = some r.target.toList) ∧
      ((find rule source content).references.Pairwise fun a b =>
        a.line = b.line → a.columnEnd ≤ b.columnStart) ∧
      ∀ edits : List Edit,
        (∀ e ∈ edits, ∃ r ∈ (find rule source content).references, e.IsPlannedFor r) →
          (Edit.splice content edits).stale = [] ∧
            Relinked (Edit.linkOf edits) (find rule source content).references content
              (Edit.splice content edits).text := by
  have hlaid := laid_find rule source content
  refine ⟨find_eq_mergeSort rule source content, pairwise_find rule source content, ?_, ?_, ?_⟩
  · intro r hr
    have hstands := hlaid.stands r hr
    refine ⟨source_of_mem_find hr, ?_, ?_, slice_of_standsIn hstands⟩
    · intro hempty
      refine hstands.some.1 ?_
      show r.target.toList = []
      rw [hempty]
      rfl
    · rw [utf8ByteSize_eq_width]
      exact hstands.ends
  · refine hlaid.apart.imp fun hab hline => ?_
    omega
  · intro edits hplanned
    obtain ⟨hrelinked, hstale, -⟩ := Edit.splice_relinked hlaid fun e he => by
      obtain ⟨r, hr, her⟩ := hplanned e he
      exact ⟨r, hr, her.isFor⟩
    exact ⟨hstale, hrelinked⟩

/-- One path twice, once in quotes. -/
def logoText : String := "a: img/logo.png\nb: \"img/logo.png\"\n"

/-- The link to the logo behind its quote. -/
def quotedLogo : Reference := ⟨none, 16, 4, .yamlScalar, 2, "site.yml", "img/logo.png"⟩

/-- What becomes of it when the logo has another name. -/
def quotedLogoEdit : Edit := ⟨16, 4, 2, "img/logo.png", "img/mark.png"⟩

/-- A second string of one text is found behind the first, and an edit of it goes there. -/
theorem find_spans_quotedLogo :
    (quotedLogo ∈ (Links.find ⟨[]⟩ "site.yml" logoText).references ∧
      quotedLogoEdit.IsPlannedFor quotedLogo) ∧
    quotedLogo.columnEnd = quotedLogo.columnStart + quotedLogo.target.utf8ByteSize ∧
      (Edit.splice logoText [quotedLogoEdit]).stale = [] := by
  have hmem : quotedLogo ∈ (Links.find ⟨[]⟩ "site.yml" logoText).references :=
    mem_find_iff.mpr (by decide +kernel)
  have hplanned : quotedLogoEdit.IsPlannedFor quotedLogo :=
    .inl ⟨⟨"site.yml", "img/logo.png", "img/mark.png"⟩, by decide +kernel⟩
  obtain ⟨-, -, hspans, -, hedits⟩ := Links.find_spans ⟨[]⟩ "site.yml" logoText
  obtain ⟨-, -, hends, -⟩ := hspans quotedLogo hmem
  refine ⟨⟨hmem, hplanned⟩, hends, (hedits [quotedLogoEdit] fun e he => ?_).1⟩
  rw [List.mem_singleton.mp he]
  exact ⟨quotedLogo, hmem, hplanned⟩

end LinkKeeper
