import LinkKeeper.Proofs.Found
import LinkKeeper.Proofs.Literals
import LinkKeeper.Proofs.Rows
import LinkKeeper.Proofs.Walking
import Mathlib.Data.List.Pairwise

/-!
# Every reference stands where it says

A reference is found once and revised much later, and all that is known of it then is its
line and its columns. So for every format it is shown here that its bytes are there and
are its own: on its line, from column to column, stands its link and nothing else, and no
other reference of the file shares a byte with it.

In Markdown and in plain text this is a matter of each line by itself. In structured text
the links are words of path characters that belong to no longer word, and two such words
of one text are the same or apart.
-/

namespace LinkKeeper

open Text

/-- A reference of a text stands where it says. -/
structure Reference.StandsIn (content : List Char) (r : Reference) : Prop where
  on : ∃ index line, (keepEnds content)[index]? = some line ∧ r.line = index + 1 ∧ r.piece.On line
  some : r.piece.text ≠ [] ∧ ∀ c ∈ r.piece.text, Links.InLine c
  ends : r.columnEnd = r.piece.stop

namespace Links

/-- References of a text, in any order, of which no two share a byte unless they share their place. -/
structure Scattered (content : List Char) (references : List Reference) : Prop where
  stands : ∀ r ∈ references, r.StandsIn content
  apart : ∀ a ∈ references, ∀ b ∈ references, a.line = b.line →
    a.columnStart = b.columnStart ∨ a.piece.span.Apart b.piece.span

variable {content : List Char}

/-! ## Line by line -/

theorem mem_numbered {number : Nat} {body : List Char} (h : (number, body) ∈ numbered content) :
    ∃ index line, (keepEnds content)[index]? = some line ∧ number = index + 1 ∧
      body = (splitEnding line).1 := by
  obtain ⟨⟨text, index⟩, hmem, hpair⟩ := List.mem_map.mp h
  obtain ⟨rfl, rfl⟩ := Prod.mk.inj hpair
  have hbody := List.mk_mem_zipIdx_iff_getElem?.mp hmem
  rw [bodies, List.getElem?_map] at hbody
  obtain ⟨line, hline, hsplit⟩ := Option.map_eq_some_iff.mp hbody
  exact ⟨index, line, hline, rfl, hsplit.symm⟩

theorem mem_numbered_of_line {index : Nat} {line : List Char}
    (h : (keepEnds content)[index]? = some line) :
    (index + 1, (splitEnding line).1) ∈ numbered content := by
  refine List.mem_map.mpr ⟨((splitEnding line).1, index), List.mk_mem_zipIdx_iff_getElem?.mpr ?_, rfl⟩
  rw [bodies, List.getElem?_map, h]
  rfl

/-- What is found line by line is found on some line. -/
theorem mem_perLine {find : Nat → List Char → List Reference}
    (h : ∀ number line, Given number line (find number line)) {r : Reference}
    (hr : r ∈ perLine find content) :
    ∃ index line, (keepEnds content)[index]? = some line ∧ r.line = index + 1 ∧
      r ∈ find (index + 1) (splitEnding line).1 := by
  rw [perLine, List.mem_flatMap] at hr
  obtain ⟨⟨number, body⟩, hnumbered, hr⟩ := hr
  obtain ⟨index, line, hline, rfl, rfl⟩ := mem_numbered hnumbered
  exact ⟨index, line, hline, (h _ _).line r hr, hr⟩

/-- What is found line by line is scattered when what is found on each line is. -/
theorem scattered_perLine {find : Nat → List Char → List Reference}
    (h : ∀ number line, Given number line (find number line)) (content : List Char) :
    Scattered content (perLine find content) := by
  refine ⟨?_, ?_⟩
  · intro r hr
    obtain ⟨index, line, hline, hnumber, hr⟩ := mem_perLine h hr
    have hgiven := h (index + 1) (splitEnding line).1
    have hpiece : r.piece ∈ (find (index + 1) (splitEnding line).1).map Reference.piece :=
      List.mem_map_of_mem hr
    refine ⟨⟨index, line, hline, hnumber, ?_⟩, hgiven.placed.some _ hpiece, hgiven.ends r hr⟩
    have hon := (hgiven.placed.on _ hpiece).append (splitEnding line).2
    rw [splitEnding_append] at hon
    exact hon
  · intro a ha b hb hab
    obtain ⟨index, line, hline, hnumber, ha⟩ := mem_perLine h ha
    obtain ⟨other, line', hline', hnumber', hb⟩ := mem_perLine h hb
    -- references of one line come from one search
    obtain rfl : index = other := by omega
    rw [hline] at hline'
    obtain rfl := Option.some.inj hline'
    by_cases he : a = b
    · exact .inl (by rw [he])
    · have hapart := List.pairwise_map.mp (h (index + 1) (splitEnding line).1).placed.apart
      have : Std.Symm fun a b : Reference => a.piece.span.Apart b.piece.span :=
        ⟨fun _ _ h => h.symm⟩
      exact .inr (hapart.forall ha hb he)

/-! ## Words -/

/-- At an offset of a text stands a word of path characters that is no part of a longer one. -/
structure Word (content : List Char) (offset : Nat) (word : List Char) : Prop where
  stands : ∃ front back, content = front ++ (word ++ back) ∧ offset = width front ∧
    (∀ c ∈ front.getLast?, isPathChar c = false) ∧ ∀ c ∈ back.head?, isPathChar c = false
  some : word ≠ []
  chars : ∀ c ∈ word, isPathChar c = true

theorem Word.apart_of_le {as bs : List Char} {a b : Nat} (ha : Word content a as)
    (hb : Word content b bs) (hab : a < b) : a + width as ≤ b := by
  obtain ⟨front, back, hcontent, rfl, -, -⟩ := ha.stands
  obtain ⟨front', back', hcontent', rfl, hbefore, -⟩ := hb.stands
  have hsame : front ++ (as ++ back) = front' ++ (bs ++ back') := hcontent.symm.trans hcontent'
  rcases List.append_eq_append_iff.mp hsame with ⟨mid, rfl, hrest⟩ | ⟨mid, rfl, -⟩
  · rcases List.append_eq_append_iff.mp hrest with ⟨more, rfl, -⟩ | ⟨more, has, -⟩
    · simp only [width_append]
      omega
    · -- the second word would begin inside the first, behind a path character
      have hne : mid ≠ [] := by
        rintro rfl
        simp at hab
      have hlast := hbefore (mid.getLast hne) (by
        rw [List.getLast?_append_of_ne_nil _ hne, List.getLast?_eq_some_getLast hne]
        rfl)
      rw [ha.chars _ (by rw [has]; exact List.mem_append_left _ (List.getLast_mem hne))] at hlast
      exact absurd hlast (by simp)
  · rw [width_append] at hab
    omega

/-- Two words of a text are at one place or apart. -/
theorem Word.apart {as bs : List Char} {a b : Nat} (ha : Word content a as)
    (hb : Word content b bs) : a = b ∨ a + width as ≤ b ∨ b + width bs ≤ a := by
  rcases Nat.lt_trichotomy a b with hab | rfl | hab
  · exact .inr (.inl (ha.apart_of_le hb hab))
  · exact .inl rfl
  · exact .inr (.inr (hb.apart_of_le ha hab))

/-- The reference to a word of a text. -/
def referToWord (content : List Char) (source : String) (kind : ReferenceKind) (p : Piece) :
    Reference :=
  referTo source (place (lineStarts content) p.start).1 kind
    ⟨(place (lineStarts content) p.start).2, p.text⟩

/--
A piece of a text that ends no line stands on the line and at the column of its offset, and what
is before it are the lines above and the bytes up to that column.
-/
theorem exists_line_of_on {p : Piece} (h : p.On content) (hne : p.text ≠ [])
    (hinline : ∀ c ∈ p.text, InLine c) :
    ∃ index line, (keepEnds content)[index]? = some line ∧
      (place (lineStarts content) p.start).1 = index + 1 ∧
      (⟨(place (lineStarts content) p.start).2, p.text⟩ : Piece).On line ∧
      p.start = width ((keepEnds content).take index).flatten +
        (place (lineStarts content) p.start).2 := by
  obtain ⟨front, back, hcontent, hstart⟩ := h
  obtain ⟨above, start, hfront, hnot, hlines, hplace⟩ := place_eq front (p.text ++ back)
  rw [← hcontent, ← hstart] at hplace
  rw [← hcontent] at hlines
  -- the line of the piece goes on from what stands before it
  have hfeed : '\n' ∉ start ++ p.text := by
    rw [List.mem_append, not_or]
    exact ⟨hnot, fun hmem => (hinline _ hmem).1 rfl⟩
  have hline : ∃ more lines, keepEnds (start ++ (p.text ++ back)) =
      (start ++ (p.text ++ more)) :: lines := by
    rw [← List.append_assoc, keepEnds_append_of_not_mem hfeed]
    cases keepEnds back with
    | nil =>
        refine ⟨[], [], ?_⟩
        simp [lead, hne]
    | cons line lines => exact ⟨line, lines, by simp [lead]⟩
  obtain ⟨more, lines, hline⟩ := hline
  rw [hplace]
  refine ⟨(keepEnds above).length, start ++ (p.text ++ more), ?_, rfl, ⟨start, more, rfl, rfl⟩, ?_⟩
  · rw [hlines, hline, List.getElem?_append_right (Nat.le_refl _), Nat.sub_self]
    rfl
  · rw [hlines, List.take_left', flatten_keepEnds, hstart, hfront, width_append]
    rfl

/-- References to words of a text. -/
theorem scattered_words {source : String} {kind : ReferenceKind} {pieces : List Piece}
    (h : ∀ p ∈ pieces, Word content p.start p.text) :
    Scattered content (pieces.map (referToWord content source kind)) := by
  refine ⟨?_, ?_⟩
  · intro r hr
    obtain ⟨p, hp, rfl⟩ := List.mem_map.mp hr
    obtain ⟨⟨front, back, hcontent, hstart, -, -⟩, hne, hchars⟩ := h p hp
    have hinline : ∀ c ∈ p.text, InLine c := fun c hc => inLine_of_isPathChar (hchars c hc)
    obtain ⟨index, line, hline, hnumber, hon, -⟩ :=
      exists_line_of_on ⟨front, back, hcontent, hstart⟩ hne hinline
    rw [referToWord]
    refine ⟨⟨index, line, hline, hnumber, ?_⟩, ?_, ?_⟩
    · rw [piece_referTo]
      exact hon
    · rw [piece_referTo]
      exact ⟨hne, hinline⟩
    · rw [piece_referTo]
      rfl
  · intro a ha b hb hab
    obtain ⟨p, hp, rfl⟩ := List.mem_map.mp ha
    obtain ⟨q, hq, rfl⟩ := List.mem_map.mp hb
    obtain ⟨start, hpstart, hqstart⟩ := exists_line_offset hab
    rw [referToWord, referToWord, piece_referTo, piece_referTo]
    show (place (lineStarts content) p.start).2 = (place (lineStarts content) q.start).2 ∨
      ((place (lineStarts content) p.start).2 + width p.text ≤
        (place (lineStarts content) q.start).2 ∨
      (place (lineStarts content) q.start).2 + width q.text ≤
        (place (lineStarts content) p.start).2)
    have hapart := (h p hp).apart (h q hq)
    omega

/-! ## Structured text -/

/-- A string that is a link is a word: its quotes are no path characters, and what is between them is. -/
theorem Json.word_of_isLink {rule : CandidateRule} {g : Json.Value.Governed}
    (hl : isLink rule g = true) (hstands : g.2.StandsIn content) :
    Word content g.2.start g.2.raw := by
  obtain ⟨key, l⟩ := g
  obtain ⟨front, back, hcontent, hstart⟩ := hstands
  dsimp only at hcontent hstart ⊢
  have hlink : rule.accepts l.decoded = true ∧ isWritable l = true := by
    cases key with
    | none => exact absurd hl (by simp [isLink])
    | some key =>
        rw [isLink, Bool.and_eq_true, Bool.and_eq_true] at hl
        exact ⟨hl.1.2, hl.2⟩
  obtain ⟨hne, -⟩ := some_of_accepts hlink.1
  have hchars := isPathChar_of_accepts hlink.1
  have hraw : l.raw ≠ [] ∧ ∀ c ∈ l.raw, isPathChar c = true := by
    have hwritable := hlink.2
    rw [isWritable, Bool.or_eq_true, beq_iff_eq, beq_iff_eq] at hwritable
    rcases hwritable with h | h
    · rw [h]
      exact ⟨hne, hchars⟩
    · rw [h, replaceChar]
      refine ⟨?_, ?_⟩
      · rw [ne_eq, List.flatMap_eq_nil_iff]
        intro hall
        obtain ⟨c, cs, hcs⟩ := List.exists_cons_of_ne_nil hne
        have := hall c (by rw [hcs]; exact List.mem_cons_self)
        split at this <;> simp at this
      · intro c hc
        obtain ⟨d, hd, hc⟩ := List.mem_flatMap.mp hc
        split at hc
        · have hbackslash : c = '\\' := by simpa using hc
          rw [hbackslash]
          decide
        · rw [List.mem_singleton.mp hc]
          exact hchars d hd
  refine ⟨⟨front ++ ['"'], '"' :: back, ?_, ?_, ?_, ?_⟩, hraw.1, hraw.2⟩
  · simp [hcontent]
  · have hquote : '"'.utf8Size = 1 := by decide
    simp [hstart, hquote]
  · intro c hc
    have hquote : c = '"' := by simpa using hc.symm
    rw [hquote]
    decide
  · intro c hc
    have hquote : c = '"' := by simpa using hc.symm
    rw [hquote]
    decide

theorem Json.scattered {rule : CandidateRule} {source : String} {references : List Reference}
    (h : Json.references? rule source content = some references) :
    Scattered content references := by
  rw [references?_eq] at h
  obtain ⟨value, hparse, rfl⟩ := Option.map_eq_some_iff.mp h
  -- a reference is made of the piece that a string is
  have hwords : Scattered content ((((value.strings none).filter (isLink rule)).map
      fun g => (⟨g.2.start, g.2.raw⟩ : Piece)).map (referToWord content source .jsonValue)) := by
    refine scattered_words fun p hp => ?_
    obtain ⟨g, hg, rfl⟩ := List.mem_map.mp hp
    obtain ⟨hg, hl⟩ := List.mem_filter.mp hg
    exact Json.word_of_isLink hl (LinkKeeper.Json.standsIn_of_parse? hparse hg)
  rw [List.map_map] at hwords
  exact hwords

namespace Yaml

/-- A place in a text with the character before it. -/
def Spot.In (content : List Char) (s : Spot) : Prop :=
  ∃ front, content = front ++ s.rest ∧ s.offset = width front ∧ s.before = front.getLast?

theorem Spot.In.skip {s : Spot} (h : s.In content) (n : Nat) : (s.skip n).In content := by
  induction n generalizing s with
  | zero => exact h
  | succ n ih =>
      rw [Spot.skip]
      split
      · rename_i c rest heq
        obtain ⟨front, hcontent, hoffset, -⟩ := h
        rw [heq] at hcontent
        refine ih ⟨front ++ [c], by simp [hcontent], ?_, by simp⟩
        simp [hoffset]
      · exact h

theorem findWord_eq_some {word : List Char} {offset : Nat} {before : Option Char} {cs : List Char}
    {s : Spot} (hin : Spot.In content ⟨offset, before, cs⟩)
    (h : findWord word offset before cs = some s) :
    s.In content ∧ word <+: s.rest ∧ standsAlone word s.before s.rest = true := by
  induction cs generalizing offset before with
  | nil => simp [findWord] at h
  | cons c cs ih =>
      rw [findWord] at h
      split at h
      · rename_i hfound
        rw [Bool.and_eq_true, List.isPrefixOf_iff_prefix] at hfound
        obtain rfl := Option.some.inj h
        exact ⟨hin, hfound⟩
      · refine ih ?_ h
        obtain ⟨front, hcontent, hoffset, -⟩ := hin
        have hcontent : content = front ++ c :: cs := hcontent
        have hoffset : offset = width front := hoffset
        refine ⟨front ++ [c], by simp [hcontent], ?_, by simp⟩
        simp [hoffset]

theorem standsAlone_iff {word back : List Char} {before : Option Char} :
    standsAlone word before (word ++ back) = true ↔
      (∀ c ∈ before, isPathChar c = false) ∧ ∀ c ∈ back.head?, isPathChar c = false := by
  simp [standsAlone, Option.any_eq_false]

/-- What stands alone at a place of the text is a word of it. -/
theorem Spot.In.word {s : Spot} {word : List Char} (h : s.In content) (hne : word ≠ [])
    (hchars : ∀ c ∈ word, isPathChar c = true) (hfound : word <+: s.rest)
    (halone : standsAlone word s.before s.rest = true) : Word content s.offset word := by
  obtain ⟨front, hcontent, hoffset, hbefore⟩ := h
  obtain ⟨back, hback⟩ := hfound
  rw [← hback, standsAlone_iff, hbefore] at halone
  exact ⟨⟨front, back, by rw [hcontent, hback], hoffset, halone⟩, hne, hchars⟩

/-- Where a word is looked for: where the one before it was left, or at the front. -/
theorem in_of_lookup {left : List (List Char × Spot)} (hleft : ∀ pair ∈ left, pair.2.In content)
    (word : List Char) : ((left.lookup word).getD ⟨0, none, content⟩).In content := by
  cases hl : left.lookup word with
  | none => exact ⟨[], rfl, rfl, rfl⟩
  | some s =>
      obtain ⟨ahead, behind, rfl, -⟩ := List.lookup_eq_some_iff.mp hl
      exact hleft (word, s) (by simp)

/-- What is placed is a word of the text. -/
theorem word_of_locate {left left' : List (List Char × Spot)} {word : List Char} {offset : Nat}
    (hleft : ∀ pair ∈ left, pair.2.In content) (hne : word ≠ [])
    (hchars : ∀ c ∈ word, isPathChar c = true)
    (h : locate content left word = some (offset, left')) :
    Word content offset word ∧ ∀ pair ∈ left', pair.2.In content := by
  have hstart := in_of_lookup hleft word
  unfold locate at h
  obtain ⟨spot, hfind, hpair⟩ := Option.map_eq_some_iff.mp h
  obtain ⟨rfl, rfl⟩ := Prod.mk.inj hpair
  obtain ⟨hin, hfound, halone⟩ := findWord_eq_some hstart hfind
  refine ⟨hin.word hne hchars hfound halone, ?_⟩
  intro pair hpair
  rcases List.mem_cons.mp hpair with rfl | hpair
  · exact hin.skip _
  · exact hleft pair (List.mem_filter.mp hpair).1

theorem word_of_mem_locateAll {words : List (List Char)} {left : List (List Char × Spot)}
    (hleft : ∀ pair ∈ left, pair.2.In content)
    (hwords : ∀ word ∈ words, word ≠ [] ∧ ∀ c ∈ word, isPathChar c = true) {p : Piece}
    (hp : p ∈ locateAll content left words) : Word content p.start p.text := by
  induction words generalizing left with
  | nil => simp [locateAll] at hp
  | cons word words ih =>
      have hrest : ∀ word ∈ words, word ≠ [] ∧ ∀ c ∈ word, isPathChar c = true :=
        fun other ho => hwords other (List.mem_cons_of_mem _ ho)
      rw [locateAll] at hp
      split at hp
      · rename_i offset left' hlocate
        obtain ⟨hne, hchars⟩ := hwords word List.mem_cons_self
        obtain ⟨hword, hleft'⟩ := word_of_locate hleft hne hchars hlocate
        rcases List.mem_cons.mp hp with rfl | hp
        · exact hword
        · exact ih hleft' hrest hp
      · exact ih hleft hrest hp

theorem scattered {rule : CandidateRule} {source : String} {references : List Reference}
    (h : Yaml.references? rule source content = some references) :
    Scattered content references := by
  obtain ⟨values, -, rfl⟩ := Option.map_eq_some_iff.mp h
  refine scattered_words fun p hp => ?_
  refine word_of_mem_locateAll (by simp) (fun word hw => ?_) hp
  have haccepts := (List.mem_filter.mp hw).2
  exact ⟨(some_of_accepts haccepts).1, isPathChar_of_accepts haccepts⟩

end Yaml

/-! ## All formats -/

theorem Format.scattered {format : Format} {rule : CandidateRule} {source : String}
    {references : List Reference}
    (h : format.references? rule source content = some references) :
    Scattered content references := by
  cases format with
  | json => exact Json.scattered h
  | markdown =>
      obtain rfl := Option.some.inj h
      exact scattered_perLine (Markdown.given rule source) content
  | plain =>
      obtain rfl := Option.some.inj h
      exact scattered_perLine (Plain.given rule source) content
  | yaml => exact Yaml.scattered h

/-- References in the order of their places, each where it says and behind the one before it. -/
structure Laid (content : List Char) (references : List Reference) : Prop where
  stands : ∀ r ∈ references, r.StandsIn content
  apart : references.Pairwise fun a b =>
    a.line < b.line ∨ (a.line = b.line ∧ a.columnEnd ≤ b.columnStart)

/-- **The references of a file stand where they say, and share no byte.** -/
theorem laid_find (rule : CandidateRule) (source content : String) :
    Laid content.toList (find rule source content).references := by
  have htidy : ∀ references, Scattered content.toList references →
      (distinct (references.mergeSort startsBefore)).Pairwise Before →
      Laid content.toList (distinct (references.mergeSort startsBefore)) := by
    intro references hscattered hbefore
    have hmem : ∀ r ∈ distinct (references.mergeSort startsBefore), r ∈ references := fun r hr =>
      (List.mergeSort_perm _ _).mem_iff.mp ((distinct_sublist _).mem hr)
    refine ⟨fun r hr => hscattered.stands r (hmem r hr), hbefore.imp_of_mem ?_⟩
    intro a b ha hb hab
    rcases hab with hab | ⟨hline, hcolumn⟩
    · exact .inl hab
    · refine .inr ⟨hline, ?_⟩
      have hends := (hscattered.stands a (hmem a ha)).ends
      rcases hscattered.apart a (hmem a ha) b (hmem b hb) hline with hsame | hapart | hapart
      · omega
      · rw [hends]
        exact hapart
      · -- the later one cannot end before the earlier one begins
        have hapart : b.columnStart + width b.piece.text ≤ a.columnStart := hapart
        omega
  have hbefore := pairwise_find rule source content
  unfold find at hbefore ⊢
  dsimp only at hbefore ⊢
  split at hbefore
  · rename_i references hformat
    exact htidy references (Format.scattered hformat) hbefore
  · exact htidy _ (scattered_perLine (Plain.given rule source) content.toList) hbefore

end Links

end LinkKeeper
