import LinkKeeper.Proofs.Spans

/-!
# Where the strings of YAML are looked up

The values of a document do not say where they were written, so each string is looked up
in the text again, as a word that belongs to no longer one. What comes of it is said here
without the search: of the strings of one text, in the order of the values, the first is
given the first place where that text stands as a word, the second the second, and those
for which no place is left are given none.

That place need not be the string's own. A word in a comment, in a key or in the name of
an anchor is a word of the text like any other, and it uses up the place of a string.
-/

namespace LinkKeeper.Links.Yaml

open Text

variable {content : List Char}

/-! ## The appearances of a word -/

/-- The offsets at which a word stands and is no part of a longer one, from some place on. -/
def appearances (word : List Char) (offset : Nat) (before : Option Char) : List Char → List Nat
  | [] => []
  | c :: cs =>
      let later := appearances word (offset + c.utf8Size) (some c) cs
      if word.isPrefixOf (c :: cs) && standsAlone word before (c :: cs) then offset :: later
      else later

/-- The appearances of a word from a place on. -/
def Spot.onward (word : List Char) (s : Spot) : List Nat :=
  appearances word s.offset s.before s.rest

/-- Whether a word stands somewhere is seen from the character before it and from what follows. -/
theorem word_iff {word : List Char} {s : Spot} (hin : s.In content) (hne : word ≠ [])
    (hchars : ∀ c ∈ word, isPathChar c = true) :
    Word content s.offset word ↔
      (word.isPrefixOf s.rest && standsAlone word s.before s.rest) = true := by
  rw [Bool.and_eq_true, List.isPrefixOf_iff_prefix]
  refine ⟨fun hword => ?_, fun h => hin.word hne hchars h.1 h.2⟩
  obtain ⟨front, hcontent, hoffset, hbefore⟩ := hin
  obtain ⟨front', back, hcontent', hoffset', halone⟩ := hword.stands
  obtain ⟨rfl, hrest⟩ := append_inj_of_width (hcontent'.symm.trans hcontent) (by omega)
  rw [← hrest, hbefore, standsAlone_iff]
  exact ⟨⟨back, rfl⟩, halone⟩

/-- A word behind a place is behind the character that is there. -/
theorem Spot.In.next_le {word : List Char} {offset n : Nat} {before : Option Char} {c : Char}
    {cs : List Char} (hin : Spot.In content ⟨offset, before, c :: cs⟩)
    (hword : Word content n word) (hlt : offset < n) : offset + c.utf8Size ≤ n := by
  obtain ⟨front, hcontent, hoffset, -⟩ := hin
  obtain ⟨front', back, hcontent', rfl, -⟩ := hword.stands
  dsimp only at hcontent hoffset
  obtain ⟨mid, rfl⟩ := prefix_of_width_le ⟨_, hcontent.symm⟩ ⟨_, hcontent'.symm⟩
    (show width front ≤ width front' by omega)
  rw [width_append, ← hoffset] at hlt ⊢
  rw [List.append_assoc] at hcontent'
  have hrest := List.append_cancel_left (hcontent.symm.trans hcontent')
  cases mid with
  | nil =>
      rw [width_nil] at hlt
      omega
  | cons d mid =>
      obtain ⟨rfl, -⟩ := List.cons.inj hrest
      rw [width_cons]
      omega

/-- The end of a text has no word behind it. -/
theorem Spot.In.no_word {word : List Char} {offset n : Nat} {before : Option Char}
    (hin : Spot.In content ⟨offset, before, []⟩) (hword : Word content n word) : n < offset := by
  obtain ⟨front, hcontent, hoffset, -⟩ := hin
  obtain ⟨front', back, hcontent', rfl, -⟩ := hword.stands
  have hwidth := congrArg width (hcontent'.symm.trans hcontent)
  have hpos := width_pos_of_ne_nil hword.some
  simp only [width_append, width_nil] at hwidth
  dsimp only at hoffset
  omega

/-- **The appearances of a word are all the places where it is a word of the text.** -/
theorem mem_appearances {word : List Char} {offset n : Nat} {before : Option Char}
    {cs : List Char} (hin : Spot.In content ⟨offset, before, cs⟩) (hne : word ≠ [])
    (hchars : ∀ c ∈ word, isPathChar c = true) :
    n ∈ appearances word offset before cs ↔ offset ≤ n ∧ Word content n word := by
  induction cs generalizing offset before with
  | nil =>
      simp only [appearances, List.not_mem_nil, false_iff, not_and]
      intro hle hword
      have := hin.no_word hword
      omega
  | cons c cs ih =>
      have hnext : Spot.In content ⟨offset + c.utf8Size, some c, cs⟩ := hin.skip 1
      have hlater : offset + c.utf8Size ≤ n ∧ Word content n word ↔
          offset < n ∧ Word content n word := by
        have hsize := Char.utf8Size_pos c
        refine and_congr_left fun hword => ⟨fun _ => by omega, hin.next_le hword⟩
      have hhere := word_iff hin hne hchars
      rw [appearances]
      split
      · rename_i hstands
        rw [List.mem_cons, ih hnext, hlater, Nat.le_iff_lt_or_eq]
        have hword := hhere.mpr hstands
        constructor
        · rintro (rfl | ⟨hlt, h⟩)
          · exact ⟨.inr rfl, hword⟩
          · exact ⟨.inl hlt, h⟩
        · rintro ⟨hlt | rfl, h⟩
          · exact .inr ⟨hlt, h⟩
          · exact .inl rfl
      · rename_i hstands
        rw [ih hnext, hlater, Nat.le_iff_lt_or_eq]
        constructor
        · exact fun h => ⟨.inl h.1, h.2⟩
        · rintro ⟨hlt | rfl, h⟩
          · exact ⟨hlt, h⟩
          · exact absurd (hhere.mp h) hstands

theorem le_of_mem_appearances {word : List Char} {offset n : Nat} {before : Option Char}
    {cs : List Char} (h : n ∈ appearances word offset before cs) : offset ≤ n := by
  induction cs generalizing offset before with
  | nil => simp [appearances] at h
  | cons c cs ih =>
      have hlater : n ∈ appearances word (offset + c.utf8Size) (some c) cs → offset ≤ n :=
        fun hmem => Nat.le_trans (Nat.le_add_right _ _) (ih hmem)
      rw [appearances] at h
      split at h
      · rcases List.mem_cons.mp h with rfl | h
        · exact Nat.le_refl _
        · exact hlater h
      · exact hlater h

theorem pairwise_appearances (word : List Char) (offset : Nat) (before : Option Char)
    (cs : List Char) : (appearances word offset before cs).Pairwise (· < ·) := by
  induction cs generalizing offset before with
  | nil => exact .nil
  | cons c cs ih =>
      have hsize := Char.utf8Size_pos c
      rw [appearances]
      split
      · refine .cons (fun n hn => ?_) (ih _ _)
        have := le_of_mem_appearances hn
        omega
      · exact ih _ _

/-! ## The search -/

/-- No word begins behind a path character. -/
theorem onward_skip (word back : List Char) {run : List Char} (offset : Nat) {c : Char}
    (hc : isPathChar c = true) (hrun : ∀ d ∈ run, isPathChar d = true) :
    ((Spot.mk offset (some c) (run ++ back)).skip run.length).onward word =
      appearances word offset (some c) (run ++ back) := by
  induction run generalizing offset c with
  | nil => rfl
  | cons d run ih =>
      have hinside : standsAlone word (some c) (d :: (run ++ back)) = false := by
        simp [standsAlone, hc]
      rw [List.cons_append, appearances, hinside, Bool.and_false]
      exact ih _ (hrun d List.mem_cons_self) fun e he => hrun e (List.mem_cons_of_mem _ he)

/-- A search finds the first appearance, and from behind the word the others are ahead. -/
theorem appearances_eq_findWord {word : List Char} {offset : Nat} {before : Option Char}
    {cs : List Char} (hne : word ≠ []) (hchars : ∀ c ∈ word, isPathChar c = true) :
    appearances word offset before cs =
      match findWord word offset before cs with
      | some s => s.offset :: (s.skip word.length).onward word
      | none => [] := by
  induction cs generalizing offset before with
  | nil => rfl
  | cons c cs ih =>
      rw [appearances, findWord]
      split
      · rename_i hfound
        rw [Bool.and_eq_true, List.isPrefixOf_iff_prefix] at hfound
        obtain ⟨back, hback⟩ := hfound.1
        obtain ⟨d, run, rfl⟩ := List.exists_cons_of_ne_nil hne
        obtain ⟨rfl, rfl⟩ := List.cons.inj hback
        have hskip := onward_skip (d :: run) back (offset + d.utf8Size)
          (hchars d List.mem_cons_self) fun e he => hchars e (List.mem_cons_of_mem _ he)
        exact congrArg (offset :: ·) hskip.symm
      · exact ih

/-- The appearances of a word behind where the last word of its text was left. -/
def ahead (content : List Char) (left : List (List Char × Spot)) (word : List Char) : List Nat :=
  ((left.lookup word).getD ⟨0, none, content⟩).onward word

/--
What placing a word does: it takes the first appearance that is ahead, if there is one, and
leaves the other words where they are.
-/
theorem locate_cases {left : List (List Char × Spot)} {word : List Char} (hne : word ≠ [])
    (hchars : ∀ c ∈ word, isPathChar c = true) :
    (locate content left word = none ∧ ahead content left word = []) ∨
      ∃ offset left', locate content left word = some (offset, left') ∧
        ahead content left word = offset :: ahead content left' word ∧
        ∀ other, other ≠ word → ahead content left' other = ahead content left other := by
  have hahead : ahead content left word = _ := appearances_eq_findWord hne hchars
  unfold locate
  dsimp only
  cases hfind : findWord word ((left.lookup word).getD ⟨0, none, content⟩).offset
      ((left.lookup word).getD ⟨0, none, content⟩).before
      ((left.lookup word).getD ⟨0, none, content⟩).rest with
  | none => exact .inl ⟨rfl, by rw [hahead, hfind]⟩
  | some s =>
      refine .inr ⟨s.offset, _, rfl, ?_, fun other hother => ?_⟩
      · rw [hahead, hfind, ahead, List.lookup_cons_self]
        rfl
      · rw [ahead, ahead, List.lookup_cons, beq_false_of_ne hother, lookup_filter_ne hother]

/--
**The words of one text take its appearances one after the other**, by induction over the
words. What is ahead for a text changes only when a word of that text is placed.
-/
theorem filter_locateAll {words : List (List Char)} {left : List (List Char × Spot)}
    (hwords : ∀ word ∈ words, word ≠ [] ∧ ∀ c ∈ word, isPathChar c = true) (word : List Char) :
    (locateAll content left words).filter (·.text == word) =
      ((ahead content left word).take (words.count word)).map fun offset => ⟨offset, word⟩ := by
  induction words generalizing left with
  | nil => simp [locateAll]
  | cons first words ih =>
      obtain ⟨hne, hchars⟩ := hwords first List.mem_cons_self
      have hrest : ∀ word ∈ words, word ≠ [] ∧ ∀ c ∈ word, isPathChar c = true :=
        fun other ho => hwords other (List.mem_cons_of_mem _ ho)
      rw [locateAll]
      rcases @locate_cases content left first hne hchars with
        ⟨hlocate, hahead⟩ | ⟨offset, left', hlocate, hahead, hothers⟩
      · rw [hlocate]
        dsimp only
        rw [ih hrest]
        by_cases hsame : first = word
        · rw [← hsame, hahead, List.take_nil, List.take_nil]
        · rw [List.count_cons_of_ne hsame]
      · rw [hlocate]
        dsimp only
        by_cases hsame : first = word
        · subst hsame
          rw [List.filter_cons_of_pos (by simp), ih hrest, hahead, List.count_cons_self,
            List.take_succ_cons, List.map_cons]
        · rw [List.filter_cons_of_neg (by simpa using hsame), ih hrest,
            hothers word (Ne.symm hsame), List.count_cons_of_ne hsame]

theorem text_mem_of_locateAll {words : List (List Char)} {left : List (List Char × Spot)}
    {p : Piece} (hp : p ∈ locateAll content left words) : p.text ∈ words := by
  induction words generalizing left with
  | nil => simp [locateAll] at hp
  | cons word words ih =>
      rw [locateAll] at hp
      split at hp
      · rcases List.mem_cons.mp hp with rfl | hp
        · exact List.mem_cons_self
        · exact List.mem_cons_of_mem _ (ih hp)
      · exact List.mem_cons_of_mem _ (ih hp)

/-! ## The references -/

/--
**The references of YAML stand at the first appearances of their strings.**

A text whose documents have values has its references. Each is a string of the values that
passes for a path, takes in its line the bytes of that string and no more, and shares none of
them with another reference. The references to one string are, in the order in which they are
found, the first appearances of it in the text as a word of its own, one for each time that
the string is among the values as long as there are any left.
-/
theorem references_at_appearances {rule : CandidateRule} {source : String}
    {values : List Yaml.Value} (h : Yaml.values? content = some values) :
    ∃ references, references? rule source content = some references ∧
      (∀ r ∈ references, r.kind = .yamlScalar ∧ rule.accepts r.target.toList = true ∧
        r.target.toList ∈ values.flatMap Yaml.Value.strings) ∧
      Scattered content references ∧ Discrete references ∧
      ∀ word, rule.accepts word = true →
        (∀ offset, offset ∈ appearances word 0 none content ↔ Word content offset word) ∧
        (appearances word 0 none content).Pairwise (· < ·) ∧
        references.filter (·.target.toList == word) =
          ((appearances word 0 none content).take ((values.flatMap Yaml.Value.strings).count word)).map
            fun offset => referToWord content source .yamlScalar ⟨offset, word⟩ := by
  have hreferences : references? rule source content =
      some ((locateAll content [] ((values.flatMap Yaml.Value.strings).filter rule.accepts)).map
        (referToWord content source .yamlScalar)) := by
    rw [references?, h]
    rfl
  have hwords : ∀ word ∈ (values.flatMap Yaml.Value.strings).filter rule.accepts,
      word ≠ [] ∧ ∀ c ∈ word, isPathChar c = true := fun word hw =>
    have haccepts := (List.mem_filter.mp hw).2
    ⟨(some_of_accepts haccepts).1, isPathChar_of_accepts haccepts⟩
  refine ⟨_, hreferences, ?_, scattered hreferences, discrete hreferences, ?_⟩
  · intro r hr
    obtain ⟨p, hp, rfl⟩ := List.mem_map.mp hr
    obtain ⟨hmem, haccepts⟩ := List.mem_filter.mp (text_mem_of_locateAll hp)
    have htarget : (referToWord content source .yamlScalar p).target.toList = p.text :=
      String.toList_ofList
    rw [htarget]
    exact ⟨rfl, haccepts, hmem⟩
  · intro word haccepts
    have hne := (some_of_accepts haccepts).1
    have hchars := isPathChar_of_accepts haccepts
    refine ⟨fun offset => ?_, pairwise_appearances word 0 none content, ?_⟩
    · rw [mem_appearances ⟨[], rfl, rfl, rfl⟩ hne hchars]
      exact and_iff_right (Nat.zero_le _)
    · have hfilter := @filter_locateAll content _ [] hwords word
      have htext : ((·.target.toList == word) ∘ referToWord content source .yamlScalar) =
          (·.text == word) := funext fun p => by
        rw [Function.comp_apply, referToWord, referTo, String.toList_ofList]
      rw [List.count_filter haccepts] at hfilter
      rw [List.filter_map, htext, hfilter, List.map_map]
      rfl

/-- The second of two strings of one text is at its second appearance. -/
theorem references_at_appearances_logo :
    (Yaml.values? logoText.toList).isSome = true ∧
      ∃ references, references? ⟨[]⟩ "site.yml" logoText.toList = some references ∧
        references.filter (·.target.toList == "img/logo.png".toList) =
          [⟨none, 15, 3, .yamlScalar, 1, "site.yml", "img/logo.png"⟩, quotedLogo] := by
  have hsome : (Yaml.values? logoText.toList).isSome = true := by decide +kernel
  obtain ⟨values, hvalues⟩ := Option.isSome_iff_exists.mp hsome
  obtain ⟨references, hreferences, -, -, -, hwords⟩ :=
    @references_at_appearances _ ⟨[]⟩ "site.yml" _ hvalues
  obtain ⟨-, -, hfilter⟩ := hwords "img/logo.png".toList (by decide +kernel)
  have hcount : (values.flatMap Yaml.Value.strings).count "img/logo.png".toList = 2 := by
    have hstrings : (Yaml.values? logoText.toList).map
        (fun values => (values.flatMap Yaml.Value.strings).count "img/logo.png".toList) =
          some 2 := by decide +kernel
    rw [hvalues] at hstrings
    exact Option.some.inj hstrings
  rw [hcount] at hfilter
  refine ⟨hsome, references, hreferences, hfilter.trans ?_⟩
  decide +kernel

/-- A path that a comment names and that is a string below it. -/
def commentedText : String := "# a.md\nx: a.md\n"

/-- What is revised when that path gets another name. -/
def commentedEdit : Edit := ⟨6, 2, 1, "a.md", "b.md"⟩

/-- **A word of a comment is taken for the string**: the comment is revised, and the string is not. -/
theorem comment_takes_reference :
    (references? ⟨["md"]⟩ "site.yml" commentedText.toList).map
        (·.map fun r => (r.line, r.columnStart, r.columnEnd, r.target)) =
      some [(1, 2, 6, "a.md")] ∧
    (Edit.splice commentedText [commentedEdit]).text = "# b.md\nx: a.md\n" ∧
    (Yaml.values? "# b.md\nx: a.md\n".toList).map (·.flatMap Yaml.Value.strings) =
      some ["a.md".toList] := by
  refine ⟨?_, ?_, ?_⟩
  · decide +kernel
  · decide +kernel
  · decide +kernel

end LinkKeeper.Links.Yaml
