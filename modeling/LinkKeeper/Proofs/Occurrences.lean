import LinkKeeper.Proofs.Appearances
import LinkKeeper.Proofs.Prose
import Mathlib.Data.List.Forall2
import Mathlib.Data.List.Sort
import Mathlib.Order.Bounds.Basic

/-!
# The occurrences of a string of YAML

A word that belongs to no longer one is a longest run of path characters, so the places that the
reader of YAML gives to the strings of one text are found without its search: they are the first
of the runs that spell the text. There are as many as there are strings of the text, or runs if
these are fewer, and no other string plays a part in it.

The search itself looks for a word from a byte offset on. It answers the least place that is
there, or none when there is none.
-/

namespace LinkKeeper

open Text

namespace Text

/-! ## All runs -/

theorem head?_dropWhile {p : Char → Bool} (cs : List Char) :
    ∀ c ∈ (cs.dropWhile p).head?, p c = false := by
  intro c hc
  have hnot := List.head?_dropWhile_not p cs
  rw [Option.mem_def.mp hc] at hnot
  exact hnot

variable {p : Char → Bool} {before : Option Char} {c : Char}

theorem runOf_cons_of_neg (hc : p c = false) (cs : List Char) : runOf p before (c :: cs) = none := by
  rw [runOf, List.takeWhile_cons_of_neg (by simp [hc])]

theorem runOf_cons_of_pos (hc : p c = true) (cs : List Char) :
    runOf p before (c :: cs) = some (c :: cs.takeWhile p, (cs.takeWhile p).length + 1) := by
  rw [runOf, List.takeWhile_cons_of_pos hc]
  rfl

/-- Behind a stranger a longest run begins with the next character of the class. -/
theorem isRun_takeWhile {front : List Char} (hfront : ∀ c ∈ front.getLast?, p c = false)
    (hc : p c = true) (cs : List Char) :
    (⟨width front, c :: cs.takeWhile p⟩ : Piece).IsRun p (front ++ c :: cs) where
  some := List.cons_ne_nil _ _
  all := by
    intro d hd
    rw [← List.takeWhile_cons_of_pos hc] at hd
    exact List.mem_takeWhile_imp hd
  stands := by
    refine ⟨front, cs.dropWhile p, ?_, rfl, hfront, head?_dropWhile cs⟩
    rw [List.cons_append, List.takeWhile_append_dropWhile]

/--
What is found is a longest run, by induction on what there is still to go through. Either a
stranger has just been passed, and nothing is to be skipped, or what is to be skipped is the rest
of a run.
-/
theorem isRun_of_mem_matchesFrom {front cs : List Char} {skip : Nat}
    (hat : (skip = 0 ∧ ∀ c ∈ front.getLast?, p c = false) ∨ skip = (cs.takeWhile p).length)
    {m : Nat × List Char} (hm : m ∈ matchesFrom (runOf p) (width front) front.getLast? skip cs) :
    (⟨m.1, m.2⟩ : Piece).IsRun p (front ++ cs) := by
  induction cs generalizing front skip with
  | nil => exact absurd hm (by simp [matchesFrom])
  | cons c cs ih =>
      have hlater : ∀ skip, (skip = 0 ∧ p c = false) ∨ skip = (cs.takeWhile p).length →
          m ∈ matchesFrom (runOf p) (width front + c.utf8Size) (some c) skip cs →
          (⟨m.1, m.2⟩ : Piece).IsRun p (front ++ c :: cs) := by
        intro skip hat hm
        have hrun := @ih (front ++ [c]) skip (hat.imp_left fun h => ⟨h.1, by simpa using h.2⟩)
          (by simpa using hm)
        rwa [List.append_assoc] at hrun
      cases hc : p c with
      | false =>
          -- a stranger is in no run, so nothing was to be skipped
          obtain rfl : skip = 0 := by
            rw [List.takeWhile_cons_of_neg (by simp [hc])] at hat
            exact hat.elim And.left id
          rw [matchesFrom_none (runOf_cons_of_neg hc cs)] at hm
          exact hlater 0 (.inl ⟨rfl, hc⟩) hm
      | true =>
          rw [List.takeWhile_cons_of_pos hc, List.length_cons] at hat
          cases skip with
          | succ skip =>
              rw [matchesFrom] at hm
              exact hlater skip (.inr (by omega)) hm
          | zero =>
              have hfront : ∀ c ∈ front.getLast?, p c = false := by
                rcases hat with ⟨-, hfront⟩ | hskip
                · exact hfront
                · omega
              rw [matchesFrom, runOf_cons_of_pos hc] at hm
              rcases List.mem_cons.mp hm with rfl | hm
              · exact isRun_takeWhile hfront hc cs
              · exact hlater _ (.inr rfl) hm

/-- **The longest runs of a line are what they are said to be**, and all of them. -/
theorem mem_runs_iff {line : List Char} {q : Piece} :
    q ∈ runs p line ↔ q.IsRun p line := by
  refine ⟨fun hq => ?_, Piece.IsRun.mem_runs⟩
  obtain ⟨m, hm, rfl⟩ := List.mem_map.mp hq
  exact @isRun_of_mem_matchesFrom p [] line 0 (.inl ⟨rfl, by simp⟩) m hm

end Text

namespace Links

/-- Words of path characters and longest runs of them are the same. -/
theorem isRun_iff_word {content : List Char} {p : Piece} :
    p.IsRun isPathChar content ↔ Word content p.start p.text :=
  ⟨fun h => ⟨h.stands, h.some, h.all⟩, fun h => ⟨h.some, h.chars, h.stands⟩⟩

/-! ## The place of a piece -/

/--
A reference has its target from a piece of the text, and its columns are the bytes of that piece
on its line.
-/
structure Covers (content : List Char) (r : Reference) (p : Piece) : Prop where
  target : r.target.toList = p.text
  on : ∃ index line, (keepEnds content)[index]? = some line ∧ r.line = index + 1 ∧
    r.piece.On line ∧ p.start = width ((keepEnds content).take index).flatten + r.columnStart
  ends : r.columnEnd = r.columnStart + width p.text

theorem covers_of_word {content : List Char} {source : String} {kind : ReferenceKind} {p : Piece}
    (h : Word content p.start p.text) : Covers content (referToWord content source kind p) p := by
  obtain ⟨front, back, hcontent, hstart, -, -⟩ := h.stands
  obtain ⟨index, line, hline, hnumber, hon, hoffset⟩ := exists_line_of_on
    ⟨front, back, hcontent, hstart⟩ h.some fun c hc => inLine_of_isPathChar (h.chars c hc)
  refine ⟨String.toList_ofList, ⟨index, line, hline, hnumber, ?_, hoffset⟩, rfl⟩
  rw [referToWord, piece_referTo]
  exact hon

/-- What stands further on in a text is referred to at a later place. -/
theorem before_referToWord {content : List Char} {source : String} {kind : ReferenceKind}
    {p q : Piece} (h : p.start < q.start) :
    Before (referToWord content source kind p) (referToWord content source kind q) :=
  place_lt h (lineStarts content)

/-- References that are kept of what is found in a file are those that are kept of what is gathered. -/
theorem filter_find {rule : CandidateRule} {source content : String} {keeps : Reference → Bool}
    (h : ((gathered rule source content).filter keeps).Pairwise Before) :
    (find rule source content).references.filter keeps =
      (gathered rule source content).filter keeps := by
  refine List.Perm.eq_of_pairwise (fun a b _ _ hab hba => ?_)
    ((pairwise_find rule source content).filter keeps) h ?_
  · unfold Before at hab hba
    omega
  · rw [find_eq_mergeSort]
    exact (List.mergeSort_perm _ _).filter keeps

namespace Yaml

variable {content word : List Char}

/-! ## Occurrences -/

/-- The runs of path characters of a text that spell a word, from the left to the right. -/
def occurrences (word content : List Char) : List Piece :=
  (runs isPathChar content).filter (·.text == word)

theorem mem_occurrences {p : Piece} :
    p ∈ occurrences word content ↔ p.text = word ∧ p.IsRun isPathChar content := by
  rw [occurrences, List.mem_filter, mem_runs_iff, beq_iff_eq, and_comm]

theorem pairwise_occurrences (word content : List Char) :
    (occurrences word content).Pairwise fun a b => a.start < b.start := by
  refine ((pairwise_runs isPathChar content).imp_of_mem ?_).filter _
  intro a b ha _ hab
  have hpos := width_pos_of_ne_nil (mem_runs_iff.mp ha).some
  have hstop : a.stop = a.start + width a.text := rfl
  omega

/-- The appearances of a word are the places of its occurrences. -/
theorem occurrences_eq (hne : word ≠ []) (hchars : ∀ c ∈ word, isPathChar c = true) :
    occurrences word content = (appearances word 0 none content).map fun offset => ⟨offset, word⟩ := by
  have hmap : ((appearances word 0 none content).map fun offset => (⟨offset, word⟩ : Piece)).Pairwise
      fun a b => a.start < b.start := List.pairwise_map.mpr (pairwise_appearances word 0 none content)
  have : Std.Irrefl fun a b : Piece => a.start < b.start := ⟨fun a => Nat.lt_irrefl a.start⟩
  have : Std.Antisymm fun a b : Piece => a.start < b.start := ⟨fun a b hab hba => by omega⟩
  refine List.Pairwise.eq_of_mem_iff (pairwise_occurrences word content) hmap fun p => ?_
  rw [mem_occurrences, isRun_iff_word, List.mem_map]
  constructor
  · rintro ⟨rfl, hword⟩
    exact ⟨p.start, (mem_appearances ⟨[], rfl, rfl, rfl⟩ hne hchars).mpr ⟨Nat.zero_le _, hword⟩, rfl⟩
  · rintro ⟨offset, hoffset, rfl⟩
    exact ⟨rfl, ((mem_appearances ⟨[], rfl, rfl, rfl⟩ hne hchars).mp hoffset).2⟩

/-! ## The search -/

/--
Where a word first stands from a byte offset on and is no part of a longer one. An offset inside
a character is no place of the text, and nothing is found from there.
-/
def firstFrom? (content word : List Char) (start : Nat) : Option Nat :=
  (cut? content start).bind fun (front, back) =>
    (findWord word start front.getLast? back).map Spot.offset

/-- The byte offset from which a word is looked for: where the last one of its text was left. -/
def leftAt (left : List (List Char × Spot)) (word : List Char) : Nat :=
  ((left.lookup word).map Spot.offset).getD 0

/-- **Each word is placed by the search**, and from an offset that is a place of the text. -/
theorem fst_locate {left : List (List Char × Spot)} (hleft : ∀ pair ∈ left, pair.2.In content) :
    (cut? content (leftAt left word)).isSome = true ∧
      (locate content left word).map Prod.fst = firstFrom? content word (leftAt left word) := by
  have hoffset : leftAt left word = ((left.lookup word).getD ⟨0, none, content⟩).offset := by
    rw [leftAt]
    cases left.lookup word <;> rfl
  obtain ⟨front, hcontent, hstart, hbefore⟩ := in_of_lookup hleft word
  have hcut : cut? content (leftAt left word) =
      some (front, ((left.lookup word).getD ⟨0, none, content⟩).rest) := by
    rw [hoffset, hstart]
    conv_lhs => rw [hcontent]
    exact cut?_append _ _
  refine ⟨by rw [hcut, Option.isSome_some], ?_⟩
  rw [firstFrom?, hcut, Option.bind_some]
  dsimp only
  rw [hoffset, ← hbefore, locate, Option.map_map]
  rfl

theorem head?_appearances (word : List Char) (offset : Nat) (before : Option Char)
    (cs : List Char) :
    (appearances word offset before cs).head? = (findWord word offset before cs).map Spot.offset := by
  induction cs generalizing offset before with
  | nil => rfl
  | cons c cs ih =>
      rw [appearances, findWord]
      split
      · rfl
      · exact ih _ _

/-- What the search answers is the first of the places that are there. -/
theorem exists_firstFrom?_eq (hne : word ≠ []) (hchars : ∀ c ∈ word, isPathChar c = true)
    {start : Nat} (hplace : start ≤ width content → (cut? content start).isSome = true) :
    ∃ places : List Nat, firstFrom? content word start = places.head? ∧
      places.Pairwise (· < ·) ∧ ∀ n, n ∈ places ↔ start ≤ n ∧ Word content n word := by
  cases hcut : cut? content start with
  | none =>
      rw [hcut] at hplace
      have hbeyond : width content < start := Nat.not_le.mp fun h => Bool.noConfusion (hplace h)
      refine ⟨[], by rw [firstFrom?, hcut]; rfl, .nil, fun n => ?_⟩
      refine iff_of_false List.not_mem_nil fun ⟨hle, hword⟩ => ?_
      obtain ⟨front, back, hcontent, rfl, -⟩ := hword.stands
      rw [hcontent, width_append] at hbeyond
      omega
  | some parts =>
      obtain ⟨front, back⟩ := parts
      have hin : Spot.In content ⟨start, front.getLast?, back⟩ :=
        ⟨front, (append_of_cut? hcut).symm, (width_of_cut? hcut).symm, rfl⟩
      refine ⟨appearances word start front.getLast? back, ?_, pairwise_appearances _ _ _ _,
        fun n => mem_appearances hin hne hchars⟩
      rw [firstFrom?, hcut, head?_appearances]
      rfl

/-- **The search answers the least place from an offset on**, and none if there is none. -/
theorem firstFrom?_least (hne : word ≠ []) (hchars : ∀ c ∈ word, isPathChar c = true) {start : Nat}
    (hplace : start ≤ width content → (cut? content start).isSome = true) :
    (∀ n, firstFrom? content word start = some n ↔ IsLeast {k | start ≤ k ∧ Word content k word} n) ∧
      (firstFrom? content word start = none ↔ ∀ k, start ≤ k → ¬ Word content k word) := by
  obtain ⟨places, hfirst, horder, hmem⟩ := exists_firstFrom?_eq hne hchars hplace
  have hset : {k | start ≤ k ∧ Word content k word} = {k | k ∈ places} :=
    Set.ext fun k => (hmem k).symm
  rw [hfirst, hset]
  cases places with
  | nil =>
      refine ⟨fun n => iff_of_false (by simp) fun h => List.not_mem_nil h.1, iff_of_true rfl ?_⟩
      exact fun k hle hword => List.not_mem_nil ((hmem k).mpr ⟨hle, hword⟩)
  | cons first places =>
      have hleast : IsLeast {k | k ∈ first :: places} first := by
        refine ⟨List.mem_cons_self, fun k hk => ?_⟩
        rcases List.mem_cons.mp hk with rfl | hk
        · exact Nat.le_refl _
        · exact Nat.le_of_lt (List.rel_of_pairwise_cons horder hk)
      refine ⟨fun n => ?_, iff_of_false (by simp) fun hnone => ?_⟩
      · rw [List.head?_cons, Option.some.injEq]
        exact ⟨fun h => h ▸ hleast, hleast.unique⟩
      · obtain ⟨hle, hword⟩ := (hmem first).mp List.mem_cons_self
        exact hnone first hle hword

/-! ## The references -/

/--
Of the references of a text those to one word are to its first occurrences, as many as there are
strings of the word.
-/
theorem exists_references_filter {rule : CandidateRule} {source : String} {values : List Yaml.Value}
    (h : Yaml.values? content = some values) (hword : rule.accepts word = true) :
    ∃ references, references? rule source content = some references ∧
      references.filter (·.target.toList == word) =
        ((occurrences word content).take ((values.flatMap Yaml.Value.strings).count word)).map
          (referToWord content source .yamlScalar) := by
  have hwords : ∀ word ∈ (values.flatMap Yaml.Value.strings).filter rule.accepts,
      word ≠ [] ∧ ∀ c ∈ word, isPathChar c = true := fun word hw =>
    have haccepts := (List.mem_filter.mp hw).2
    ⟨(some_of_accepts haccepts).1, isPathChar_of_accepts haccepts⟩
  have htext : ((·.target.toList == word) ∘ referToWord content source .yamlScalar) =
      (·.text == word) := funext fun p => by
    rw [Function.comp_apply, referToWord, referTo, String.toList_ofList]
  have hplaced := @filter_locateAll content _ [] hwords word
  rw [List.count_filter hword] at hplaced
  refine ⟨_, by rw [references?, h]; rfl, ?_⟩
  show (List.map (referToWord content source .yamlScalar) _).filter _ = _
  rw [List.filter_map, htext, hplaced,
    occurrences_eq (some_of_accepts hword).1 (isPathChar_of_accepts hword), ← List.map_take]
  rfl

/--
**The references of YAML are to the first occurrences of their strings.**

In a YAML file whose documents have values, let a word count as a path. The references to it, in
the order in which they are found and in the order of the file, take one after the other the
first of its occurrences, which are the longest runs of path characters that spell it: one for
each string of the values that is this word, as long as there are occurrences left. What other
strings there are does not matter.

What places each of them is a search from the byte offset at which the last one was left. From
every offset that is not inside a character it answers the least place where the word stands and
has no path character on either side, or none if there is no such place.
-/
theorem references_on_occurrences {rule : CandidateRule} {source content : String}
    {values : List Yaml.Value} {word : List Char} (hformat : Format.ofPath source = .yaml)
    (hvalues : Yaml.values? content.toList = some values) (hword : rule.accepts word = true) :
    (find rule source content).fallback = false ∧
      (∃ references, references? rule source content.toList = some references ∧
        references.filter (·.target.toList == word) =
          (find rule source content).references.filter (·.target.toList == word)) ∧
      List.Forall₂ (Covers content.toList)
        ((find rule source content).references.filter (·.target.toList == word))
        ((occurrences word content.toList).take ((values.flatMap Yaml.Value.strings).count word)) ∧
      ((find rule source content).references.filter (·.target.toList == word)).length =
        min ((values.flatMap Yaml.Value.strings).count word)
          (occurrences word content.toList).length ∧
      (∀ p, p ∈ occurrences word content.toList ↔
        p.text = word ∧ p.IsRun isPathChar content.toList) ∧
      ((occurrences word content.toList).Pairwise fun a b => a.start < b.start) ∧
      (∀ left : List (List Char × Spot), (∀ pair ∈ left, pair.2.In content.toList) →
        (cut? content.toList (leftAt left word)).isSome = true ∧
          (locate content.toList left word).map Prod.fst =
            firstFrom? content.toList word (leftAt left word)) ∧
      ∀ start, (start ≤ width content.toList → (cut? content.toList start).isSome = true) →
        (∀ n, firstFrom? content.toList word start = some n ↔
          IsLeast {k | start ≤ k ∧ Word content.toList k word} n) ∧
        (firstFrom? content.toList word start = none ↔
          ∀ k, start ≤ k → ¬ Word content.toList k word) := by
  obtain ⟨references, hreferences, hfilter⟩ :=
    @exists_references_filter content.toList word rule source values hvalues hword
  have hread : (Format.ofPath source).references? rule source content.toList = some references := by
    rw [hformat]
    exact hreferences
  have hplaces := pairwise_occurrences word content.toList
  have hkept : (gathered rule source content).filter (·.target.toList == word) =
      ((occurrences word content.toList).take
        ((values.flatMap Yaml.Value.strings).count word)).map
          (referToWord content.toList source .yamlScalar) := by
    rw [gathered, hread, Option.getD_some, hfilter]
  -- sorting by places leaves these references in their order, as the occurrences are in theirs
  have hordered : ((gathered rule source content).filter (·.target.toList == word)).Pairwise Before := by
    rw [hkept, List.pairwise_map]
    exact (hplaces.sublist (List.take_sublist _ _)).imp before_referToWord
  have hfind := (filter_find hordered).trans hkept
  refine ⟨?_, ⟨references, hreferences, hfilter.trans hfind.symm⟩, ?_, ?_,
    fun p => mem_occurrences, hplaces, fun left hleft => fst_locate hleft, fun start hplace => ?_⟩
  · rw [fallback_find, hread, Option.isNone_some]
  · rw [hfind, List.forall₂_map_left_iff, List.forall₂_same]
    intro p hp
    exact covers_of_word (isRun_iff_word.mp (mem_occurrences.mp (List.mem_of_mem_take hp)).2)
  · rw [hfind, List.length_map, List.length_take]
  · exact firstFrom?_least (some_of_accepts hword).1 (isPathChar_of_accepts hword) hplace

/-- Two strings of one text, which a comment and a longer path hold as well. -/
def guideText : String := "a: x.md\nb: docs/x.md # x.md\nc: x.md\n"

/-- Two of three occurrences are referred to, and the one inside the longer path is none. -/
theorem references_on_occurrences_guide :
    Format.ofPath "site.yml" = .yaml ∧ (Yaml.values? guideText.toList).isSome = true ∧
      (⟨["md"]⟩ : CandidateRule).accepts "x.md".toList = true ∧
      ((find ⟨["md"]⟩ "site.yml" guideText).references.filter
        (·.target.toList == "x.md".toList)).length = 2 ∧
      (occurrences "x.md".toList guideText.toList).length = 3 ∧
      IsLeast {k | 7 ≤ k ∧ Word guideText.toList k "x.md".toList} 23 := by
  have hformat : Format.ofPath "site.yml" = .yaml := by decide +kernel
  have hsome : (Yaml.values? guideText.toList).isSome = true := by decide +kernel
  have hpath : (⟨["md"]⟩ : CandidateRule).accepts "x.md".toList = true := by decide +kernel
  obtain ⟨values, hvalues⟩ := Option.isSome_iff_exists.mp hsome
  have hcount : (values.flatMap Yaml.Value.strings).count "x.md".toList = 2 := by
    have hstrings : (Yaml.values? guideText.toList).map
        (fun values => (values.flatMap Yaml.Value.strings).count "x.md".toList) = some 2 := by
      decide +kernel
    rw [hvalues] at hstrings
    exact Option.some.inj hstrings
  have hthree : (occurrences "x.md".toList guideText.toList).length = 3 := by decide +kernel
  obtain ⟨-, -, -, hlength, -, -, -, hsearch⟩ := references_on_occurrences hformat hvalues hpath
  rw [hcount, hthree] at hlength
  exact ⟨hformat, hsome, hpath, hlength, hthree,
    ((hsearch 7 fun _ => by decide +kernel).1 23).mp (by decide +kernel)⟩

end Yaml

end Links

end LinkKeeper
