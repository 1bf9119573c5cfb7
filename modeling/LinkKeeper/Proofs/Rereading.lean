import LinkKeeper.Proofs.Landing
import LinkKeeper.Proofs.Spans

/-!
# Inline links are found again

A revision puts other links where references were, and then the file is read anew by a reader
that knows nothing of it. In Markdown the reader of inline links goes by brackets, parentheses,
blanks and quotes, and a path holds none of these. So when words of path characters take the
place of such words, the reader finds the same inline links as before, each with its new target.

The readers of quotes and of bare words ask of every word whether it looks like a path, and may
say so before and not after; nothing of this kind holds for them.
-/

namespace LinkKeeper.Links.Markdown

open Text Swap

/-- Swaps of words of path characters. -/
def Worded (swaps : List Swap) : Prop := ∀ s ∈ swaps, s.Of fun c => isPathChar c = true

variable {swaps : List Swap}

theorem Worded.left {as bs : List Swap} (h : Worded (as ++ bs)) : Worded as :=
  fun s hs => h s (List.mem_append_left _ hs)

theorem Worded.right {as bs : List Swap} (h : Worded (as ++ bs)) : Worded bs :=
  fun s hs => h s (List.mem_append_right _ hs)

theorem Worded.tail {s : Swap} (h : Worded (s :: swaps)) : Worded swaps :=
  fun t ht => h t (List.mem_cons_of_mem _ ht)

/-! ## What a path does not hold -/

theorem code_of_isPathChar {c : Char} (h : isPathChar c = true) :
    45 ≤ c.toNat ∧ c.toNat ≤ 122 ∧ c.toNat ≠ 58 ∧ c.toNat ≠ 91 ∧ c.toNat ≠ 93 := by
  have hsigns : c.isAlphanum = true ∨ c = '_' ∨ c = '-' ∨ c = '.' ∨ c = '/' ∨ c = '\\' := by
    simp only [isPathChar, Path.isSeparator, Bool.or_eq_true, beq_iff_eq] at h
    tauto
  rcases hsigns with halnum | rfl | rfl | rfl | rfl | rfl
  · delta Char.isAlphanum Char.isAlpha Char.isUpper Char.isLower Char.isDigit at halnum
    simp only [Bool.or_eq_true, Bool.and_eq_true, decide_eq_true_eq,
      UInt32.le_iff_toNat_le] at halnum
    change ((65 ≤ c.toNat ∧ c.toNat ≤ 90) ∨ (97 ≤ c.toNat ∧ c.toNat ≤ 122)) ∨
      (48 ≤ c.toNat ∧ c.toNat ≤ 57) at halnum
    omega
  all_goals decide

theorem isBlank_of_isPathChar {c : Char} (h : isPathChar c = true) : isBlank c = false := by
  have hcode := code_of_isPathChar h
  unfold isBlank
  simp
  omega

theorem isTargetChar_of_isPathChar {c : Char} (h : isPathChar c = true) :
    isTargetChar c = true := by
  have hblank := isBlank_of_isPathChar h
  have hne : c ≠ '(' ∧ c ≠ ')' := by
    constructor <;> rintro rfl <;> exact absurd h (by decide)
  simp [isTargetChar, hblank, hne]

/-! ## One link -/

/-- The closing parenthesis behind blanks, and what follows it. -/
def shut? (cs : List Char) : Option (List Char) :=
  match cs.dropWhile isBlank with
  | ')' :: rest => some rest
  | _ => none

theorem closing?_of_shut {cs rest : List Char} (h : cs.dropWhile isBlank = ')' :: rest) :
    closing? cs = some rest := by
  simp only [closing?, h]

theorem isQuote_iff {c : Char} : isQuote c = true ↔ c = '"' ∨ c = '\'' := by simp [isQuote]

theorem not_isPathChar_of_isQuote {c : Char} (h : isQuote c = true) : ¬ isPathChar c = true := by
  rcases isQuote_iff.mp h with rfl | rfl <;> decide

theorem closing?_of_quote {cs more : List Char} {quote : Char} (hq : isQuote quote = true)
    (h : cs.dropWhile isBlank = quote :: more) :
    closing? cs = (splitFirst? quote more).bind fun parts => shut? parts.2 := by
  have hne : quote ≠ ')' := by
    rintro rfl
    exact absurd hq (by decide)
  unfold closing?
  split
  · rename_i heq
    exact absurd (List.cons.inj (h.symm.trans heq)).1 hne
  · rename_i heq
    obtain ⟨rfl, rfl⟩ := List.cons.inj (h.symm.trans heq)
    rw [if_pos hq]
    cases splitFirst? quote more <;> rfl
  · rename_i heq
    exact absurd (h.symm.trans heq) (by simp)

theorem closing?_of_neither {cs : List Char} (hshut : ∀ rest, cs.dropWhile isBlank ≠ ')' :: rest)
    (hquote : ∀ quote more, isQuote quote = true → cs.dropWhile isBlank ≠ quote :: more) :
    closing? cs = none := by
  unfold closing?
  split
  · rename_i heq
    exact absurd heq (hshut _)
  · rename_i heq
    split
    · rename_i hq
      exact absurd heq (hquote _ _ hq)
    · rfl
  · rfl

/-- A parser goes by borders: it stops nowhere in both lines, or at one border in both. -/
def Follows (parse : List Char → Option (List Char)) (swaps : List Swap) : Prop :=
  (parse (olds swaps) = none ∧ parse (news swaps) = none) ∨
    ∃ front back, swaps = front ++ back ∧ parse (olds swaps) = some (olds back) ∧
      parse (news swaps) = some (news back)

theorem shut?_follows (h : Worded swaps) : Follows shut? swaps := by
  obtain ⟨lead, inner, rfl, -, holds, -, hnews⟩ := Swap.takeWhile h fun c => isBlank_of_isPathChar
  unfold Follows shut?
  rw [← holds, ← hnews]
  rcases starts h.right (c := ')') (by decide) with ⟨back, rfl⟩ | ⟨hold, hnew⟩
  · exact .inr ⟨lead ++ [keep ')'], back, by simp, rfl, rfl⟩
  · refine .inl ⟨?_, ?_⟩
    · split
      · rename_i heq
        exact absurd heq (hold _)
      · rfl
    · split
      · rename_i heq
        exact absurd heq (hnew _)
      · rfl

theorem closing?_follows (h : Worded swaps) : Follows closing? swaps := by
  obtain ⟨lead, inner, rfl, -, holds, -, hnews⟩ := Swap.takeWhile h fun c => isBlank_of_isPathChar
  rcases starts h.right (c := ')') (by decide) with ⟨back, rfl⟩ | ⟨hold, hnew⟩
  · exact .inr ⟨lead ++ [keep ')'], back, by simp, closing?_of_shut holds.symm,
      closing?_of_shut hnews.symm⟩
  · by_cases hquote : ∃ quote more, isQuote quote = true ∧ inner = keep quote :: more
    · obtain ⟨quote, more, hq, rfl⟩ := hquote
      have hnot := not_isPathChar_of_isQuote hq
      rw [olds_keep_cons] at holds
      rw [news_keep_cons] at hnews
      rw [Follows, closing?_of_quote hq holds.symm, closing?_of_quote hq hnews.symm]
      rcases Swap.splitFirst? h.right.tail hnot with ⟨hold, hnew⟩ | ⟨title, after, rfl, hold, hnew⟩
      · exact .inl ⟨by rw [hold]; rfl, by rw [hnew]; rfl⟩
      · rw [hold, hnew, Option.bind_some, Option.bind_some]
        rcases shut?_follows h.right.tail.right.tail with hnone | ⟨front, back, rfl, hold, hnew⟩
        · exact .inl hnone
        · exact .inr ⟨lead ++ keep quote :: (title ++ keep quote :: front), back, by simp, hold, hnew⟩
    · have hneither : ∀ quote more, isQuote quote = true →
          olds inner ≠ quote :: more ∧ news inner ≠ quote :: more := by
        intro quote more hq
        rcases starts h.right (not_isPathChar_of_isQuote hq) with ⟨back, hback⟩ | ⟨hold, hnew⟩
        · exact absurd ⟨quote, back, hq, hback⟩ hquote
        · exact ⟨hold more, hnew more⟩
      refine .inl ⟨closing?_of_neither ?_ ?_, closing?_of_neither ?_ ?_⟩
      · exact fun rest heq => hold rest (holds.trans heq)
      · exact fun quote more hq heq => (hneither quote more hq).1 (holds.trans heq)
      · exact fun rest heq => hnew rest (hnews.trans heq)
      · exact fun quote more hq heq => (hneither quote more hq).2 (hnews.trans heq)

/-- What a recogniser of links answers when it finds a target between an opening and a closing. -/
def answer (text : Option (List Char)) (opening target closing : List Char) : Found × Nat :=
  ((text, ⟨width opening, target⟩, width (opening ++ (target ++ closing))),
    (opening ++ (target ++ closing)).length)

theorem destination?_eq {cs : List Char}
    (hne : (cs.dropWhile isBlank).takeWhile isTargetChar ≠ []) :
    destination? cs = (closing? ((cs.dropWhile isBlank).dropWhile isTargetChar)).map fun rest =>
      (⟨width (cs.takeWhile isBlank), (cs.dropWhile isBlank).takeWhile isTargetChar⟩, rest) := by
  unfold destination?
  dsimp only
  split
  · rename_i hnil
    exact absurd hnil hne
  · rfl

theorem destination?_eq_none {cs : List Char}
    (hnil : (cs.dropWhile isBlank).takeWhile isTargetChar = []) : destination? cs = none := by
  unfold destination?
  dsimp only
  rw [hnil]

/-- The targets of two lines: neither line has one here, or there are borders around both. -/
def Aims (swaps : List Swap) : Prop :=
  (destination? (olds swaps) = none ∧ destination? (news swaps) = none) ∨
    ∃ lead target closing back, swaps = lead ++ (target ++ (closing ++ back)) ∧
      destination? (olds swaps) = some (⟨width (olds lead), olds target⟩, olds back) ∧
      destination? (news swaps) = some (⟨width (news lead), news target⟩, news back)

theorem destination?_follows (h : Worded swaps) : Aims swaps := by
  obtain ⟨lead, inner, rfl, hlead, hinner, hlead', hinner'⟩ :=
    Swap.takeWhile h fun c => isBlank_of_isPathChar
  obtain ⟨target, behind, rfl, htarget, hbehind, htarget', hbehind'⟩ :=
    Swap.takeWhile h.right fun c => isTargetChar_of_isPathChar
  rw [hinner] at htarget hbehind
  rw [hinner'] at htarget' hbehind'
  by_cases hnil : target = []
  · subst hnil
    exact .inl ⟨destination?_eq_none htarget.symm, destination?_eq_none htarget'.symm⟩
  · have hold : olds target ≠ [] := fun he => hnil ((olds_eq_nil h.right.left).mp he)
    have hnew : news target ≠ [] := fun he => hnil ((news_eq_nil h.right.left).mp he)
    rw [htarget] at hold
    rw [htarget'] at hnew
    rw [Aims, destination?_eq hold, destination?_eq hnew, ← hlead, ← htarget, ← hbehind, ← hlead',
      ← htarget', ← hbehind']
    rcases closing?_follows h.right.right with ⟨hold, hnew⟩ | ⟨closing, back, rfl, hold, hnew⟩
    · exact .inl ⟨by rw [hold]; rfl, by rw [hnew]; rfl⟩
    · exact .inr ⟨lead, target, closing, back, rfl, by rw [hold]; rfl, by rw [hnew]; rfl⟩

theorem found?_eq {opening cs lead target closing back : List Char} {text : Option (List Char)}
    (hcs : cs = lead ++ (target ++ (closing ++ back)))
    (h : destination? cs = some (⟨width lead, target⟩, back)) :
    found? opening text cs = some (answer text (opening ++ lead) target closing) := by
  have hbehind : cs.take (cs.length - back.length) = lead ++ (target ++ closing) := by
    have hsplit : cs = (lead ++ (target ++ closing)) ++ back := by
      rw [hcs]
      simp only [List.append_assoc]
    rw [hsplit, List.length_append, Nat.add_sub_cancel, List.take_left' rfl]
  unfold found?
  rw [h, Option.map_some]
  dsimp only
  rw [hbehind, answer, Piece.shift]
  simp only [width_append, List.length_append, Nat.add_assoc]

/-! ## What a recogniser answers -/

/-- A link of a line and what it is after the swaps. -/
structure Pair where
  front : List Swap
  opening : List Swap
  target : List Swap
  closing : List Swap
  back : List Swap
  text : Option (List Char)
  newText : Option (List Char)

namespace Pair

/-- The swaps of the line. -/
def all (m : Pair) : List Swap := m.front ++ (m.opening ++ (m.target ++ (m.closing ++ m.back)))

/-- What was found. -/
def old (m : Pair) : Found × Nat := answer m.text (olds m.opening) (olds m.target) (olds m.closing)

/-- What is found now. -/
def new (m : Pair) : Found × Nat :=
  answer m.newText (news m.opening) (news m.target) (news m.closing)

end Pair

/--
A recogniser goes by borders: where it looks at a border it finds nothing on either line, or
links that have the same borders on both. It never begins with a character of a path.
-/
structure Steady (find : Recogniser Found) : Prop where
  follows : ∀ swaps, Worded swaps →
    (∀ before, find before (olds swaps) = none ∧ find before (news swaps) = none) ∨
      ∃ m : Pair, m.front = [] ∧ m.all = swaps ∧ m.opening ≠ [] ∧
        ∀ before, find before (olds swaps) = some m.old ∧ find before (news swaps) = some m.new
  starts : ∀ before c cs, isPathChar c = true → find before (c :: cs) = none

/--
How a recogniser takes two lines at a border: it finds nothing on either, or links that have the
same borders, and texts that go together.
-/
def Agrees (find : Recogniser Found) (texts : Option (List Char) → Option (List Char) → Prop)
    (swaps : List Swap) : Prop :=
  (∀ before, find before (olds swaps) = none ∧ find before (news swaps) = none) ∨
    ∃ m : Pair, m.front = [] ∧ m.all = swaps ∧ m.opening ≠ [] ∧ texts m.text m.newText ∧
      ∀ before, find before (olds swaps) = some m.old ∧ find before (news swaps) = some m.new

/-- Where the openings of two links are behind, it is the targets that matter. -/
theorem agrees_of_aims {find : Recogniser Found}
    {texts : Option (List Char) → Option (List Char) → Prop} {opening rest : List Swap}
    {text text' : Option (List Char)} (h : Aims rest) (hne : opening ≠ []) (htexts : texts text text')
    (heq : ∀ before, find before (olds (opening ++ rest)) = found? (olds opening) text (olds rest) ∧
      find before (news (opening ++ rest)) = found? (news opening) text' (news rest)) :
    Agrees find texts (opening ++ rest) := by
  rcases h with ⟨hold, hnew⟩ | ⟨lead, target, closing, back, rfl, hold, hnew⟩
  · refine .inl fun before => ⟨?_, ?_⟩
    · rw [(heq before).1, found?, hold]
      rfl
    · rw [(heq before).2, found?, hnew]
      rfl
  · refine .inr ⟨⟨[], opening ++ lead, target, closing, back, text, text'⟩, rfl, ?_, ?_, htexts,
      fun before => ⟨?_, ?_⟩⟩
    · simp [Pair.all]
    · simp [hne]
    · have hrest : olds (lead ++ (target ++ (closing ++ back))) =
          olds lead ++ (olds target ++ (olds closing ++ olds back)) := by simp
      rw [(heq before).1, found?_eq hrest hold, Pair.old, olds_append]
    · have hrest : news (lead ++ (target ++ (closing ++ back))) =
          news lead ++ (news target ++ (news closing ++ news back)) := by simp
      rw [(heq before).2, found?_eq hrest hnew, Pair.new, news_append]

theorem steady_of_found {find : Recogniser Found}
    (hstarts : ∀ before c cs, isPathChar c = true → find before (c :: cs) = none)
    (hfind : ∀ swaps, Worded swaps →
      (∀ before, find before (olds swaps) = none ∧ find before (news swaps) = none) ∨
        ∃ opening rest text text', swaps = opening ++ rest ∧ opening ≠ [] ∧
          ∀ before, find before (olds swaps) = found? (olds opening) text (olds rest) ∧
            find before (news swaps) = found? (news opening) text' (news rest)) : Steady find where
  starts := hstarts
  follows := by
    intro swaps h
    rcases hfind swaps h with hnone | ⟨opening, rest, text, text', rfl, hne, heq⟩
    · exact .inl hnone
    · have hagrees : Agrees find (fun _ _ => True) (opening ++ rest) :=
        agrees_of_aims (destination?_follows h.right) hne trivial heq
      rcases hagrees with hnone | ⟨m, hfront, hall, hne, -, hsome⟩
      · exact .inl hnone
      · exact .inr ⟨m, hfront, hall, hne, hsome⟩

/-- A character of the text of a link. -/
def isTextChar (c : Char) : Bool := !(c == '[' || c == ']')

theorem inlineLink_eq (before : Option Char) (inside rest : List Char)
    (h : inside.dropWhile isTextChar = ']' :: '(' :: rest) :
    inlineLink before ('[' :: inside) =
      found? ('[' :: inside.takeWhile isTextChar ++ [']', '(']) (some (inside.takeWhile isTextChar))
        rest := by
  unfold inlineLink
  split
  · rename_i inside' heq
    obtain rfl := (List.cons.inj heq).2
    dsimp only
    split
    · rename_i rest' hrest
      have hrest := (List.cons.inj (List.cons.inj (h.symm.trans hrest)).2).2
      rw [hrest]
      rfl
    · rename_i hnot
      exact absurd h (hnot rest)
  · rename_i hnot
    exact absurd rfl (hnot inside)

theorem inlineLink_eq_none (before : Option Char) (cs : List Char)
    (h : ∀ inside rest, cs = '[' :: inside → inside.dropWhile isTextChar ≠ ']' :: '(' :: rest) :
    inlineLink before cs = none := by
  unfold inlineLink
  split
  · rename_i inside
    dsimp only
    split
    · rename_i rest heq
      exact absurd heq (h inside rest rfl)
    · rfl
  · rfl

theorem steady_inlineLink : Steady inlineLink := by
  have htext : ∀ c, isPathChar c = true → isTextChar c = true := by
    intro c hc
    have hne : c ≠ '[' ∧ c ≠ ']' := by
      constructor <;> rintro rfl <;> exact absurd hc (by decide)
    simp [isTextChar, hne]
  refine steady_of_found ?_ fun swaps h => ?_
  · intro before c cs hc
    refine inlineLink_eq_none before _ fun inside rest heq => ?_
    obtain ⟨rfl, -⟩ := List.cons.inj heq
    exact absurd hc (by decide)
  · rcases starts h (c := '[') (by decide) with ⟨inside, rfl⟩ | ⟨hold, hnew⟩
    · obtain ⟨text, behind, rfl, htext, hbehind, htext', hbehind'⟩ := Swap.takeWhile h.tail htext
      have hsplit : (∃ rest, behind = keep ']' :: keep '(' :: rest) ∨
          (∀ cs, olds behind ≠ ']' :: '(' :: cs) ∧ ∀ cs, news behind ≠ ']' :: '(' :: cs := by
        rcases starts h.tail.right (c := ']') (by decide) with ⟨after, rfl⟩ | ⟨hold, hnew⟩
        · rcases starts h.tail.right.tail (c := '(') (by decide) with ⟨rest, rfl⟩ | ⟨hold, hnew⟩
          · exact .inl ⟨rest, rfl⟩
          · exact .inr ⟨fun cs heq => hold cs (List.cons.inj heq).2,
              fun cs heq => hnew cs (List.cons.inj heq).2⟩
        · exact .inr ⟨fun cs => hold _, fun cs => hnew _⟩
      rcases hsplit with ⟨rest, rfl⟩ | ⟨hold, hnew⟩
      · refine .inr ⟨keep '[' :: (text ++ [keep ']', keep '(']), rest, some (olds text),
          some (news text), by simp, by simp, fun before => ⟨?_, ?_⟩⟩
        · rw [olds_keep_cons, olds_keep_cons] at hbehind
          rw [olds_keep_cons, inlineLink_eq before _ _ hbehind.symm, ← htext]
          simp [keep]
        · rw [news_keep_cons, news_keep_cons] at hbehind'
          rw [news_keep_cons, inlineLink_eq before _ _ hbehind'.symm, ← htext']
          simp [keep]
      · refine .inl fun before => ⟨inlineLink_eq_none before _ fun inside rest heq => ?_,
          inlineLink_eq_none before _ fun inside rest heq => ?_⟩
        · obtain ⟨-, rfl⟩ := List.cons.inj heq
          exact fun hrest => hold rest (hbehind.trans hrest)
        · obtain ⟨-, rfl⟩ := List.cons.inj heq
          exact fun hrest => hnew rest (hbehind'.trans hrest)
    · exact .inl fun before => ⟨inlineLink_eq_none before _ fun inside _ heq => absurd heq (hold inside),
        inlineLink_eq_none before _ fun inside _ heq => absurd heq (hnew inside)⟩

theorem imageLinkEnd_eq_none (before : Option Char) (cs : List Char)
    (h : ∀ rest, cs ≠ ')' :: ']' :: '(' :: rest) : imageLinkEnd before cs = none := by
  unfold imageLinkEnd
  split
  · exact absurd rfl (h _)
  · rfl

theorem steady_imageLinkEnd : Steady imageLinkEnd := by
  refine steady_of_found ?_ fun swaps h => ?_
  · intro before c cs hc
    refine imageLinkEnd_eq_none before _ fun rest heq => ?_
    obtain ⟨rfl, -⟩ := List.cons.inj heq
    exact absurd hc (by decide)
  · have hsplit : (∃ rest, swaps = keep ')' :: keep ']' :: keep '(' :: rest) ∨
        (∀ cs, olds swaps ≠ ')' :: ']' :: '(' :: cs) ∧ ∀ cs, news swaps ≠ ')' :: ']' :: '(' :: cs := by
      rcases starts h (c := ')') (by decide) with ⟨one, rfl⟩ | ⟨hold, hnew⟩
      · rcases starts h.tail (c := ']') (by decide) with ⟨two, rfl⟩ | ⟨hold, hnew⟩
        · rcases starts h.tail.tail (c := '(') (by decide) with ⟨rest, rfl⟩ | ⟨hold, hnew⟩
          · exact .inl ⟨rest, rfl⟩
          · exact .inr ⟨fun cs heq => hold cs (List.cons.inj (List.cons.inj heq).2).2,
              fun cs heq => hnew cs (List.cons.inj (List.cons.inj heq).2).2⟩
        · exact .inr ⟨fun cs heq => hold _ (List.cons.inj heq).2,
            fun cs heq => hnew _ (List.cons.inj heq).2⟩
      · exact .inr ⟨fun cs => hold _, fun cs => hnew _⟩
    rcases hsplit with ⟨rest, rfl⟩ | ⟨hold, hnew⟩
    · exact .inr ⟨[keep ')', keep ']', keep '('], rest, none, none, rfl, by simp,
        fun before => ⟨rfl, rfl⟩⟩
    · exact .inl fun before => ⟨imageLinkEnd_eq_none before _ hold, imageLinkEnd_eq_none before _ hnew⟩

/-! ## All links of a line -/

/--
**A recogniser that agrees in front of every character that stays finds the same links on both
lines.** What is left of the line is gone through from border to border: past a character, a
link, or a word that is swapped, as long as nothing is found inside it.
-/
theorem matchesFrom_of_agrees {find : Recogniser Found}
    {texts : Option (List Char) → Option (List Char) → Prop} {held : Nat × Found → Prop}
    {p : Char → Prop} (hof : ∀ s ∈ swaps, s.Of p)
    (hkeep : ∀ front c rest, swaps = front ++ keep c :: rest → Agrees find texts (keep c :: rest))
    (hword : ∀ front s rest, swaps = front ++ s :: rest → (∀ c, s ≠ keep c) →
      ∀ before before' column', (∀ m ∈ Text.matchesFrom find (width (olds front)) before 0
        (olds (s :: rest)), held m) → ∃ last last',
        Text.matchesFrom find (width (olds front)) before 0 (olds (s :: rest)) =
          Text.matchesFrom find (width (olds front) + width s.old) last 0 (olds rest) ∧
        Text.matchesFrom find column' before' 0 (news (s :: rest)) =
          Text.matchesFrom find (column' + width s.new) last' 0 (news rest))
    {front rest : List Swap} (hline : swaps = front ++ rest) (before before' : Option Char)
    (hheld : ∀ m ∈ Text.matchesFrom find (width (olds front)) before 0 (olds rest), held m) :
    ∃ ms : List Pair, (∀ m ∈ ms, m.all = swaps ∧ texts m.text m.newText) ∧
      Text.matchesFrom find (width (olds front)) before 0 (olds rest) =
        ms.map (fun m => (width (olds m.front), m.old.1)) ∧
      Text.matchesFrom find (width (news front)) before' 0 (news rest) =
        ms.map (fun m => (width (news m.front), m.new.1)) := by
  obtain ⟨n, hn⟩ : ∃ n, rest.length ≤ n := ⟨_, Nat.le_refl _⟩
  induction n generalizing front rest before before' with
  | zero =>
      obtain rfl : rest = [] := List.eq_nil_of_length_eq_zero (by omega)
      exact ⟨[], by simp, rfl, rfl⟩
  | succ n ih =>
      cases rest with
      | nil => exact ⟨[], by simp, rfl, rfl⟩
      | cons s rest =>
          -- past one swap in front of which nothing is found
          have hpast : ∀ last last', Text.matchesFrom find (width (olds front)) before 0
                (olds (s :: rest)) =
              Text.matchesFrom find (width (olds front) + width s.old) last 0 (olds rest) →
              Text.matchesFrom find (width (news front)) before' 0 (news (s :: rest)) =
                Text.matchesFrom find (width (news front) + width s.new) last' 0 (news rest) →
              ∃ ms : List Pair, (∀ m ∈ ms, m.all = swaps ∧ texts m.text m.newText) ∧
                Text.matchesFrom find (width (olds front)) before 0 (olds (s :: rest)) =
                  ms.map (fun m => (width (olds m.front), m.old.1)) ∧
                Text.matchesFrom find (width (news front)) before' 0 (news (s :: rest)) =
                  ms.map (fun m => (width (news m.front), m.new.1)) := by
            intro last last' hlast hlast'
            have hfront : width (olds (front ++ [s])) = width (olds front) + width s.old := by simp
            have hfront' : width (news (front ++ [s])) = width (news front) + width s.new := by simp
            obtain ⟨ms, hms, hold, hnew⟩ := ih (by simpa using hline : swaps = (front ++ [s]) ++ rest)
              last last' (by rw [hfront, ← hlast]; exact hheld) (by simpa using hn)
            exact ⟨ms, hms, by rw [hlast, ← hold, hfront], by rw [hlast', ← hnew, hfront']⟩
          by_cases hstays : ∃ c, s = keep c
          · obtain ⟨c, rfl⟩ := hstays
            have hwidth : width (keep c).old = c.utf8Size ∧ width (keep c).new = c.utf8Size := by
              simp [keep]
            rcases hkeep front c rest hline with hnone | ⟨m, hfront, hall, hne, htexts, hsome⟩
            · refine hpast (some c) (some c) ?_ ?_
              · rw [hwidth.1, olds_keep_cons]
                exact matchesFrom_none (hnone before).1 _
              · rw [hwidth.2, news_keep_cons]
                exact matchesFrom_none (hnone before').2 _
            · -- the link that is found here, and then those behind it
              obtain ⟨whole, hwhole⟩ : ∃ whole, whole = m.opening ++ (m.target ++ m.closing) :=
                ⟨_, rfl⟩
              have hrest : keep c :: rest = whole ++ m.back := by
                rw [← hall]
                simp [Pair.all, hfront, hwhole]
              have hsome' : whole ≠ [] := by simp [hwhole, hne]
              have hof' : ∀ s ∈ whole, s.Of p := fun s hs => hof s (by
                rw [hline, hrest]
                simp [hs])
              rw [hrest] at hline hsome hn hheld ⊢
              rw [olds_append, news_append] at hsome
              have hlength : m.old = (m.old.1, (olds whole).length) := by
                simp [Pair.old, answer, hwhole]
              have hlength' : m.new = (m.new.1, (news whole).length) := by
                simp [Pair.new, answer, hwhole]
              obtain ⟨last, hlast⟩ := matchesFrom_found
                (fun he => hsome' ((olds_eq_nil hof').mp he)) ((hsome before).1.trans
                  (congrArg some hlength)) (width (olds front))
              obtain ⟨last', hlast'⟩ := matchesFrom_found
                (fun he => hsome' ((news_eq_nil hof').mp he)) ((hsome before').2.trans
                  (congrArg some hlength')) (width (news front))
              have hline' : swaps = (front ++ whole) ++ m.back := by simp [hline]
              have hless : m.back.length ≤ n := by
                have hpos := List.length_pos_iff.mpr hsome'
                rw [List.length_append] at hn
                omega
              have hwidths : width (olds (front ++ whole)) = width (olds front) + width (olds whole) := by
                simp
              rw [olds_append] at hheld
              obtain ⟨ms, hms, hold, hnew⟩ := ih hline' last last' (by
                rw [hwidths]
                exact fun q hq => hheld q (by rw [hlast]; exact List.mem_cons_of_mem _ hq)) hless
              refine ⟨{ m with front } :: ms, ?_, ?_, ?_⟩
              · intro m' hm'
                rcases List.mem_cons.mp hm' with rfl | hm'
                · exact ⟨by simp [Pair.all, hline, hwhole], htexts⟩
                · exact hms m' hm'
              · rw [olds_append, hlast, List.map_cons, ← hold, hwidths]
                rfl
              · rw [news_append, hlast', List.map_cons, ← hnew, news_append, width_append]
                rfl
          · obtain ⟨last, last', hlast, hlast'⟩ := hword front s rest hline
              (fun c hc => hstays ⟨c, hc⟩) before before' (width (news front)) hheld
            exact hpast last last' hlast hlast'

/-- **A steady recogniser finds the same links on both lines**, when all swaps are of words. -/
theorem Steady.matchesFrom {find : Recogniser Found} (hfind : Steady find) (h : Worded swaps)
    {front rest : List Swap} (hline : swaps = front ++ rest) (before before' : Option Char) :
    ∃ ms : List Pair, (∀ m ∈ ms, m.all = swaps) ∧
      Text.matchesFrom find (width (olds front)) before 0 (olds rest) =
        ms.map (fun m => (width (olds m.front), m.old.1)) ∧
      Text.matchesFrom find (width (news front)) before' 0 (news rest) =
        ms.map (fun m => (width (news m.front), m.new.1)) := by
  have hkeep : ∀ front c rest, swaps = front ++ keep c :: rest →
      Agrees find (fun _ _ => True) (keep c :: rest) := by
    intro front c rest hsplit
    rcases hfind.follows _ (hsplit ▸ h : Worded (front ++ keep c :: rest)).right with
      hnone | ⟨m, hfront, hall, hne, hsome⟩
    · exact .inl hnone
    · exact .inr ⟨m, hfront, hall, hne, trivial, hsome⟩
  -- a recogniser of links never begins in a word
  have hpass : ∀ word rest column before, (∀ c ∈ word, isPathChar c = true) →
      ∃ last, Text.matchesFrom find column before 0 (word ++ rest) =
        Text.matchesFrom find (column + width word) last 0 rest := fun word rest column before hword =>
    matchesFrom_pass (fun c hc before cs => hfind.starts before c cs (hword c hc)) column before rest
  obtain ⟨ms, hms, hold, hnew⟩ := @matchesFrom_of_agrees swaps find _ (fun _ => True) _ h hkeep
    (fun front s rest hsplit hs before before' column' _ => by
      rcases h s (by rw [hsplit]; simp) with ⟨c, hc⟩ | ⟨-, hold, hnew⟩
      · exact absurd hc (hs c)
      · obtain ⟨last, hlast⟩ := hpass s.old (olds rest) (width (olds front)) before hold
        obtain ⟨last', hlast'⟩ := hpass s.new (news rest) column' before' hnew
        exact ⟨last, last', hlast, hlast'⟩) front rest hline before before' fun _ _ => trivial
  exact ⟨ms, fun m hm => (hms m hm).1, hold, hnew⟩

namespace Pair

/-- The link that was found. -/
def oldLink (m : Pair) : Link where
  whole := ⟨width (olds m.front), width (olds m.front) + m.old.1.2.2⟩
  text := m.text
  target := ⟨width (olds m.front) + width (olds m.opening), olds m.target⟩

/-- The link that is found now. -/
def newLink (m : Pair) : Link where
  whole := ⟨width (news m.front), width (news m.front) + m.new.1.2.2⟩
  text := m.newText
  target := ⟨width (news m.front) + width (news m.opening), news m.target⟩

/-- What stands in the target of a link stands in it later, in its new place. -/
theorem target_eq {p : Char → Prop} {m : Pair} (h : ∀ s ∈ swaps, s.Of p) (hall : m.all = swaps)
    {front word back : List Swap} (hline : swaps = front ++ (word ++ back))
    (htarget : m.oldLink.target = ⟨width (olds front), olds word⟩) :
    m.newLink.target = ⟨width (news front), news word⟩ := by
  obtain ⟨hstart, hword⟩ := Piece.mk.inj htarget
  have hborder : swaps = (m.front ++ m.opening) ++ (m.target ++ (m.closing ++ m.back)) := by
    rw [← hall, all, List.append_assoc]
  obtain ⟨rfl, hrest⟩ := Swap.eq_of_width h hborder hline
    (by rw [olds_append, width_append]; exact hstart)
  have hrest' : ∀ s ∈ m.target ++ (m.closing ++ m.back), s.Of p := fun s hs =>
    h s (hborder ▸ List.mem_append_right _ hs)
  obtain ⟨rfl, -⟩ := Swap.eq_of_width hrest' rfl hrest (congrArg width hword)
  rw [news_append, width_append]
  rfl

/-- The target of one link and another link as a whole share no byte before, or they share none later. -/
theorem apart_iff {p : Char → Prop} {m i : Pair} (h : ∀ s ∈ m.all, s.Of p) (hi : i.all = m.all) :
    m.oldLink.target.span.Apart i.oldLink.whole ↔ m.newLink.target.span.Apart i.newLink.whole := by
  have hstart : m.all = (m.front ++ m.opening) ++ (m.target ++ (m.closing ++ m.back)) := by
    simp [all]
  have hstop : m.all = (m.front ++ (m.opening ++ m.target)) ++ (m.closing ++ m.back) := by
    simp [all]
  have hfirst : m.all = i.front ++ (i.opening ++ (i.target ++ (i.closing ++ i.back))) := by
    rw [← hi, all]
  have hlast : m.all = (i.front ++ (i.opening ++ (i.target ++ i.closing))) ++ i.back := by
    exact hi.symm.trans (by simp [all])
  have hbefore := Swap.width_le_iff h hstop hfirst
  have hbehind := Swap.width_le_iff h hlast hstart
  refine or_congr ?_ ?_
  · simpa [oldLink, newLink, Piece.span, Piece.stop, Nat.add_assoc] using hbefore
  · simpa [oldLink, newLink, old, new, answer, Piece.span, Nat.add_assoc] using hbehind

end Pair

theorem Steady.linksOf {find : Recogniser Found} (hfind : Steady find) (h : Worded swaps) :
    ∃ ms : List Pair, (∀ m ∈ ms, m.all = swaps) ∧
      linksOf find (olds swaps) = ms.map Pair.oldLink ∧
      linksOf find (news swaps) = ms.map Pair.newLink := by
  obtain ⟨ms, hms, hold, hnew⟩ := 
    hfind.matchesFrom h (List.nil_append swaps).symm none none
  rw [olds_nil, width_nil] at hold
  rw [news_nil, width_nil] at hnew
  refine ⟨ms, hms, ?_, ?_⟩
  · rw [Markdown.linksOf, matchesOf, hold, List.map_map]
    rfl
  · rw [Markdown.linksOf, matchesOf, hnew, List.map_map]
    rfl

/-! ## One link of the line -/

/-- **A link is found where it has landed**, with the target that it has now. -/
theorem exists_link (h : Worded swaps) {front word back : List Swap}
    (hline : swaps = front ++ (word ++ back)) {l : Link} (hl : l ∈ links (olds swaps))
    (htarget : l.target = ⟨width (olds front), olds word⟩) :
    ∃ l' ∈ links (news swaps), l'.target = ⟨width (news front), news word⟩ := by
  obtain ⟨inlines, hinlines, hold, hnew⟩ := steady_inlineLink.linksOf h
  obtain ⟨ends, hends, hold', hnew'⟩ := steady_imageLinkEnd.linksOf h
  unfold links at hl ⊢
  dsimp only at hl ⊢
  rw [hold, hold'] at hl
  rw [hnew, hnew']
  rcases List.mem_append.mp hl with hl | hl
  · obtain ⟨m, hm, rfl⟩ := List.mem_map.mp hl
    exact ⟨m.newLink, List.mem_append_left _ (List.mem_map_of_mem hm),
      Pair.target_eq h (hinlines m hm) hline htarget⟩
  · obtain ⟨hl, hclaimed⟩ := List.mem_filter.mp hl
    obtain ⟨m, hm, rfl⟩ := List.mem_map.mp hl
    refine ⟨m.newLink, List.mem_append_right _ (List.mem_filter.mpr
      ⟨List.mem_map_of_mem hm, ?_⟩), Pair.target_eq h (hends m hm) hline htarget⟩
    rw [Bool.not_eq_true', Span.isClaimed_eq_false] at hclaimed ⊢
    intro span hspan
    obtain ⟨l, hl, rfl⟩ := List.mem_map.mp hspan
    obtain ⟨i, hi, rfl⟩ := List.mem_map.mp hl
    exact (Pair.apart_iff (hends m hm ▸ h) ((hinlines i hi).trans (hends m hm).symm)).mp
      (hclaimed _ (List.mem_map_of_mem (List.mem_map_of_mem hi)))

/-! ## The body of a line -/

/-- The ending of a line is cut off at one border before and after. -/
theorem exists_body (h : ∀ s ∈ swaps, s.Of InLine) : ∃ body ending, swaps = body ++ ending ∧
    splitEnding (olds swaps) = (olds body, olds ending) ∧
    splitEnding (news swaps) = (news body, news ending) := by
  rcases ends h (c := '\n') (by simp [InLine]) with ⟨front, rfl⟩ | ⟨hold, hnew⟩
  · rw [olds_append, news_append]
    have hfront : ∀ s ∈ front, s.Of InLine := fun s hs => h s (List.mem_append_left _ hs)
    rcases ends hfront (c := '\r') (by simp [InLine]) with ⟨body, rfl⟩ | ⟨hold, hnew⟩
    · refine ⟨body, [keep '\r', keep '\n'], by simp, ?_, ?_⟩
      · rw [olds_append, List.append_assoc]
        exact splitEnding_of_return _
      · rw [news_append, List.append_assoc]
        exact splitEnding_of_return _
    · exact ⟨front, [keep '\n'], rfl, splitEnding_of_feed hold, splitEnding_of_feed hnew⟩
  · exact ⟨swaps, [], by simp, splitEnding_of_none hold, splitEnding_of_none hnew⟩

/-! ## One reference of the text -/

variable {rule : CandidateRule} {source : String} {number : Nat} {line : List Char}

/-- The inline links of a line are those that do not lead out of the project. -/
theorem mem_lineReferences {r : Reference} (hr : r ∈ lineReferences rule source number line)
    (hkind : r.kind = .markdownInline) :
    ∃ l ∈ links line, l.target = ⟨r.columnStart, r.target.toList⟩ ∧
      isExternal r.target.toList = false := by
  unfold lineReferences at hr
  dsimp only at hr
  rcases List.mem_append.mp hr with hr | hr
  · rcases List.mem_append.mp hr with hr | hr
    · obtain ⟨l, hl, rfl⟩ := List.mem_map.mp hr
      obtain ⟨hl, hinside⟩ := List.mem_filter.mp hl
      refine ⟨l, hl, ?_⟩
      rw [referTo, String.toList_ofList]
      exact ⟨rfl, by simpa using hinside⟩
    · obtain ⟨p, -, rfl⟩ := List.mem_map.mp hr
      exact absurd hkind (by simp [referTo])
  · obtain ⟨p, -, rfl⟩ := List.mem_map.mp hr
    exact absurd hkind (by simp [referTo])

theorem exists_mem_lineReferences {l : Link} (hl : l ∈ links line)
    (hinside : isExternal l.target.text = false) :
    ∃ r ∈ lineReferences rule source number line, r.columnStart = l.target.start ∧
      r.target.toList = l.target.text ∧ r.source = source := by
  unfold lineReferences
  dsimp only
  refine ⟨_, List.mem_append_left _ (List.mem_append_left _ (List.mem_map_of_mem
    (List.mem_filter.mpr ⟨hl, ?_⟩))), rfl, ?_, rfl⟩
  · rw [hinside]
    rfl
  · exact String.toList_ofList

end LinkKeeper.Links.Markdown

namespace LinkKeeper.Links

open Text

variable {rule : CandidateRule} {source host content text : String} {link : Reference → String}

theorem mem_find_markdown (hformat : Format.ofPath source = .markdown) {r : Reference} :
    r ∈ (find rule source content).references ↔
      r ∈ perLine (Markdown.lineReferences rule source) content.toList := by
  rw [mem_find_iff, gathered, hformat]
  rfl

/-! ## Kinds and formats -/

/-- The kinds of references that a format has. -/
def Format.kinds : Format → List ReferenceKind
  | json => [.jsonValue]
  | markdown => [.markdownInline, .markdownQuoted, .markdownStandalone]
  | plain => [.genericImport, .genericQuoted, .genericComment, .genericUnquoted]
  | yaml => [.yamlScalar]

theorem kind_of_mem_map_referTo {source : String} {number : Nat} {kind : ReferenceKind}
    {pieces : List Piece} {r : Reference} (hr : r ∈ pieces.map (referTo source number kind)) :
    r.kind = kind := by
  obtain ⟨p, -, rfl⟩ := List.mem_map.mp hr
  rfl

theorem Plain.kind_mem {number : Nat} {line : List Char} {r : Reference}
    (hr : r ∈ lineReferences rule source number line) : r.kind ∈ Format.plain.kinds := by
  rw [lineReferences] at hr
  dsimp only at hr
  simp only [List.mem_append] at hr
  rcases hr with ((hr | hr) | hr) | hr
  all_goals
    rw [kind_of_mem_map_referTo hr]
    decide

theorem Markdown.kind_mem {number : Nat} {line : List Char} {r : Reference}
    (hr : r ∈ lineReferences rule source number line) : r.kind ∈ Format.markdown.kinds := by
  rw [lineReferences] at hr
  dsimp only at hr
  simp only [List.mem_append] at hr
  rcases hr with (hr | hr) | hr
  · obtain ⟨l, -, rfl⟩ := List.mem_map.mp hr
    exact List.mem_cons_self
  all_goals
    rw [kind_of_mem_map_referTo hr]
    decide

/-- What is found in a format is of its kinds. -/
theorem Format.kind_mem {format : Format} {cs : List Char} {references : List Reference}
    {r : Reference} (h : format.references? rule source cs = some references) (hr : r ∈ references) :
    r.kind ∈ format.kinds := by
  cases format with
  | json =>
      rw [Format.references?, Json.references?_eq] at h
      obtain ⟨value, -, rfl⟩ := Option.map_eq_some_iff.mp h
      obtain ⟨g, -, rfl⟩ := List.mem_map.mp hr
      exact List.mem_singleton.mpr rfl
  | markdown =>
      obtain rfl := Option.some.inj h
      obtain ⟨pair, -, hline⟩ := List.mem_flatMap.mp hr
      exact Markdown.kind_mem hline
  | plain =>
      obtain rfl := Option.some.inj h
      obtain ⟨pair, -, hline⟩ := List.mem_flatMap.mp hr
      exact Plain.kind_mem hline
  | yaml =>
      obtain ⟨values, -, rfl⟩ := Option.map_eq_some_iff.mp h
      obtain ⟨p, -, rfl⟩ := List.mem_map.mp hr
      exact List.mem_singleton.mpr rfl

/-- A reference that is not of a kind of plain text was found in the format of its file. -/
theorem exists_references_of_kind {r : Reference} (hr : r ∈ (find rule source content).references)
    (hkind : r.kind ∉ Format.plain.kinds) : ∃ references,
      (Format.ofPath source).references? rule source content.toList = some references ∧
      r ∈ references ∧ r.kind ∈ (Format.ofPath source).kinds := by
  rw [mem_find_iff, gathered] at hr
  cases h : (Format.ofPath source).references? rule source content.toList with
  | none =>
      rw [h, Option.getD_none] at hr
      obtain ⟨pair, -, hline⟩ := List.mem_flatMap.mp hr
      exact absurd (Plain.kind_mem hline) hkind
  | some references =>
      rw [h, Option.getD_some] at hr
      exact ⟨references, rfl, hr, Format.kind_mem h hr⟩

/-- Only Markdown has inline links. -/
theorem format_of_inline {r : Reference} (hr : r ∈ (find rule source content).references)
    (hkind : r.kind = .markdownInline) : Format.ofPath source = .markdown := by
  obtain ⟨references, -, -, hmem⟩ := exists_references_of_kind hr (by rw [hkind]; decide)
  rw [hkind] at hmem
  cases hformat : Format.ofPath source with
  | markdown => rfl
  | _ =>
      rw [hformat] at hmem
      exact absurd hmem (by decide)

/-- A link has another path in it, of path characters like the old one, and the rest of it is the same. -/
def Repathed (old new : List Char) : Prop :=
  ∃ path path' rest, old = path ++ rest ∧ new = path' ++ rest ∧ (path ≠ [] ∧ path' ≠ []) ∧
    (∀ c ∈ path, isPathChar c = true) ∧ ∀ c ∈ path', isPathChar c = true

/--
**An inline link is found again.**

When the references of a Markdown file get other links, of which those on one line differ from
the old ones in a path at most, and the file is read anew, then every inline link of this line
that still leads into the project is found where it has landed.
-/
theorem found_again (hformat : Format.ofPath source = .markdown)
    (hformat' : Format.ofPath host = .markdown)
    (hrelinked : Relinked link (find rule source content).references content text)
    (hlinks : ∀ q ∈ (find rule source content).references,
      (link q).toList ≠ [] ∧ '\n' ∉ (link q).toList)
    {r : Reference} (hr : r ∈ (find rule source content).references)
    (hkind : r.kind = .markdownInline)
    (hpaths : ∀ q ∈ (find rule source content).references, q.line = r.line →
      link q = q.target ∨ Repathed q.target.toList (link q).toList)
    (hinside : link r ≠ r.target → Markdown.isExternal (link r).toList = false) :
    ∃ q ∈ (find rule host text).references, q.source = host ∧ q.line = r.line ∧
      q.columnStart = r.landing link (find rule source content).references ∧
      q.target = link r := by
  have hlaid := laid_find rule source content
  have hswaps : ∀ q, ∃ swaps, q ∈ (find rule source content).references →
      (Swap.olds swaps = q.target.toList ∧ Swap.news swaps = (link q).toList ∧
        ∀ s ∈ swaps, s.Of (· ≠ '\n')) ∧ (q.line = r.line → Markdown.Worded swaps) := by
    intro q
    by_cases hsame : link q = q.target
    · refine ⟨q.target.toList.map .keep, fun _ => ⟨⟨by simp, by simp [hsame], ?_⟩, fun _ => ?_⟩⟩
      all_goals
        intro s hs
        obtain ⟨c, -, rfl⟩ := List.mem_map.mp hs
        exact .inl ⟨c, rfl⟩
    · by_cases hrepathed : Repathed q.target.toList (link q).toList
      · obtain ⟨path, path', rest, hold, hnew, hne, hpath, hpath'⟩ := hrepathed
        have hword : Markdown.Worded (⟨path, path'⟩ :: rest.map .keep) := by
          intro s hs
          rcases List.mem_cons.mp hs with rfl | hs
          · exact .inr ⟨hne, hpath, hpath'⟩
          · obtain ⟨c, -, rfl⟩ := List.mem_map.mp hs
            exact .inl ⟨c, rfl⟩
        exact ⟨_, fun _ => ⟨⟨by simp [hold], by simp [hnew], fun s hs =>
          (hword s hs).mono fun c hc => (inLine_of_isPathChar hc).1⟩, fun _ => hword⟩⟩
      · refine ⟨[⟨q.target.toList, (link q).toList⟩], fun hq => ⟨⟨by simp, by simp, ?_⟩, fun hline =>
          absurd (hpaths q hq hline) (by simp [hsame, hrepathed])⟩⟩
        intro s hs
        obtain rfl := List.mem_singleton.mp hs
        obtain ⟨hne, hinline⟩ := (hlaid.stands q hq).some
        obtain ⟨hne', hfeed⟩ := hlinks q hq
        refine .inr ⟨⟨hne, hne'⟩, fun c hc => (hinline c hc).1, fun c hc he => hfeed ?_⟩
        rwa [he] at hc
  choose swaps hswaps using hswaps
  obtain ⟨index, front, back, hnumber, hold, hnew, hfrom, hcolumn, hlands⟩ :=
    hrelinked.exists_swaps hlaid (fun q hq => (hswaps q hq).1) hr
  have hworded : Markdown.Worded (front ++ (swaps r ++ back)) := by
    intro s hs
    rcases hfrom s hs with hkeep | ⟨q, hq, hline, hsq⟩
    · exact .inl hkeep
    · exact (hswaps q hq).2 hline s hsq
  obtain ⟨⟨holds, hnews, -⟩, -⟩ := hswaps r hr
  obtain ⟨body, ending, hbody, hending, hending'⟩ := Markdown.exists_body fun s hs =>
    (hworded s hs).mono fun c hc => inLine_of_isPathChar hc
  -- the link that was found
  obtain ⟨other, line, hindex, hnumber', hfound⟩ :=
    mem_perLine (Markdown.given rule source) ((mem_find_markdown hformat).mp hr)
  obtain rfl : index = other := by omega
  obtain rfl := Option.some.inj (hindex.symm.trans hold)
  rw [hending] at hfound
  obtain ⟨l, hl, htarget, hinside'⟩ := Markdown.mem_lineReferences hfound hkind
  rw [hcolumn, ← holds] at htarget
  -- it stands in the body of its line
  obtain ⟨rest, hrest⟩ : front ++ swaps r <+: body := by
    obtain ⟨before, behind, hline, hstart⟩ :=
      (Markdown.placed_links (Swap.olds body)).1.on _ (List.mem_map_of_mem hl)
    rw [htarget] at hline hstart
    dsimp only at hline hstart
    refine Swap.prefix_of_width_le hworded (List.append_assoc _ _ _).symm hbody ?_
    rw [hline, Swap.olds_append, width_append, width_append, width_append]
    omega
  rw [List.append_assoc] at hrest
  obtain ⟨l', hl', htarget'⟩ := Markdown.exists_link (hbody ▸ hworded : Markdown.Worded _).left
    hrest.symm hl htarget
  rw [hnews, ← hlands] at htarget'
  obtain ⟨q, hq, hstart, htext, hsource⟩ :=
    @Markdown.exists_mem_lineReferences rule host (index + 1) _ l' hl' (by
      rw [htarget']
      by_cases hsame : link r = r.target
      · rw [hsame]
        exact hinside'
      · exact hinside hsame)
  have hline := ((Markdown.given rule host (index + 1) _).line q hq)
  rw [htarget'] at hstart htext
  refine ⟨q, (mem_find_markdown hformat').mpr (List.mem_flatMap.mpr ⟨_, mem_numbered_of_line hnew, ?_⟩),
    hsource, by omega, hstart, String.toList_inj.mp htext⟩
  rw [hending']
  exact hq

end LinkKeeper.Links
