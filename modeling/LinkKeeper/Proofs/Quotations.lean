import LinkKeeper.Proofs.Splicing
import LinkKeeper.Proofs.Split

/-!
# Quotes, from the left to the right

The reader of quotes goes through a line from the left. Where it finds a path between two quotes
it goes on behind the second one, and otherwise behind the first, so that the quote which closes
one pair without a path may open the next. Which pairs come of this seems to depend on all that
stands to the left. `Chosen` says it by itself, as a choice among the paths in quotes, and the
reader makes that choice.

No choice is left to it, though. A path ends in a letter or a digit, and holds no quote. So the
quote behind a path opens nothing, two paths in quotes never share a byte, and every one of them
is found, whatever quotes there are before it.
-/

namespace LinkKeeper.Links

open Text

variable {rule : CandidateRule} {line : List Char} {p q : Piece} {n : Nat}

/--
A path in quotes: a quote with no letter or digit before it, the path, and the next quote of the
same kind.
-/
structure InQuotes (rule : CandidateRule) (line : List Char) (p : Piece) : Prop where
  path : rule.accepts p.text = true
  stands : ∃ front quote back, line = front ++ quote :: (p.text ++ quote :: back) ∧
    p.start = width front + 1 ∧ isQuote quote = true ∧ quote ∉ p.text ∧
    front.getLast?.any Char.isAlphanum = false

/--
What is chosen from an offset on: the first path in quotes whose opening quote, which is the byte
before the path, is not in front of the offset; and then what is chosen from behind its closing
quote on, which is the byte behind the path.
-/
inductive Chosen (rule : CandidateRule) (line : List Char) : Nat → List Piece → Prop where
  | none {n : Nat} : (∀ q, InQuotes rule line q → q.start ≤ n) → Chosen rule line n []
  | next {n : Nat} {p : Piece} {ps : List Piece} : InQuotes rule line p → n < p.start →
      (∀ q, InQuotes rule line q → n < q.start → p.start ≤ q.start) →
      Chosen rule line (p.stop + 1) ps → Chosen rule line n (p :: ps)

/-! ## Two paths in quotes -/

/-- Behind an opening quote there is one path at most. -/
theorem InQuotes.unique (hp : InQuotes rule line p) (hq : InQuotes rule line q)
    (hsame : p.start = q.start) : p = q := by
  obtain ⟨front, quote, back, hline, hstart, -, hnot, -⟩ := hp.stands
  obtain ⟨front', quote', back', hline', hstart', -, hnot', -⟩ := hq.stands
  obtain ⟨-, hrest⟩ := append_inj_of_width (hline.symm.trans hline') (by omega)
  obtain ⟨rfl, hrest⟩ := List.cons.inj hrest
  have hsplit := splitFirst?_append_cons hnot back
  rw [hrest, splitFirst?_append_cons hnot' back'] at hsplit
  have htext : q.text = p.text := (Prod.mk.inj (Option.some.inj hsplit)).1
  cases p
  cases q
  simp_all

theorem isQuote_eq_false {c : Char} (h : isPathChar c = true) : isQuote c = false := by
  rw [isQuote, Bool.or_eq_false_iff, beq_eq_false_iff_ne, beq_eq_false_iff_ne]
  constructor <;> rintro rfl <;> exact absurd h (by decide)

/-- The last character of a path is a letter or a digit. -/
theorem isAlphanum_last {cs : List Char} (h : rule.accepts cs = true) :
    cs.getLast?.any Char.isAlphanum = true := by
  obtain ⟨stem, extension, rfl, -, hne, halnum⟩ := exists_extension h
  have hlast : (stem ++ '.' :: extension).getLast? = some (extension.getLast hne) := by
    rw [List.getLast?_append_of_ne_nil _ (by simp), List.getLast?_cons,
      List.getLast?_eq_some_getLast hne]
    rfl
  rw [hlast, Option.any_some]
  exact halnum _ (List.getLast_mem hne)

/--
**Of two paths in quotes one is behind the other**, and their quotes are four. A quote inside a
path would be no character of a path, and one behind a path would have a letter or a digit
before it.
-/
theorem InQuotes.behind (hp : InQuotes rule line p) (hq : InQuotes rule line q)
    (hlt : p.start < q.start) : p.stop + 1 < q.start := by
  obtain ⟨front, quote, back, hline, hstart, hquote, -, -⟩ := hp.stands
  obtain ⟨front', quote', back', hline', hstart', hquote', -, hbefore⟩ := hq.stands
  have hsize := utf8Size_of_isQuote hquote
  have hstop : p.stop = p.start + width p.text := rfl
  by_contra hnear
  -- the second path is opened behind the first quote, and no further on than the closing one
  have hsame : (front ++ [quote]) ++ (p.text ++ quote :: back) =
      front' ++ quote' :: (q.text ++ quote' :: back') := by
    rw [List.append_assoc, List.singleton_append, ← hline, hline']
  obtain ⟨mid, rfl⟩ : front ++ [quote] <+: front' :=
    prefix_of_width_le ⟨_, hsame⟩ (List.prefix_append _ _) (by simp [hsize]; omega)
  have hrest := List.append_cancel_left (hsame.trans (List.append_assoc _ _ _))
  obtain ⟨more, hmore⟩ : mid <+: p.text := by
    refine prefix_of_width_le ⟨_, hrest.symm⟩ (List.prefix_append _ _) ?_
    simp only [width_append, width_cons, width_nil, hsize] at hstart'
    omega
  cases more with
  | nil =>
      obtain rfl : mid = p.text := by simpa using hmore
      rw [List.getLast?_append_of_ne_nil _ (some_of_accepts hp.path).1, isAlphanum_last hp.path]
        at hbefore
      exact Bool.noConfusion hbefore
  | cons c more =>
      rw [← hmore, List.append_assoc] at hrest
      obtain ⟨rfl, -⟩ := List.cons.inj (List.append_cancel_left hrest)
      have hchar := isPathChar_of_accepts hp.path c (by rw [← hmore]; simp)
      exact Bool.noConfusion (hquote'.symm.trans (isQuote_eq_false hchar))

/-! ## The rule -/

theorem Chosen.lt_of_mem {ps : List Piece} (h : Chosen rule line n ps) (hp : p ∈ ps) :
    n < p.start := by
  induction h with
  | none => exact absurd hp List.not_mem_nil
  | @next n first ps _ hlt _ _ ih =>
      rcases List.mem_cons.mp hp with rfl | hp
      · exact hlt
      · have hstop : first.stop = first.start + width first.text := rfl
        have := ih hp
        omega

/-- What is chosen is chosen once. -/
theorem Chosen.unique {ps qs : List Piece} (hps : Chosen rule line n ps)
    (hqs : Chosen rule line n qs) : ps = qs := by
  induction hps generalizing qs with
  | none hnone =>
      cases hqs with
      | none => rfl
      | next hq hlt => exact absurd (hnone _ hq) (Nat.not_le.mpr hlt)
  | next hp hlt hfirst _ ih =>
      cases hqs with
      | none hnone => exact absurd (hnone _ hp) (Nat.not_le.mpr hlt)
      | next hq hlt' hfirst' hrest =>
          obtain rfl := hp.unique hq (Nat.le_antisymm (hfirst _ hq hlt') (hfirst' _ hp hlt))
          rw [ih hrest]

/-- **All paths in quotes are chosen**: the one that is chosen first hides none of the others. -/
theorem Chosen.mem_iff {ps : List Piece} (h : Chosen rule line n ps) :
    p ∈ ps ↔ InQuotes rule line p ∧ n < p.start := by
  induction h with
  | none hnone =>
      refine iff_of_false List.not_mem_nil fun hp => ?_
      exact absurd (hnone _ hp.1) (Nat.not_le.mpr hp.2)
  | @next n first ps hin hlt hfirst _ ih =>
      rw [List.mem_cons, ih]
      constructor
      · rintro (rfl | ⟨hp, hbehind⟩)
        · exact ⟨hin, hlt⟩
        · have hstop : first.stop = first.start + width first.text := rfl
          exact ⟨hp, by omega⟩
      · rintro ⟨hp, hn⟩
        rcases Nat.eq_or_lt_of_le (hfirst p hp hn) with hsame | hlater
        · exact .inl (hp.unique hin hsame.symm)
        · exact .inr ⟨hp, hin.behind hp hlater⟩

theorem Chosen.pairwise {ps : List Piece} (h : Chosen rule line n ps) :
    ps.Pairwise fun a b => a.stop + 1 < b.start := by
  induction h with
  | none => exact .nil
  | next _ _ _ hrest ih => exact .cons (fun _ hq => hrest.lt_of_mem hq) ih

/-- One may begin to choose earlier if nothing is opened in between. -/
theorem Chosen.earlier {m : Nat} {ps : List Piece} (h : Chosen rule line n ps) (hle : m ≤ n)
    (hgap : ∀ q, InQuotes rule line q → m < q.start → n < q.start) : Chosen rule line m ps := by
  cases h with
  | none hnone =>
      refine .none fun q hq => ?_
      by_contra hlt
      exact absurd (hnone q hq) (Nat.not_le.mpr (hgap q hq (Nat.not_le.mp hlt)))
  | next hp hlt hfirst hrest =>
      exact .next hp (Nat.lt_of_le_of_lt hle hlt) (fun q hq hm => hfirst q hq (hgap q hq hm)) hrest

/-! ## The reader -/

/-- At a place of a line the recogniser finds a path exactly if one is in quotes that open there. -/
theorem quotedPath_iff_inQuotes {front cs inside : List Char} :
    quotedPath rule front.getLast? cs = some (inside, inside.length + 2) ↔
      InQuotes rule (front ++ cs) ⟨width front + 1, inside⟩ := by
  constructor
  · intro h
    unfold quotedPath at h
    split at h
    · exact absurd h (by simp)
    · rename_i quote rest
      split at h
      · rename_i hquote
        rw [Bool.and_eq_true, Bool.not_eq_true'] at hquote
        split at h
        · rename_i found back hsplit
          split at h
          · rename_i hpath
            obtain ⟨rfl, -⟩ := Prod.mk.inj (Option.some.inj h)
            rw [← append_of_splitFirst? hsplit]
            exact ⟨hpath, front, quote, back, rfl, rfl, hquote.1, not_mem_of_splitFirst? hsplit,
              hquote.2⟩
          · exact absurd h (by simp)
        · exact absurd h (by simp)
      · exact absurd h (by simp)
  · rintro ⟨hpath, front', quote, back, hline, hstart, hquote, hnot, hbefore⟩
    obtain ⟨rfl, rfl⟩ := append_inj_of_width hline (Nat.succ_inj.mp hstart)
    rw [quotedPath, hquote, hbefore, splitFirst?_append_cons hnot]
    simp only [Bool.not_false, Bool.and_self, if_true]
    exact if_pos hpath

/-- Where nothing is found, no path is in quotes that open at the character at hand. -/
theorem InQuotes.past {front cs : List Char} {c : Char}
    (hnone : quotedPath rule front.getLast? (c :: cs) = none)
    (hq : InQuotes rule (front ++ c :: cs) q) (hlt : width front < q.start) :
    width front + c.utf8Size < q.start := by
  obtain ⟨before, quote, back, hline, hstart, -⟩ := hq.stands
  obtain ⟨mid, rfl⟩ : front <+: before :=
    prefix_of_width_le ⟨_, hline⟩ (List.prefix_append _ _) (by omega)
  cases mid with
  | nil =>
      have hhere : q = ⟨width front + 1, q.text⟩ := by
        rw [List.append_nil] at hstart
        rw [← hstart]
      rw [hhere] at hq
      exact absurd (quotedPath_iff_inQuotes.mpr hq) (by simp [hnone])
  | cons d mid =>
      rw [List.append_assoc] at hline
      obtain ⟨rfl, -⟩ := List.cons.inj (List.append_cancel_left hline)
      rw [width_append, width_cons] at hstart
      omega

/--
**The reader chooses**, by induction over what it has still to go through. What it passes over
after a path is that path and its closing quote, and where it finds nothing it goes on behind
the character at hand.
-/
theorem chosen_matchesFrom (rule : CandidateRule) (front : List Char) (skip : Nat) (cs : List Char) :
    Chosen rule (front ++ cs) (width front + width (cs.take skip))
      ((matchesFrom (quotedPath rule) (width front) front.getLast? skip cs).map
        fun m => ⟨m.1 + 1, m.2⟩) := by
  induction cs generalizing front skip with
  | nil =>
      refine .none fun q hq => ?_
      obtain ⟨before, quote, back, hline, hstart, hquote, -, -⟩ := hq.stands
      have hwidth := congrArg width hline
      simp only [List.append_nil, width_append, width_cons, utf8Size_of_isQuote hquote] at hwidth
      simp only [List.take_nil, width_nil]
      omega
  | cons c cs ih =>
      have hlater : ∀ skip, Chosen rule (front ++ c :: cs)
          (width front + c.utf8Size + width (cs.take skip))
          ((matchesFrom (quotedPath rule) (width front + c.utf8Size) (some c) skip cs).map
            fun m => ⟨m.1 + 1, m.2⟩) := by
        intro skip
        have hnext := ih (front ++ [c]) skip
        rwa [width_append, width_cons, width_nil, Nat.add_zero, List.getLast?_concat,
          List.append_assoc] at hnext
      cases skip with
      | succ skip =>
          rw [matchesFrom, List.take_succ_cons, width_cons, ← Nat.add_assoc]
          exact hlater skip
      | zero =>
          rw [matchesFrom, List.take_zero, width_nil, Nat.add_zero]
          split
          · rename_i inside length hfind
            obtain ⟨quote, back, hcs, rfl, hsize, -⟩ := quotedPath_eq_some hfind
            obtain ⟨rfl, hcs⟩ := List.cons.inj hcs
            have hpassed : cs.take (inside.length + 2 - 1) = inside ++ [c] := by
              have happend : cs = (inside ++ [c]) ++ back := by simpa using hcs
              rw [happend]
              exact List.take_left' (by simp)
            have hrest := hlater (inside.length + 2 - 1)
            have hstop : width front + c.utf8Size + width (cs.take (inside.length + 2 - 1)) =
                (⟨width front + 1, inside⟩ : Piece).stop + 1 := by
              rw [hpassed, width_append, width_cons, width_nil, hsize]
              rfl
            rw [hstop] at hrest
            exact .next (quotedPath_iff_inQuotes.mp hfind) (Nat.lt_succ_self _) (fun _ _ hn => hn) hrest
          · rename_i hnone
            have hrest := hlater 0
            rw [List.take_zero, width_nil, Nat.add_zero] at hrest
            exact hrest.earlier (Nat.le_add_right _ _) fun q hq hn => hq.past hnone hn

theorem chosen_quotedPaths (rule : CandidateRule) (line : List Char) :
    Chosen rule line 0 (quotedPaths rule line) := by
  have hchosen := chosen_matchesFrom rule [] 0 line
  rw [List.nil_append, List.take_zero, width_nil] at hchosen
  exact hchosen

theorem mem_quotedPaths : p ∈ quotedPaths rule line ↔ InQuotes rule line p := by
  rw [(chosen_quotedPaths rule line).mem_iff, and_iff_left_iff_imp]
  intro hp
  obtain ⟨front, quote, back, -, hstart, -⟩ := hp.stands
  omega

/--
**The reader of quotes misses no path.**

Read from the left to the right, the rule for quotes chooses one list of pieces on every line,
and this is what is found. The pieces come in the order of their places, each with its quotes
behind the closing quote of the one before it. And they are all the paths in quotes that the
line has: a quote that has no second one or no path behind it, an apostrophe, or a quote of the
other kind hides none of them, and neither does a path that has been found.
-/
theorem quotedPaths_exhaustive (rule : CandidateRule) (line : List Char) :
    (∀ pieces, Chosen rule line 0 pieces ↔ pieces = quotedPaths rule line) ∧
      ((quotedPaths rule line).Pairwise fun a b => a.stop + 1 < b.start) ∧
      ∀ p, p ∈ quotedPaths rule line ↔ InQuotes rule line p := by
  have hchosen := chosen_quotedPaths rule line
  refine ⟨fun pieces => ⟨fun h => h.unique hchosen, ?_⟩, hchosen.pairwise, fun p => mem_quotedPaths⟩
  rintro rfl
  exact hchosen

/-- An apostrophe, and quotes of both kinds that have no second one or no path behind them. -/
example : quotedPaths ⟨["md"]⟩ "it's a \"so 'docs/a.md' and \"b.md\" said".toList =
    [⟨12, "docs/a.md".toList⟩, ⟨28, "b.md".toList⟩] := by
  decide +kernel

/-- **A line of Markdown refers to all its paths in quotes** but those that share a byte with a link. -/
theorem Markdown.mem_lineReferences_and_quoted {source : String} {number : Nat} {r : Reference} :
    (r ∈ lineReferences rule source number line ∧ r.kind = .markdownQuoted) ↔
      ∃ p, InQuotes rule line p ∧ (∀ l ∈ links line, p.span.Apart l.whole) ∧
        r = referTo source number .markdownQuoted p := by
  have hquoted : ∀ p, p ∈ unclaimed ((links line).map (·.whole)) (quotedPaths rule line) ↔
      InQuotes rule line p ∧ ∀ l ∈ links line, p.span.Apart l.whole := by
    intro p
    rw [mem_unclaimed, mem_quotedPaths, List.forall_mem_map]
  unfold lineReferences
  dsimp only
  rw [List.mem_append, List.mem_append, List.mem_map, List.mem_map, List.mem_map]
  constructor
  · rintro ⟨(⟨l, -, rfl⟩ | ⟨p, hp, rfl⟩) | ⟨p, -, rfl⟩, hkind⟩
    · exact ReferenceKind.noConfusion hkind
    · exact ⟨p, ((hquoted p).mp hp).1, ((hquoted p).mp hp).2, rfl⟩
    · exact ReferenceKind.noConfusion hkind
  · rintro ⟨p, hin, hapart, rfl⟩
    exact ⟨.inl (.inr ⟨p, (hquoted p).mpr ⟨hin, hapart⟩, rfl⟩), rfl⟩

end LinkKeeper.Links
