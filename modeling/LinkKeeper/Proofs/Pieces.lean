import LinkKeeper.Links.Markdown
import LinkKeeper.Links.Plain
import LinkKeeper.Proofs.Matches

/-!
# The pieces that a line gives

For each way of writing a link, the pieces that are taken out of a line stand where they
say and share no byte, with each other and with what was taken out before. Markdown and
any other text differ in what they look for, and in nothing that matters here.
-/

namespace LinkKeeper

open Text

namespace Links

/-- A character that ends no line. -/
def InLine (c : Char) : Prop := c ≠ '\n' ∧ c ≠ '\r'

/-- Pieces of a line that stand where they say, are not empty, and share no byte. -/
structure Placed (line : List Char) (pieces : List Piece) : Prop where
  on : ∀ p ∈ pieces, p.On line
  some : ∀ p ∈ pieces, p.text ≠ [] ∧ ∀ c ∈ p.text, InLine c
  apart : pieces.Pairwise fun a b => a.span.Apart b.span

variable {line : List Char} {rule : CandidateRule}

theorem Placed.nil (line : List Char) : Placed line [] :=
  ⟨by simp, by simp, .nil⟩

theorem Placed.sublist {pieces fewer : List Piece} (h : Placed line pieces)
    (hs : fewer.Sublist pieces) : Placed line fewer :=
  ⟨fun p hp => h.on p (hs.mem hp), fun p hp => h.some p (hs.mem hp), h.apart.sublist hs⟩

theorem Placed.append {as bs : List Piece} (ha : Placed line as) (hb : Placed line bs)
    (hab : ∀ a ∈ as, ∀ b ∈ bs, a.span.Apart b.span) : Placed line (as ++ bs) where
  on := fun p hp => (List.mem_append.mp hp).elim (ha.on p) (hb.on p)
  some := fun p hp => (List.mem_append.mp hp).elim (ha.some p) (hb.some p)
  apart := List.pairwise_append.mpr ⟨ha.apart, hb.apart, hab⟩

/-! ## Words that are paths -/

theorem hasPathShape_of_accepts {cs : List Char} (h : rule.accepts cs = true) :
    hasPathShape cs = true := by
  unfold CandidateRule.accepts at h
  simp only [Bool.and_eq_true] at h
  exact h.1.2

theorem isPathChar_of_accepts {cs : List Char} (h : rule.accepts cs = true) :
    ∀ c ∈ cs, isPathChar c = true := by
  intro c hc
  have hshape := hasPathShape_of_accepts h
  rw [hasPathShape, Bool.and_eq_true] at hshape
  exact List.all_eq_true.mp hshape.1 c hc

/-- What counts as a path ends in an extension of letters and digits. -/
theorem exists_extension {cs : List Char} (h : rule.accepts cs = true) :
    ∃ stem extension, cs = stem ++ '.' :: extension ∧ stem ≠ [] ∧ extension ≠ [] ∧
      ∀ c ∈ extension, c.isAlphanum = true := by
  have hshape := hasPathShape_of_accepts h
  rw [hasPathShape, Bool.and_eq_true] at hshape
  obtain ⟨-, hshape⟩ := hshape
  split at hshape
  · rename_i stem extension hsplit
    simp only [Bool.and_eq_true, Bool.not_eq_true', List.isEmpty_eq_false_iff,
      List.all_eq_true] at hshape
    exact ⟨stem, extension, (append_of_splitLast? hsplit).symm, hshape.1.1, hshape.1.2, hshape.2⟩
  · exact absurd hshape (by simp)

theorem inLine_of_isPathChar {c : Char} (h : isPathChar c = true) : InLine c := by
  constructor <;> rintro rfl <;> exact absurd h (by decide)

theorem some_of_accepts {cs : List Char} (h : rule.accepts cs = true) :
    cs ≠ [] ∧ ∀ c ∈ cs, InLine c := by
  refine ⟨?_, fun c hc => inLine_of_isPathChar (isPathChar_of_accepts h c hc)⟩
  rintro rfl
  unfold CandidateRule.accepts at h
  simp at h

/-- A run is what a text begins with of the class, and it is something. -/
theorem runOf_eq_some {p : Char → Bool} {before : Option Char} {cs run : List Char} {length : Nat}
    (h : runOf p before cs = some (run, length)) :
    run = cs.takeWhile p ∧ run ≠ [] ∧ length = run.length := by
  unfold runOf at h
  split at h
  · exact absurd h (by simp)
  · rename_i hne
    obtain ⟨rfl, rfl⟩ := Prod.mk.inj (Option.some.inj h)
    exact ⟨rfl, hne, rfl⟩

theorem on_of_mem_runs {p : Char → Bool} {q : Piece} (hq : q ∈ runs p line) : q.On line := by
  obtain ⟨⟨column, text⟩, hm, rfl⟩ := List.mem_map.mp hq
  obtain ⟨ahead, rest, before, length, hline, hcol, hfind⟩ := mem_matchesOf hm
  obtain ⟨rfl, -⟩ := runOf_eq_some hfind
  refine ⟨ahead, rest.dropWhile p, ?_, hcol⟩
  rw [hline, List.takeWhile_append_dropWhile]

/-- Runs come one behind the other. -/
theorem pairwise_runs (p : Char → Bool) (line : List Char) :
    (runs p line).Pairwise fun a b => a.stop ≤ b.start := by
  rw [runs, List.pairwise_map]
  refine pairwise_matchesOf width ?_ line
  intro before cs run length hfind
  obtain ⟨rfl, -, rfl⟩ := runOf_eq_some hfind
  have htake : cs.take (cs.takeWhile p).length = cs.takeWhile p :=
    (List.prefix_iff_eq_take.mp (List.takeWhile_prefix p)).symm
  exact Nat.le_of_eq (congrArg width htake).symm

theorem apart_runs (p : Char → Bool) (line : List Char) :
    (runs p line).Pairwise fun a b => a.span.Apart b.span :=
  (pairwise_runs p line).imp fun hab => .inl hab

/-- Paths among the runs of a line, with something taken off at their ends. -/
theorem placed_runs (rule : CandidateRule) (p front back : Char → Bool) {keeps : Piece → Bool}
    (hk : ∀ q, keeps q = true → rule.accepts q.text = true) (line : List Char) :
    Placed line (((runs p line).map (Piece.strip front back)).filter keeps) := by
  refine ⟨?_, ?_, (List.pairwise_map.mpr ?_).filter _⟩
  · intro q hq
    obtain ⟨whole, hw, rfl⟩ := List.mem_map.mp (List.mem_filter.mp hq).1
    exact ((on_of_mem_runs hw).strip front back).1
  · intro q hq
    exact some_of_accepts (hk q (List.mem_filter.mp hq).2)
  · refine (apart_runs p line).imp_of_mem fun ha hb hab => ?_
    have hwithin := ((on_of_mem_runs hb).strip front back).2
    exact ((hab.within hwithin).symm.within ((on_of_mem_runs ha).strip front back).2).symm

theorem placed_barePaths (rule : CandidateRule) (line : List Char) :
    Placed line (barePaths rule line) := by
  unfold barePaths words
  exact placed_runs rule _ _ _ (fun q hq => hq) line

theorem placed_pathRuns (rule : CandidateRule) (line : List Char) :
    Placed line (Plain.pathRuns rule line) := by
  unfold Plain.pathRuns
  refine placed_runs rule _ _ _ (fun q hq => ?_) line
  rw [Bool.and_eq_true] at hq
  exact hq.2

theorem utf8Size_of_isQuote {c : Char} (h : isQuote c = true) : c.utf8Size = 1 := by
  rw [isQuote, Bool.or_eq_true, beq_iff_eq, beq_iff_eq] at h
  rcases h with rfl | rfl <;> decide

theorem quotedPath_eq_some {before : Option Char} {cs inside : List Char} {length : Nat}
    (h : quotedPath rule before cs = some (inside, length)) :
    ∃ quote rest, cs = [quote] ++ (inside ++ quote :: rest) ∧ length = inside.length + 2 ∧
      quote.utf8Size = 1 ∧ rule.accepts inside = true := by
  unfold quotedPath at h
  split at h
  · exact absurd h (by simp)
  · rename_i quote rest
    split at h
    · rename_i hquote
      rw [Bool.and_eq_true] at hquote
      split at h
      · rename_i found after hsplit
        split at h
        · rename_i haccepts
          obtain ⟨rfl, rfl⟩ := Prod.mk.inj (Option.some.inj h)
          refine ⟨quote, after, ?_, rfl, utf8Size_of_isQuote hquote.1, haccepts⟩
          rw [append_of_splitFirst? hsplit]
          rfl
        · exact absurd h (by simp)
      · exact absurd h (by simp)
    · exact absurd h (by simp)

/-- A quoted path stands between its quotes, and these belong to no other. -/
theorem placed_quotedPaths (rule : CandidateRule) (line : List Char) :
    Placed line (quotedPaths rule line) := by
  refine ⟨?_, ?_, ?_⟩
  · intro q hq
    obtain ⟨⟨column, inside⟩, hm, rfl⟩ := List.mem_map.mp hq
    obtain ⟨ahead, rest, before, length, hline, hcol, hfind⟩ := mem_matchesOf hm
    obtain ⟨quote, after, hrest, -, hsize, -⟩ := quotedPath_eq_some hfind
    refine ⟨ahead ++ [quote], quote :: after, ?_, ?_⟩
    · rw [hline, hrest]
      simp
    · show column + 1 = _
      have hcolumn : column = width ahead := hcol
      simp [hcolumn, hsize]
  · intro q hq
    obtain ⟨⟨column, inside⟩, hm, rfl⟩ := List.mem_map.mp hq
    obtain ⟨ahead, rest, before, length, -, -, hfind⟩ := mem_matchesOf hm
    obtain ⟨quote, after, -, -, -, haccepts⟩ := quotedPath_eq_some hfind
    exact some_of_accepts haccepts
  · have hextent : ∀ before cs inside length,
        quotedPath rule before cs = some (inside, length) →
          2 + width inside ≤ width (cs.take length) := by
      intro before cs inside length hfind
      obtain ⟨quote, after, rfl, rfl, hsize, -⟩ := quotedPath_eq_some hfind
      have htake : ([quote] ++ (inside ++ quote :: after)).take (inside.length + 2) =
          [quote] ++ (inside ++ [quote]) := by
        rw [List.singleton_append, List.take_succ_cons, List.take_append,
          List.take_of_length_le (Nat.le_succ _)]
        simp
      rw [htake]
      simp only [width_append, width_cons, width_nil]
      omega
    rw [quotedPaths, List.pairwise_map]
    refine (pairwise_matchesOf _ hextent line).imp fun {a b} hab => .inl ?_
    show a.1 + 1 + width a.2 ≤ b.1 + 1
    omega

/-! ## Inline links -/

namespace Markdown

theorem inLine_of_isTargetChar {c : Char} (h : isTargetChar c = true) : InLine c := by
  constructor <;> rintro rfl <;> exact absurd h (by decide)

/-- What follows a link ends the text behind its target. -/
theorem exists_of_closing? {cs rest : List Char} (h : closing? cs = some rest) :
    ∃ mid, cs = mid ++ rest := by
  have hblank : ∀ ds : List Char, ds = ds.takeWhile isBlank ++ ds.dropWhile isBlank := fun ds =>
    List.takeWhile_append_dropWhile.symm
  have hcs := hblank cs
  unfold closing? at h
  split at h
  · rename_i after heq
    obtain rfl := Option.some.inj h
    rw [heq] at hcs
    exact ⟨cs.takeWhile isBlank ++ [')'], by rw [List.append_assoc]; exact hcs⟩
  · rename_i quote more _ heq
    rw [heq] at hcs
    split at h
    · split at h
      · rename_i title after hsplit
        split at h
        · rename_i last hlast
          obtain rfl := Option.some.inj h
          have hafter := hblank after
          rw [hlast] at hafter
          have hmore := append_of_splitFirst? hsplit
          refine ⟨cs.takeWhile isBlank ++ (quote :: (title ++ quote ::
            (after.takeWhile isBlank ++ [')']))), ?_⟩
          rw [← hmore, hafter] at hcs
          simpa using hcs
        · exact absurd h (by simp)
      · exact absurd h (by simp)
    · exact absurd h (by simp)
  · exact absurd h (by simp)

/-- A link whose target has been found: the text is what comes before the target, the target, what closes the link, and the rest. -/
structure FoundAt (cs : List Char) (found : Found) (length : Nat) : Prop where
  stands : ∃ front mid rest, cs = front ++ (found.2.1.text ++ (mid ++ rest)) ∧
    found.2.1.start = width front ∧ found.2.2 = width (front ++ (found.2.1.text ++ mid)) ∧
    length = (front ++ (found.2.1.text ++ mid)).length
  some : found.2.1.text ≠ [] ∧ ∀ c ∈ found.2.1.text, InLine c

theorem destination?_eq_some {cs rest : List Char} {p : Piece}
    (h : destination? cs = some (p, rest)) :
    (∃ lead mid, cs = lead ++ (p.text ++ (mid ++ rest)) ∧ p.start = width lead) ∧
      p.text ≠ [] ∧ ∀ c ∈ p.text, InLine c := by
  unfold destination? at h
  dsimp only at h
  split at h
  · exact absurd h (by simp)
  · rename_i hne
    obtain ⟨after, hclose, hpair⟩ := Option.map_eq_some_iff.mp h
    obtain ⟨rfl, rfl⟩ := Prod.mk.inj hpair
    obtain ⟨mid, hmid⟩ := exists_of_closing? hclose
    refine ⟨⟨cs.takeWhile isBlank, mid, ?_, rfl⟩, fun hnil => hne hnil, ?_⟩
    · rw [← hmid, List.takeWhile_append_dropWhile, List.takeWhile_append_dropWhile]
    · intro c hc
      exact inLine_of_isTargetChar (List.all_eq_true.mp List.all_takeWhile c hc)

theorem foundAt_of_found? {opening cs : List Char} {text : Option (List Char)} {found : Found}
    {length : Nat} (h : found? opening text cs = some (found, length)) :
    FoundAt (opening ++ cs) found length := by
  unfold found? at h
  obtain ⟨⟨target, rest⟩, hdest, hpair⟩ := Option.map_eq_some_iff.mp h
  obtain ⟨⟨lead, mid, hcs, hstart⟩, hsome⟩ := destination?_eq_some hdest
  have hbehind : cs.take (cs.length - rest.length) = lead ++ (target.text ++ mid) := by
    have hsplit : cs = (lead ++ (target.text ++ mid)) ++ rest := by
      rw [hcs]
      simp only [List.append_assoc]
    rw [hsplit, List.length_append, Nat.add_sub_cancel, List.take_left']
    rfl
  dsimp only at hpair
  rw [hbehind] at hpair
  obtain ⟨rfl, rfl⟩ := Prod.mk.inj hpair
  refine ⟨⟨opening ++ lead, mid, rest, ?_, ?_, ?_, ?_⟩, hsome⟩
  · show opening ++ cs = opening ++ lead ++ (target.text ++ (mid ++ rest))
    rw [hcs, List.append_assoc]
  · show width opening + target.start = width (opening ++ lead)
    rw [hstart, width_append]
  · show width opening + width (lead ++ (target.text ++ mid)) =
      width (opening ++ lead ++ (target.text ++ mid))
    simp only [width_append]
    omega
  · show opening.length + (lead ++ (target.text ++ mid)).length =
      (opening ++ lead ++ (target.text ++ mid)).length
    simp only [List.length_append]
    omega

theorem foundAt_inlineLink {before : Option Char} {cs : List Char} {found : Found} {length : Nat}
    (h : inlineLink before cs = some (found, length)) : FoundAt cs found length := by
  unfold inlineLink at h
  split at h
  · rename_i inside
    dsimp only at h
    split at h
    · rename_i rest heq
      have hfound := foundAt_of_found? h
      have hinside := List.takeWhile_append_dropWhile (p := fun c => !(c == '[' || c == ']'))
        (l := inside)
      rw [heq] at hinside
      rw [← hinside]
      simpa using hfound
    · exact absurd h (by simp)
  · exact absurd h (by simp)

theorem foundAt_imageLinkEnd {before : Option Char} {cs : List Char} {found : Found} {length : Nat}
    (h : imageLinkEnd before cs = some (found, length)) : FoundAt cs found length := by
  unfold imageLinkEnd at h
  split at h
  · exact foundAt_of_found? h
  · exact absurd h (by simp)

/-- The links that are found in one way share no byte. -/
theorem apart_wholes {find : Recogniser Found}
    (hfind : ∀ {before cs found length}, find before cs = some (found, length) →
      FoundAt cs found length) (line : List Char) :
    (linksOf find line).Pairwise fun a b => a.whole.Apart b.whole := by
  have hextent : ∀ before cs found length, find before cs = some (found, length) →
      found.2.2 ≤ width (cs.take length) := by
    intro before cs found length hrec
    obtain ⟨⟨front, mid, last, hcs, -, hbytes, hlength⟩, -⟩ := hfind hrec
    have hsplit : cs = (front ++ (found.2.1.text ++ mid)) ++ last := by
      rw [hcs]
      simp only [List.append_assoc]
    have htake : cs.take length = front ++ (found.2.1.text ++ mid) := by
      rw [hsplit, hlength, List.take_left' rfl]
    rw [htake]
    exact Nat.le_of_eq hbytes
  rw [linksOf, List.pairwise_map]
  exact (pairwise_matchesOf (fun found => found.2.2) hextent line).imp fun hab => .inl hab

/-- The targets of the links that are found in one way, each within its link. -/
theorem placed_linksOf {find : Recogniser Found}
    (hfind : ∀ {before cs found length}, find before cs = some (found, length) →
      FoundAt cs found length) (line : List Char) :
    Placed line ((linksOf find line).map (·.target)) ∧
      ∀ l ∈ linksOf find line, l.target.span.Within l.whole := by
  have hon : ∀ l ∈ linksOf find line,
      (l.target.On line ∧ l.target.text ≠ [] ∧ ∀ c ∈ l.target.text, InLine c) ∧
        l.target.span.Within l.whole := by
    intro l hl
    obtain ⟨⟨column, text, target, bytes⟩, hm, rfl⟩ := List.mem_map.mp hl
    obtain ⟨ahead, rest, before, length, hline, hcol, hrec⟩ := mem_matchesOf hm
    obtain ⟨⟨front, mid, last, hrest, hstart, hbytes, -⟩, hsome⟩ := hfind hrec
    dsimp only at hcol hrest hstart hbytes hsome ⊢
    refine ⟨⟨?_, hsome⟩, ?_, ?_⟩
    · have hon : target.On rest := ⟨front, mid ++ last, hrest, hstart⟩
      rw [hline, hcol]
      exact hon.shift ahead
    · show column ≤ column + target.start
      omega
    · show (target.shift column).stop ≤ column + bytes
      rw [Piece.stop_shift, Piece.stop, hbytes, hstart]
      simp only [width_append]
      omega
  refine ⟨⟨?_, ?_, ?_⟩, fun l hl => (hon l hl).2⟩
  · intro q hq
    obtain ⟨l, hl, rfl⟩ := List.mem_map.mp hq
    exact (hon l hl).1.1
  · intro q hq
    obtain ⟨l, hl, rfl⟩ := List.mem_map.mp hq
    exact (hon l hl).1.2
  · rw [List.pairwise_map]
    refine (apart_wholes hfind line).imp_of_mem fun ha hb hab => ?_
    exact ((hab.within (hon _ hb).2).symm.within (hon _ ha).2).symm

theorem placed_links (line : List Char) :
    Placed line ((links line).map (·.target)) ∧ ∀ l ∈ links line, l.target.span.Within l.whole := by
  obtain ⟨hinline, hinlineWithin⟩ := placed_linksOf foundAt_inlineLink line
  obtain ⟨himage, himageWithin⟩ := placed_linksOf foundAt_imageLinkEnd line
  unfold links
  dsimp only
  refine ⟨?_, ?_⟩
  · rw [List.map_append]
    refine hinline.append (himage.sublist (List.filter_sublist.map _)) ?_
    intro a ha b hb
    obtain ⟨l, hl, rfl⟩ := List.mem_map.mp ha
    obtain ⟨m, hm, rfl⟩ := List.mem_map.mp hb
    have hclaimed := (List.mem_filter.mp hm).2
    rw [Bool.not_eq_true', Span.isClaimed_eq_false] at hclaimed
    have hapart := hclaimed l.whole (List.mem_map_of_mem hl)
    exact (hapart.within (hinlineWithin l hl)).symm
  · intro l hl
    rcases List.mem_append.mp hl with hl | hl
    · exact hinlineWithin l hl
    · exact himageWithin l (List.mem_filter.mp hl).1

end Markdown

/-! ## Paths in programs -/

namespace Plain

theorem importPath_eq_some {before : Option Char} {cs : List Char} {p : Piece} {length : Nat}
    (h : importPath before cs = some (p, length)) :
    ∃ front rest, cs = front ++ (p.text ++ rest) ∧ p.start = width front ∧
      front.length + p.text.length ≤ length := by
  unfold importPath at h
  split at h
  · exact absurd h (by simp)
  · obtain ⟨word, hword, h⟩ := Option.bind_eq_some_iff.mp h
    have hpre := List.find?_some hword
    obtain ⟨after, rfl⟩ := List.isPrefixOf_iff_prefix.mp hpre
    have hdrop : (word.toList ++ after).drop word.length = after := by
      rw [← String.length_toList]
      exact List.drop_left' rfl
    dsimp only at h
    rw [hdrop] at h
    split at h
    · exact absurd h (by simp)
    · split at h
      · rename_i quote rest heq
        split at h
        · rename_i hcond
          rw [Bool.and_eq_true, Bool.and_eq_true] at hcond
          obtain ⟨rfl, rfl⟩ := Prod.mk.inj (Option.some.inj h)
          have hgap := List.takeWhile_append_dropWhile (p := fun c => isBlank c || c == '(')
            (l := after)
          rw [heq] at hgap
          refine ⟨word.toList ++ (after.takeWhile (fun c => isBlank c || c == '(') ++ [quote]),
            rest.dropWhile fun c => !isQuote c, ?_, ?_, ?_⟩
          · conv_lhs => rw [← hgap]
            simp
          · simp only [width_append, width_cons, width_nil, utf8Size_of_isQuote hcond.1.1]
            omega
          · simp only [List.length_append, List.length_singleton, String.length_toList]
            omega
        · exact absurd h (by simp)
      · exact absurd h (by simp)

theorem placed_imported (rule : CandidateRule) (line : List Char) :
    Placed line (((matchesOf importPath line).map fun (column, p) => p.shift column).filter
      fun p => rule.accepts p.text) := by
  refine ⟨?_, fun q hq => some_of_accepts (List.mem_filter.mp hq).2, .filter _ ?_⟩
  · intro q hq
    obtain ⟨⟨column, p⟩, hm, rfl⟩ := List.mem_map.mp (List.mem_filter.mp hq).1
    obtain ⟨ahead, rest, before, length, hline, hcol, hrec⟩ := mem_matchesOf hm
    obtain ⟨front, last, hrest, hstart, -⟩ := importPath_eq_some hrec
    have hon : p.On rest := ⟨front, last, hrest, hstart⟩
    show (p.shift column).On line
    rw [hline, show column = width ahead from hcol]
    exact hon.shift ahead
  · have hextent : ∀ before cs p length, importPath before cs = some (p, length) →
        p.stop ≤ width (cs.take length) := by
      intro before cs p length hrec
      obtain ⟨front, last, hcs, hstart, hlength⟩ := importPath_eq_some hrec
      have hsplit : cs = (front ++ p.text) ++ last := by rw [hcs, List.append_assoc]
      have htake := @width_take_le cs _ _ hlength
      rw [hsplit, ← List.length_append, List.take_left' rfl, width_append] at htake
      rw [hsplit, Piece.stop, hstart]
      exact htake
    rw [List.pairwise_map]
    refine (pairwise_matchesOf _ hextent line).imp fun {a b} hab => .inl ?_
    show (a.2.shift a.1).stop ≤ b.1 + b.2.start
    rw [Piece.stop_shift]
    omega

theorem exists_of_comment?_go {column : Nat} {before : Option Char} {cs : List Char} {p : Piece}
    (h : comment?.go column before cs = some p) :
    ∃ front, cs = front ++ p.text ∧ p.start = column + width front := by
  induction cs generalizing column before with
  | nil => simp [comment?.go] at h
  | cons c cs ih =>
      rw [comment?.go] at h
      split at h
      · rename_i length _
        obtain rfl := Option.some.inj h
        exact ⟨(c :: cs).take length, (List.take_append_drop length (c :: cs)).symm, rfl⟩
      · obtain ⟨front, rfl, hstart⟩ := ih h
        exact ⟨c :: front, rfl, by rw [hstart, width_cons]; omega⟩

/-- The words of a comment, where they stand on the line. -/
theorem placed_comment {body : Piece} (h : comment? line = some body) :
    Placed line ((barePaths rule body.text).map (Piece.shift body.start)) := by
  obtain ⟨front, hline, hstart⟩ := exists_of_comment?_go h
  have hbody := placed_barePaths rule body.text
  rw [Nat.zero_add] at hstart
  refine ⟨?_, ?_, ?_⟩
  · intro q hq
    obtain ⟨p, hp, rfl⟩ := List.mem_map.mp hq
    have hon := (hbody.on p hp).shift front
    rw [hline, hstart]
    exact hon
  · intro q hq
    obtain ⟨p, hp, rfl⟩ := List.mem_map.mp hq
    exact hbody.some p hp
  · rw [List.pairwise_map]
    refine hbody.apart.imp fun {a b} hab => ?_
    have hab : a.stop ≤ b.start ∨ b.stop ≤ a.start := hab
    show (a.shift body.start).stop ≤ body.start + b.start ∨
      (b.shift body.start).stop ≤ body.start + a.start
    rw [Piece.stop_shift, Piece.stop_shift]
    omega

end Plain

end Links

/-! ## The references of a line -/

/-- The piece of its line that a reference is about. -/
def Reference.piece (r : Reference) : Piece := ⟨r.columnStart, r.target.toList⟩

namespace Links

@[simp] theorem piece_referTo (source : String) (number : Nat) (kind : ReferenceKind) (p : Piece) :
    (referTo source number kind p).piece = p := by
  rw [referTo, Reference.piece, String.toList_ofList]

/-- References that are about pieces of one line. -/
structure Given (number : Nat) (line : List Char) (references : List Reference) : Prop where
  placed : Placed line (references.map Reference.piece)
  line : ∀ r ∈ references, r.line = number
  ends : ∀ r ∈ references, r.columnEnd = r.piece.stop

theorem map_piece_referTo (source : String) (number : Nat) (kind : ReferenceKind)
    (pieces : List Piece) : (pieces.map (referTo source number kind)).map Reference.piece = pieces := by
  rw [List.map_map]
  have hid : Reference.piece ∘ referTo source number kind = id := by
    funext p
    exact piece_referTo source number kind p
  rw [hid, List.map_id]

theorem mem_map_referTo {source : String} {number : Nat} {kind : ReferenceKind}
    {pieces : List Piece} {r : Reference} (h : r ∈ pieces.map (referTo source number kind)) :
    r.line = number ∧ r.columnEnd = r.piece.stop := by
  obtain ⟨p, -, rfl⟩ := List.mem_map.mp h
  rw [piece_referTo]
  exact ⟨rfl, rfl⟩

theorem Markdown.given (rule : CandidateRule) (source : String) (number : Nat) (line : List Char) :
    Given number line (lineReferences rule source number line) := by
  obtain ⟨hlinks, hwithin⟩ := placed_links line
  have hinline : ((links line).filter fun l => !isExternal l.target.text).map (·.target) =
      (((links line).filter fun l => !isExternal l.target.text).map fun l =>
        { referTo source number .markdownInline l.target with
          anchorText := l.text.map String.ofList }).map Reference.piece := by
    rw [List.map_map]
    exact List.map_congr_left fun l _ => (piece_referTo source number .markdownInline l.target).symm
  have hquoted := (placed_quotedPaths rule line).sublist
    (List.filter_sublist (p := fun p => !p.span.isClaimed ((links line).map (·.whole))))
  have hquotedApart : ∀ q ∈ unclaimed ((links line).map (·.whole)) (quotedPaths rule line),
      ∀ l ∈ links line, l.target.span.Apart q.span := by
    intro q hq l hl
    have hapart := (mem_unclaimed.mp hq).2 l.whole (List.mem_map_of_mem hl)
    exact (hapart.within (hwithin l hl)).symm
  unfold lineReferences
  dsimp only
  refine ⟨?_, ?_, ?_⟩
  · rw [List.map_append, List.map_append, ← hinline, map_piece_referTo, map_piece_referTo]
    refine ((hlinks.sublist (List.filter_sublist.map _)).append hquoted ?_).append ?_ ?_
    · intro a ha b hb
      obtain ⟨l, hl, rfl⟩ := List.mem_map.mp ha
      exact hquotedApart b hb l (List.mem_filter.mp hl).1
    · split
      · exact (placed_barePaths rule line).sublist List.filter_sublist
      · exact .nil line
    · intro a ha b hb
      split at hb
      · -- without links all that is before the words are the paths in quotes
        rename_i hempty
        have hnone := List.isEmpty_iff.mp hempty
        rcases List.mem_append.mp ha with ha | ha
        · rw [hnone] at ha
          exact absurd ha (by simp)
        · have hapart := (mem_unclaimed.mp hb).2 _ (List.mem_map_of_mem ha)
          refine (hapart.within ⟨?_, ?_⟩).symm
          · show a.start - 1 ≤ a.start
            omega
          · show a.stop ≤ a.stop + 1
            omega
      · exact absurd hb (by simp)
  · intro r hr
    rcases List.mem_append.mp hr with hr | hr
    · rcases List.mem_append.mp hr with hr | hr
      · obtain ⟨l, -, rfl⟩ := List.mem_map.mp hr
        rfl
      · exact (mem_map_referTo hr).1
    · exact (mem_map_referTo hr).1
  · intro r hr
    rcases List.mem_append.mp hr with hr | hr
    · rcases List.mem_append.mp hr with hr | hr
      · obtain ⟨l, -, rfl⟩ := List.mem_map.mp hr
        exact congrArg Piece.stop (piece_referTo source number .markdownInline l.target).symm
      · exact (mem_map_referTo hr).2
    · exact (mem_map_referTo hr).2

theorem Plain.given (rule : CandidateRule) (source : String) (number : Nat) (line : List Char) :
    Given number line (lineReferences rule source number line) := by
  unfold lineReferences
  dsimp only
  generalize himported : ((matchesOf importPath line).map fun (column, p) => p.shift column).filter
    (fun p => rule.accepts p.text) = imported
  have hin : Placed line imported := himported ▸ placed_imported rule line
  generalize hquoted : unclaimed (imported.map Piece.span) (quotedPaths rule line) = quoted
  have hq : Placed line quoted :=
    hquoted ▸ (placed_quotedPaths rule line).sublist List.filter_sublist
  have hqin : ∀ a ∈ imported, ∀ b ∈ quoted, a.span.Apart b.span := by
    intro a ha b hb
    rw [← hquoted] at hb
    exact ((mem_unclaimed.mp hb).2 _ (List.mem_map_of_mem ha)).symm
  -- whatever is claimed is left alone by all that comes later
  have happend : ∀ {claimed later : List Piece}, Placed line claimed →
      (∀ b ∈ later, ∀ a ∈ claimed, b.span.Apart a.span) → Placed line later →
      Placed line (claimed ++ later) := fun hclaimed hapart hlater =>
    hclaimed.append hlater fun a ha b hb => (hapart b hb a ha).symm
  refine ⟨?_, ?_, ?_⟩
  · rw [List.map_append, List.map_append, List.map_append, map_piece_referTo, map_piece_referTo,
      map_piece_referTo, map_piece_referTo]
    refine happend (happend (hin.append hq hqin) ?_ ?_) ?_ ?_
    · split
      · simp
      · intro b hb a ha
        have hclaimed := List.mem_map_of_mem (f := Piece.span) ha
        rw [List.map_append] at hclaimed
        exact (mem_unclaimed.mp hb).2 a.span hclaimed
    · split
      · exact .nil line
      · rename_i body hbody
        exact (placed_comment hbody).sublist List.filter_sublist
    · split
      · simp
      · intro b hb a ha
        have hclaimed := List.mem_map_of_mem (f := Piece.span) ha
        rw [List.map_append, List.map_append] at hclaimed
        exact (mem_unclaimed.mp hb).2 a.span hclaimed
    · split
      · exact .nil line
      · exact (placed_pathRuns rule line).sublist List.filter_sublist
  · intro r hr
    rcases List.mem_append.mp hr with hr | hr
    · rcases List.mem_append.mp hr with hr | hr
      · rcases List.mem_append.mp hr with hr | hr <;> exact (mem_map_referTo hr).1
      · exact (mem_map_referTo hr).1
    · exact (mem_map_referTo hr).1
  · intro r hr
    rcases List.mem_append.mp hr with hr | hr
    · rcases List.mem_append.mp hr with hr | hr
      · rcases List.mem_append.mp hr with hr | hr <;> exact (mem_map_referTo hr).2
      · exact (mem_map_referTo hr).2
    · exact (mem_map_referTo hr).2

end Links

end LinkKeeper
