import LinkKeeper.Proofs.Lettering
import LinkKeeper.Proofs.Repathing

/-!
# A line whose link has another path

What is found on a line depends on all of it: the links around images are those among no
inline link, a path in quotes counts where no link has claimed its bytes, and bare words count
where there is no link at all. So when the path of a link is another one, the links of both
recognisers are followed first, then the paths in quotes, and then what each of them claims.

A path in quotes may well stand inside the path that goes. The link around it has claimed it,
and so nobody misses it.
-/

namespace LinkKeeper.Links.Markdown

open Text Swap

variable {line front path path' back tail : List Char} {l : Link}

/-! ## Where the target of a link stands -/

/-- Where a link has its target: behind `](` and blanks, and as long as it can be. -/
structure Aimed (line : List Char) (l : Link) (front back : List Char) : Prop where
  line : line = front ++ (l.target.text ++ back)
  column : l.target.start = width front
  opened : ∃ ahead gap, front = ahead ++ ']' :: '(' :: gap ∧ ∀ c ∈ gap, isBlank c = true
  some : l.target.text ≠ []
  chars : ∀ c ∈ l.target.text, isTargetChar c = true
  back : ∃ c more, back = c :: more ∧ isTargetChar c = false
  begins : l.whole.start < l.target.start

theorem exists_of_destination? {cs rest : List Char} {p : Piece}
    (h : destination? cs = some (p, rest)) :
    ∃ gap behind, cs = gap ++ (p.text ++ behind) ∧ p.start = width gap ∧
      (∀ c ∈ gap, isBlank c = true) ∧ (p.text ≠ [] ∧ ∀ c ∈ p.text, isTargetChar c = true) ∧
      ∃ c more, behind = c :: more ∧ isTargetChar c = false := by
  by_cases hnil : (cs.dropWhile isBlank).takeWhile isTargetChar = []
  · rw [destination?_eq_none hnil] at h
    exact absurd h (by simp)
  · rw [destination?_eq hnil] at h
    obtain ⟨after, hclosing, hpair⟩ := Option.map_eq_some_iff.mp h
    obtain ⟨rfl, rfl⟩ := Prod.mk.inj hpair
    refine ⟨cs.takeWhile isBlank, (cs.dropWhile isBlank).dropWhile isTargetChar, ?_, rfl,
      fun c hc => List.all_eq_true.mp List.all_takeWhile c hc,
      ⟨hnil, fun c hc => List.all_eq_true.mp List.all_takeWhile c hc⟩, ?_⟩
    · rw [List.takeWhile_append_dropWhile, List.takeWhile_append_dropWhile]
    · cases hbehind : (cs.dropWhile isBlank).dropWhile isTargetChar with
      | nil =>
          rw [hbehind] at hclosing
          exact absurd hclosing (by simp [closing?])
      | cons c more =>
          refine ⟨c, more, rfl, ?_⟩
          have hne : (cs.dropWhile isBlank).dropWhile isTargetChar ≠ [] := by simp [hbehind]
          simpa [hbehind] using List.head_dropWhile_not isTargetChar hne

/-- How a recogniser takes the front of a link: something, and then `](`. -/
def Opens (find : Recogniser Found) : Prop :=
  ∀ before cs answer, find before cs = some answer → ∃ ahead text rest, ahead ≠ [] ∧
    cs = ahead ++ ']' :: '(' :: rest ∧ found? (ahead ++ [']', '(']) text rest = some answer

theorem opens_inlineLink : Opens inlineLink := by
  intro before cs answer h
  unfold inlineLink at h
  split at h
  · rename_i inside
    dsimp only at h
    split at h
    · rename_i rest heq
      refine ⟨'[' :: inside.takeWhile isTextChar, _, rest, by simp, ?_, h⟩
      conv_lhs => rw [← List.takeWhile_append_dropWhile (p := isTextChar) (l := inside)]
      rw [List.cons_append, ← heq]
      rfl
    · exact absurd h (by simp)
  · exact absurd h (by simp)

theorem opens_imageLinkEnd : Opens imageLinkEnd := by
  intro before cs answer h
  unfold imageLinkEnd at h
  split at h
  · rename_i rest
    exact ⟨[')'], none, rest, by simp, rfl, h⟩
  · exact absurd h (by simp)

theorem Opens.exists_aimed {find : Recogniser Found} (h : Opens find) (hl : l ∈ linksOf find line) :
    ∃ front back, Aimed line l front back := by
  obtain ⟨⟨column, text, target, length⟩, hm, rfl⟩ := List.mem_map.mp hl
  obtain ⟨start, rest, before, long, hline, hcolumn, hfind⟩ := mem_matchesOf hm
  obtain ⟨ahead, text', inner, hne, rfl, hfound⟩ := h before rest _ hfind
  obtain ⟨⟨aim, after⟩, haim, hanswer⟩ := Option.map_eq_some_iff.mp hfound
  obtain ⟨gap, behind, rfl, hstart, hgap, hsome, hbehind⟩ := exists_of_destination? haim
  have htarget : target = aim.shift (width (ahead ++ [']', '('])) :=
    (congrArg (fun answer => answer.1.2.1) hanswer).symm
  subst htarget
  have hcolumn : column = width start := hcolumn
  refine ⟨start ++ (ahead ++ ']' :: '(' :: gap), behind, ?_, ?_, ⟨start ++ ahead, gap, by simp, hgap⟩,
    hsome.1, hsome.2, hbehind, ?_⟩
  · show line = start ++ (ahead ++ ']' :: '(' :: gap) ++ (aim.text ++ behind)
    rw [hline]
    simp
  · show column + (width (ahead ++ [']', '(']) + aim.start) = _
    rw [hcolumn, hstart]
    simp only [width_append, width_cons, width_nil]
    omega
  · show column < column + (width (ahead ++ [']', '(']) + aim.start)
    have hbracket : (']' : Char).utf8Size = 1 := by decide
    simp only [width_append, width_cons]
    omega

theorem exists_aimed (hl : l ∈ links line) : ∃ front back, Aimed line l front back := by
  rcases List.mem_append.mp hl with hl | hl
  · exact opens_inlineLink.exists_aimed hl
  · exact opens_imageLinkEnd.exists_aimed (List.mem_filter.mp hl).1

/-! ## No link begins in the target of another one -/

/-- An inline link begins in no target. -/
theorem begins_outside (hl : l ∈ links line) {i : Link} (hi : i ∈ linksOf inlineLink line) :
    l.target.stop ≤ i.whole.start ∨ i.whole.start < l.target.start := by
  obtain ⟨front, back, haimed⟩ := exists_aimed hl
  obtain ⟨front', back', haimed'⟩ := opens_inlineLink.exists_aimed hi
  have hwithin := (placed_linksOf foundAt_inlineLink line).2 i hi
  have hbegins := haimed.begins
  have hbegins' := haimed'.begins
  have hstop : i.target.start ≤ i.target.stop := Nat.le_add_right _ _
  have hinner : i.target.stop ≤ i.whole.stop := hwithin.2
  rcases List.mem_append.mp hl with hl | hl
  · by_cases hsame : l = i
    · subst hsame
      exact .inr hbegins
    · have : Std.Symm fun a b : Link => a.whole.Apart b.whole := ⟨fun _ _ hab => hab.symm⟩
      have hapart := (apart_wholes foundAt_inlineLink line).forall hl hi hsame
      have hlwithin := (placed_linksOf foundAt_inlineLink line).2 l hl
      rcases (hapart.symm.within hlwithin).symm with hle | hle
      · exact .inl hle
      · have hle : i.whole.stop ≤ l.target.start := hle
        omega
  · have hclaimed := (List.mem_filter.mp hl).2
    rw [Bool.not_eq_true', Span.isClaimed_eq_false] at hclaimed
    rcases hclaimed i.whole (List.mem_map_of_mem hi) with hle | hle
    · exact .inl hle
    · have hle : i.whole.stop ≤ l.target.start := hle
      omega

/-- And the end of a link around an image begins with a character that stands in no target. -/
theorem begins_outside_of_image {i : Link} (hi : i ∈ linksOf imageLinkEnd (front ++ (path ++ back)))
    (hpath : ∀ c ∈ path, isTargetChar c = true) :
    width front + width path ≤ i.whole.start ∨ i.whole.start < width front := by
  obtain ⟨⟨column, text, target, length⟩, hm, rfl⟩ := List.mem_map.mp hi
  obtain ⟨start, rest, before, long, hline, hcolumn, hfind⟩ := mem_matchesOf hm
  have hcolumn : column = width start := hcolumn
  have hparenthesis : ∃ more, rest = ')' :: more := by
    by_contra hnot
    rw [imageLinkEnd_eq_none before rest fun more he => hnot ⟨_, he⟩] at hfind
    exact absurd hfind (by simp)
  obtain ⟨more, rfl⟩ := hparenthesis
  show width front + width path ≤ column ∨ column < width front
  rw [hcolumn]
  rcases List.append_eq_append_iff.mp hline with ⟨inner, rfl, hinner⟩ | ⟨inner, rfl, hinner⟩
  · rcases List.append_eq_append_iff.mp hinner with ⟨beyond, rfl, -⟩ | ⟨beyond, rfl, hbeyond⟩
    · left
      simp only [width_append]
      omega
    · cases beyond with
      | nil =>
          left
          simp
      | cons c beyond =>
          obtain ⟨rfl, -⟩ := List.cons.inj hbeyond
          exact absurd (hpath ')' (by simp)) (by decide)
  · cases inner with
    | nil =>
        cases path with
        | nil =>
            left
            simp
        | cons c path =>
            obtain ⟨rfl, -⟩ := List.cons.inj hinner
            exact absurd (hpath ')' (by simp)) (by decide)
    | cons c inner =>
        right
        have hpos := Char.utf8Size_pos c
        simp only [width_append, width_cons]
        omega

/-! ## The links of the line -/

/-- **The links of a line** are the same when the path of one of them is another one. -/
theorem Slot.links (h : Slot front path path' back)
    (hl : l ∈ Markdown.links (front ++ (path ++ back)))
    (htarget : l.target = ⟨width front, path ++ tail⟩) :
    ∃ ms : List Pair, (∀ m ∈ ms, m.all = oneSwap front path path' back ∧ m.newText = m.text) ∧
      Markdown.links (front ++ (path ++ back)) = ms.map Pair.oldLink ∧
      Markdown.links (front ++ (path' ++ back)) = ms.map Pair.newLink := by
  obtain ⟨inlines, hinlines, hold, hnew⟩ := h.linksOf steady_inlineLink
    (fun as c bs hsplit => h.agrees_inlineLink hsplit) fun i hi => by
      have houtside := begins_outside hl hi
      rw [htarget, Piece.stop, width_append] at houtside
      dsimp only at houtside
      omega
  obtain ⟨ends, hends, hold', hnew'⟩ := h.linksOf steady_imageLinkEnd
    (fun as c bs hsplit => h.agrees_imageLinkEnd hsplit)
    fun i hi => begins_outside_of_image hi h.chars
  have hof := h.swaps
  have hclaims : ∀ m ∈ ends,
      m.oldLink.target.span.isClaimed ((inlines.map Pair.oldLink).map (·.whole)) =
        m.newLink.target.span.isClaimed ((inlines.map Pair.newLink).map (·.whole)) := by
    intro m hm
    rw [Bool.eq_iff_iff, ← not_iff_not, Bool.not_eq_true, Bool.not_eq_true, Span.isClaimed_eq_false,
      Span.isClaimed_eq_false, List.map_map, List.map_map, List.forall_mem_map, List.forall_mem_map]
    refine forall₂_congr fun i hi => ?_
    have hall := (hends m hm).1
    exact Pair.apart_iff (hall ▸ hof) ((hinlines i hi).1.trans hall.symm)
  refine ⟨inlines ++ ends.filter fun m =>
    !m.oldLink.target.span.isClaimed ((inlines.map Pair.oldLink).map (·.whole)), ?_, ?_, ?_⟩
  · intro m hm
    rcases List.mem_append.mp hm with hm | hm
    · exact hinlines m hm
    · exact hends m (List.mem_filter.mp hm).1
  · rw [Markdown.links, hold, hold', List.map_append, List.filter_map]
    rfl
  · rw [Markdown.links, hnew, hnew', List.map_append, List.filter_map]
    refine congrArg _ (congrArg _ (List.filter_congr fun m hm => ?_))
    rw [hclaims m hm]
    rfl

/-! ## Where they stand -/

/-- A target in front of the path stays. -/
theorem Pair.target_before {m : Pair} (hall : m.all = oneSwap front path path' back)
    (hne : path ≠ []) (hstop : m.oldLink.target.stop ≤ width front) :
    m.newLink.target = m.oldLink.target := by
  have hborder : oneSwap front path path' back =
      (m.front ++ (m.opening ++ m.target)) ++ (m.closing ++ m.back) := by
    rw [← hall, Pair.all]
    simp
  have hpos := width_pos_of_ne_nil hne
  rcases oneSwap_eq_append hborder with ⟨f, f', -, hf, -⟩ | ⟨b, b', -, hb, -⟩
  · obtain ⟨g, g', rfl, hg, hg'⟩ := List.map_eq_append_iff.mp hf.symm
    obtain ⟨o, t, rfl, ho, ht⟩ := List.map_eq_append_iff.mp hg'
    simp [Pair.newLink, Pair.oldLink, ← hg, ← ho, ← ht]
  · have hwidth := congrArg (fun swaps => width (olds swaps)) hb
    simp only [olds_oneSwap, olds_append, width_append] at hwidth
    rw [Pair.oldLink, Piece.stop] at hstop
    dsimp only at hstop
    omega

/-- A target behind the path goes as much further as the path has grown. -/
theorem Pair.target_behind {m : Pair} (hall : m.all = oneSwap front path path' back)
    (hne : path ≠ []) (hstart : width front + width path ≤ m.oldLink.target.start) :
    m.newLink.target =
      ⟨m.oldLink.target.start + width path' - width path, m.oldLink.target.text⟩ := by
  have hborder : oneSwap front path path' back =
      (m.front ++ m.opening) ++ (m.target ++ (m.closing ++ m.back)) := by
    rw [← hall, Pair.all]
    simp
  have hpos := width_pos_of_ne_nil hne
  have hold : m.oldLink.target.start = width (olds m.front) + width (olds m.opening) := rfl
  have hnew : m.newLink.target.start = width (news m.front) + width (news m.opening) := rfl
  rcases oneSwap_eq_append hborder with ⟨f, f', hfront, hf, -⟩ | ⟨b, b', -, hb, hb'⟩
  · have hwidth := congrArg (fun swaps => width (olds swaps)) hf
    have hsplit := congrArg width hfront
    simp only [olds_append, olds_map_keep, width_append] at hwidth hsplit
    omega
  · have hwidth := congrArg (fun swaps => width (olds swaps)) hb
    have hwidth' := congrArg (fun swaps => width (news swaps)) hb
    simp only [olds_oneSwap, news_oneSwap, olds_append, news_append, width_append] at hwidth hwidth'
    obtain ⟨t, more, rfl, ht, -⟩ := List.map_eq_append_iff.mp hb'.symm
    have htext : m.newLink.target.text = m.oldLink.target.text := by
      simp [Pair.newLink, Pair.oldLink, ← ht]
    rw [← htext, ← show m.newLink.target.start =
      m.oldLink.target.start + width path' - width path by omega]

/-- The reference for an inline link. -/
def inlineReference (source : String) (number : Nat) (l : Link) : Reference :=
  { referTo source number .markdownInline l.target with anchorText := l.text.map String.ofList }

variable {rule : CandidateRule} {source : String} {number : Nat} {r : Reference} {link : String}

/-- The reference for a link is carried along with the link, and the link stays in the project. -/
theorem Slot.carry_link (h : Slot front path path' back) (hback : ∃ behind, back = tail ++ behind)
    (hline : r.line = number) (hcolumn : r.columnStart = width front)
    (htarget : r.target.toList = path ++ tail) (hlink : link.toList = path' ++ tail)
    {m : Pair} (hall : m.all = oneSwap front path path' back) (htext : m.newText = m.text)
    (hsome : m.oldLink.target.text ≠ [])
    (hapart : m.oldLink.target = ⟨width front, path ++ tail⟩ ∨
      m.oldLink.target.span.Apart ⟨width front, width front + width (path ++ tail)⟩) :
    r.carry link (inlineReference source number m.oldLink) = inlineReference source number m.newLink ∧
      (m.newLink.target.text = m.oldLink.target.text ∨
        m.oldLink.target.text = path ++ tail ∧ m.newLink.target.text = path' ++ tail) := by
  have hpos := width_pos_of_ne_nil hsome
  have hpath := width_pos_of_ne_nil h.ne_nil.1
  have hbytes : r.target.utf8ByteSize = width path + width tail := by
    rw [utf8ByteSize_eq_width, htarget, width_append]
  have hbytes' : link.utf8ByteSize = width path' + width tail := by
    rw [utf8ByteSize_eq_width, hlink, width_append]
  have hnext : inlineReference source number m.newLink =
      (inlineReference source number m.oldLink).withPiece m.newLink.target := by
    rw [inlineReference, show m.newLink.text = m.oldLink.text from htext]
    rfl
  have hcolumns : (inlineReference source number m.oldLink).columnStart =
    m.oldLink.target.start := rfl
  have hstop : m.oldLink.target.stop = m.oldLink.target.start + width m.oldLink.target.text := rfl
  rw [hnext]
  rcases hapart with hsame | hbefore | hbehind
  · obtain ⟨behind, hback⟩ := hback
    have hnew := Pair.target_eq h.swaps hall
      (show oneSwap front path path' back =
          front.map keep ++ (oneSwap [] path path' tail ++ behind.map keep) by simp [oneSwap, hback])
      (by simpa using hsame)
    simp only [news_map_keep, news_oneSwap, List.nil_append] at hnew
    refine ⟨?_, .inr ⟨by rw [hsame], by rw [hnew]⟩⟩
    rw [Reference.carry_at hline.symm (by rw [hcolumns, hsame, hcolumn]), hnew, hcolumn, hlink]
  · have hbefore : m.oldLink.target.stop ≤ width front := hbefore
    have hnew := Pair.target_before hall h.ne_nil.1 hbefore
    refine ⟨?_, .inl (by rw [hnew])⟩
    rw [Reference.carry_of_lt (by omega), hnew]
    rfl
  · have hbehind : width front + width (path ++ tail) ≤ m.oldLink.target.start := hbehind
    rw [width_append] at hbehind
    have hnew := Pair.target_behind hall h.ne_nil.1 (by omega)
    refine ⟨?_, .inl (by rw [hnew])⟩
    have hpiece : (inlineReference source number m.oldLink).piece = m.oldLink.target :=
      piece_referTo source number .markdownInline m.oldLink.target
    have hstart : m.oldLink.target.start + link.utf8ByteSize - r.target.utf8ByteSize =
        m.oldLink.target.start + width path' - width path := by omega
    rw [Reference.carry_behind hline.symm hpiece rfl (by omega) (by omega), hnew, hstart]

/-! ## Paths in quotes -/

theorem quotedPath_of_not_isQuote {c : Char} (hc : isQuote c = false) (before : Option Char)
    (cs : List Char) : quotedPath rule before (c :: cs) = none := by
  rw [quotedPath, hc]
  rfl

/-- A quote that comes again is answered for alike, whatever follows. -/
theorem quotedPath_closed {quote : Char} {cs : List Char} (hmem : quote ∈ cs)
    (before : Option Char) (more more' : List Char) :
    quotedPath rule before (quote :: cs ++ more') = quotedPath rule before (quote :: cs ++ more) ∧
      ∀ found length, quotedPath rule before (quote :: cs ++ more) = some (found, length) →
        length ≤ (quote :: cs).length := by
  obtain ⟨inside, after, rfl, hnot⟩ := List.eq_append_cons_of_mem hmem
  have hsplit : ∀ more, quotedPath rule before (quote :: (inside ++ quote :: after) ++ more) =
      if isQuote quote && !before.any Char.isAlphanum then
        if rule.accepts inside then some (inside, inside.length + 2) else none
      else none := by
    intro more
    rw [List.cons_append, List.append_assoc, List.cons_append, quotedPath,
      splitFirst?_append_cons hnot]
  rw [hsplit, hsplit]
  refine ⟨rfl, fun found length h => ?_⟩
  split at h
  · split at h
    · obtain ⟨rfl, rfl⟩ := Prod.mk.inj (Option.some.inj h)
      simp
    · exact absurd h (by simp)
  · exact absurd h (by simp)

/-- A quote that does not come again before something that no path holds opens nothing. -/
theorem quotedPath_open {quote c : Char} {cs : List Char} (hnot : quote ∉ cs) (hmem : c ∈ cs)
    (hc : isPathChar c = false) (before : Option Char) (more : List Char) :
    quotedPath rule before (quote :: cs ++ more) = none := by
  rw [Option.eq_none_iff_forall_ne_some]
  rintro ⟨inside, length⟩ h
  obtain ⟨quote', rest, hcs, -, -, haccepts⟩ := quotedPath_eq_some h
  obtain ⟨rfl, hcs⟩ := List.cons.inj hcs
  have hcs : cs ++ more = inside ++ quote :: rest := hcs
  have hpath := isPathChar_of_accepts haccepts
  have hin : c ∈ inside := by
    rcases List.append_eq_append_iff.mp hcs with ⟨between, rfl, -⟩ | ⟨between, rfl, hbetween⟩
    · exact List.mem_append_left _ hmem
    · cases between with
      | nil => simpa using hmem
      | cons d between =>
          obtain ⟨rfl, -⟩ := List.cons.inj hbetween
          exact absurd (by simp) hnot
  rw [hpath c hin] at hc
  exact Bool.noConfusion hc

/-- What is found within a part of the line lies within it, quotes and all. -/
theorem width_quotedPath_le {before : Option Char} {cs more inside : List Char} {length : Nat}
    (h : quotedPath rule before (cs ++ more) = some (inside, length)) (hlength : length ≤ cs.length) :
    width inside + 2 ≤ width cs := by
  obtain ⟨quote, rest, hcs, hlong, hsize, -⟩ := quotedPath_eq_some h
  have hfirst : [quote] ++ (inside ++ [quote]) <+: cs ++ more := ⟨rest, by simp [hcs]⟩
  obtain ⟨between, rfl⟩ := List.prefix_of_prefix_length_le hfirst (List.prefix_append cs more)
    (by simp; omega)
  simp only [width_append, width_cons, width_nil]
  omega

/--
**Paths in quotes** are found in front of the path and behind it as before. Those inside it are
there no more.
-/
theorem Slot.quotedPaths (h : Slot front path path' back) (rule : CandidateRule) :
    ∃ ahead inside behind : List Piece,
      Links.quotedPaths rule (front ++ (path ++ back)) =
        ahead ++ (inside ++ behind.map (Piece.shift (width front + width path))) ∧
      Links.quotedPaths rule (front ++ (path' ++ back)) =
        ahead ++ behind.map (Piece.shift (width front + width path')) ∧
      (∀ p ∈ ahead, p.stop ≤ width front) ∧
      ∀ p ∈ inside, p.span.Within ⟨width front, width front + width path⟩ := by
  obtain ⟨opening, gap, hfront, hgap⟩ := h.opened
  have hopened : Opened front := ⟨opening ++ [']'], gap, by simp [hfront], hgap⟩
  -- in front of the path
  obtain ⟨ahead, last, hold, hnew, hahead⟩ := @matchesFrom_common _ (quotedPath rule) front
    (path ++ back) (path' ++ back) (fun as rest hsplit hne before => by
      obtain ⟨c, cs, rfl⟩ := List.exists_cons_of_ne_nil hne
      by_cases hquote : isQuote c = true
      · by_cases hmem : c ∈ cs
        · exact quotedPath_closed hmem before _ _
        · have hne : c ≠ '(' := by
            rintro rfl
            exact absurd hquote (by decide)
          have hinside := (hsplit ▸ hopened : Opened (as ++ c :: cs)).behind hne
            (isBlank_of_isTargetChar (isTargetChar_of_isQuote hquote))
          have hnone := fun more => @quotedPath_open rule c '(' cs hmem hinside.mem (by decide) before more
          rw [hnone, hnone]
          exact ⟨rfl, fun found length he => absurd he (by simp)⟩
      · rw [Bool.not_eq_true] at hquote
        have hnone := fun more => @quotedPath_of_not_isQuote rule c hquote before (cs ++ more)
        rw [List.cons_append, List.cons_append, hnone, hnone]
        exact ⟨rfl, fun found length he => absurd he (by simp)⟩) 0 none 0 (Nat.zero_le _)
  -- inside the path
  obtain ⟨c, rest, hback, hc, hcquote⟩ := h.back
  obtain ⟨inside, last', hinner, -, hinside⟩ := @matchesFrom_common _ (quotedPath rule) path back back
    (fun as rest' _ hne before => by
      refine ⟨rfl, fun found length hfind => ?_⟩
      obtain ⟨d, ds, rfl⟩ := List.exists_cons_of_ne_nil hne
      by_cases hquote : isQuote d = true
      · by_cases hmem : d ∈ ds
        · exact (quotedPath_closed hmem before back back).2 found length hfind
        · have hne : d ≠ c := by
            rintro rfl
            rw [hquote] at hcquote
            exact Bool.noConfusion hcquote
          have hnone := @quotedPath_open rule d c (ds ++ [c])
            (by simp [hmem, hne]) (by simp) hc before rest
          rw [← List.cons_append, List.append_assoc, List.singleton_append, ← hback, hfind] at hnone
          exact absurd hnone (by simp)
      · rw [Bool.not_eq_true] at hquote
        rw [List.cons_append, quotedPath_of_not_isQuote hquote] at hfind
        exact absurd hfind (by simp)) (0 + width front) last 0 (Nat.zero_le _)
  have hquotes : ∀ d ∈ path', isQuote d = false := by
    intro d hd
    rw [← Bool.not_eq_true]
    exact fun hquote => not_isPathChar_of_isQuote hquote (h.chars' d hd)
  obtain ⟨last'', houter⟩ := @matchesFrom_pass _ (quotedPath rule) path'
    (fun d hd before cs => quotedPath_of_not_isQuote (hquotes d hd) before cs) (0 + width front) last back
  -- and behind it
  have hshift : ∀ column before, matchesFrom (quotedPath rule) column before 0 back =
      (matchesFrom (quotedPath rule) 0 none 0 back).map fun m => (column + m.1, m.2) := by
    intro column before
    have hnone := fun before => @quotedPath_of_not_isQuote rule c hcquote before rest
    rw [← matchesFrom_shift, Nat.add_zero, hback, matchesFrom_none (hnone _), matchesFrom_none (hnone _)]
  rw [hinner, hshift] at hold
  rw [houter, hshift] at hnew
  have hpieces : ∀ n : Nat, ((matchesFrom (quotedPath rule) 0 none 0 back).map fun m =>
      (n + m.1, m.2)).map (fun m => (⟨m.1 + 1, m.2⟩ : Piece)) =
        ((matchesFrom (quotedPath rule) 0 none 0 back).map fun m =>
          (⟨m.1 + 1, m.2⟩ : Piece)).map (Piece.shift n) := by
    intro n
    rw [List.map_map, List.map_map]
    rfl
  refine ⟨ahead.map fun m => ⟨m.1 + 1, m.2⟩, inside.map fun m => ⟨m.1 + 1, m.2⟩,
    (matchesFrom (quotedPath rule) 0 none 0 back).map fun m => ⟨m.1 + 1, m.2⟩, ?_, ?_, ?_, ?_⟩
  · rw [Links.quotedPaths, matchesOf, hold, List.map_append, List.map_append, ← hpieces, Nat.zero_add]
  · rw [Links.quotedPaths, matchesOf, hnew, List.map_append, ← hpieces, Nat.zero_add]
  · intro p hp
    obtain ⟨m, hm, rfl⟩ := List.mem_map.mp hp
    obtain ⟨as, cs, before, length, rfl, hcolumn, hlength, hfind⟩ := hahead m hm
    have hwidth := width_quotedPath_le hfind hlength
    show m.1 + 1 + width m.2 ≤ _
    rw [width_append]
    omega
  · intro p hp
    obtain ⟨m, hm, rfl⟩ := List.mem_map.mp hp
    obtain ⟨as, cs, before, length, rfl, hcolumn, hlength, hfind⟩ := hinside m hm
    have hwidth := width_quotedPath_le hfind hlength
    constructor
    · show width front ≤ m.1 + 1
      omega
    · show m.1 + 1 + width m.2 ≤ _
      rw [width_append]
      dsimp only
      omega

/-! ## What links claim -/

/-- The bytes of a link before and after go by borders of the line. -/
theorem Pair.whole_borders {m : Pair} (hall : m.all = oneSwap front path path' back) :
    ((m.oldLink.whole.start ≤ width front ∧ m.newLink.whole.start = m.oldLink.whole.start) ∨
      (width front + width path ≤ m.oldLink.whole.start ∧
        m.newLink.whole.start + width path = m.oldLink.whole.start + width path')) ∧
    ((m.oldLink.whole.stop ≤ width front ∧ m.newLink.whole.stop = m.oldLink.whole.stop) ∨
      (width front + width path ≤ m.oldLink.whole.stop ∧
        m.newLink.whole.stop + width path = m.oldLink.whole.stop + width path')) := by
  have hstart := width_border
    (show oneSwap front path path' back = m.front ++ (m.opening ++ (m.target ++ (m.closing ++ m.back)))
      from hall.symm)
  have hstop := width_border
    (show oneSwap front path path' back =
        (m.front ++ (m.opening ++ (m.target ++ m.closing))) ++ m.back by
      rw [← hall, Pair.all]
      simp)
  refine ⟨hstart, ?_⟩
  simpa [Pair.oldLink, Pair.newLink, Pair.old, Pair.new, answer, Nat.add_assoc] using hstop

/-- **The paths in quotes that no link has claimed** are the same, as far as they have moved. -/
theorem Slot.unclaimed (h : Slot front path path' back) (rule : CandidateRule) {ms : List Pair}
    (hall : ∀ m ∈ ms, m.all = oneSwap front path path' back)
    {l : Link} (hl : l ∈ ms.map Pair.oldLink)
    (hwithin : (⟨width front, width front + width path⟩ : Span).Within l.whole) :
    ∃ ahead behind : List Piece,
      Text.unclaimed ((ms.map Pair.oldLink).map (·.whole))
        (Links.quotedPaths rule (front ++ (path ++ back))) =
          ahead ++ behind.map (Piece.shift (width front + width path)) ∧
      Text.unclaimed ((ms.map Pair.newLink).map (·.whole))
        (Links.quotedPaths rule (front ++ (path' ++ back))) =
          ahead ++ behind.map (Piece.shift (width front + width path')) ∧
      ∀ p ∈ ahead, p.stop ≤ width front := by
  obtain ⟨ahead, inside, behind, hold, hnew, hahead, hinside⟩ := h.quotedPaths rule
  have hpath := width_pos_of_ne_nil h.ne_nil.1
  have hsome : ∀ p ∈ Links.quotedPaths rule (front ++ (path ++ back)), 0 < width p.text :=
    fun p hp => width_pos_of_ne_nil ((placed_quotedPaths rule _).some p hp).1
  have hclaims : ∀ a b : Span, (∀ m ∈ ms, a.Apart m.oldLink.whole ↔ b.Apart m.newLink.whole) →
      (!a.isClaimed ((ms.map Pair.oldLink).map (·.whole))) =
        !b.isClaimed ((ms.map Pair.newLink).map (·.whole)) := by
    intro a b hiff
    rw [Bool.eq_iff_iff, Bool.not_eq_true', Bool.not_eq_true', Span.isClaimed_eq_false,
      Span.isClaimed_eq_false, List.map_map, List.map_map, List.forall_mem_map, List.forall_mem_map]
    exact forall₂_congr hiff
  refine ⟨Text.unclaimed ((ms.map Pair.oldLink).map (·.whole)) ahead, behind.filter fun p =>
    !(p.shift (width front + width path)).span.isClaimed ((ms.map Pair.oldLink).map (·.whole)),
    ?_, ?_, fun p hp => hahead p (mem_unclaimed.mp hp).1⟩
  · -- what stands inside the path is claimed by the link itself
    have hnone : Text.unclaimed ((ms.map Pair.oldLink).map (·.whole)) inside = [] := by
      refine List.filter_eq_nil_iff.mpr fun p hp hfree => ?_
      rw [Bool.not_eq_true', Span.isClaimed_eq_false] at hfree
      have hapart := (hfree l.whole (List.mem_map_of_mem hl)).within hwithin
      have hpos := hsome p (by rw [hold]; simp [hp])
      have hin : width front ≤ p.start ∧ p.stop ≤ width front + width path := hinside p hp
      have hapart : p.stop ≤ width front ∨ width front + width path ≤ p.start := hapart
      have hstop : p.stop = p.start + width p.text := rfl
      omega
    rw [hold, Text.unclaimed, List.filter_append, List.filter_append, List.filter_map]
    rw [Text.unclaimed] at hnone
    rw [hnone]
    rfl
  · rw [hnew, Text.unclaimed, List.filter_append, List.filter_map]
    refine congrArg₂ _ (List.filter_congr fun p hp => (hclaims _ _ fun m hm => ?_).symm)
      (congrArg _ (List.filter_congr fun p hp => (hclaims _ _ fun m hm => ?_).symm))
    · have hborders := Pair.whole_borders (hall m hm)
      have hfront := hahead p hp
      have hpos := hsome p (by rw [hold]; simp [hp])
      have hstop : p.stop = p.start + width p.text := rfl
      show p.stop ≤ _ ∨ _ ≤ p.start ↔ p.stop ≤ _ ∨ _ ≤ p.start
      omega
    · have hborders := Pair.whole_borders (hall m hm)
      have hpos := hsome (p.shift (width front + width path)) (by
        rw [hold]
        simp only [List.mem_append]
        exact .inr (.inr (List.mem_map_of_mem hp)))
      have hpos : 0 < width p.text := hpos
      have hstop : p.stop = p.start + width p.text := rfl
      show (p.shift (width front + width path)).stop ≤ _ ∨ _ ≤ width front + width path + p.start ↔
        (p.shift (width front + width path')).stop ≤ _ ∨ _ ≤ width front + width path' + p.start
      rw [Piece.stop_shift, Piece.stop_shift]
      omega

/-! ## The references of the line -/

theorem lineReferences_of_links (h : Markdown.links line ≠ []) :
    lineReferences rule source number line =
      ((Markdown.links line).filter fun l => !isExternal l.target.text).map
          (inlineReference source number) ++
        (Text.unclaimed ((Markdown.links line).map (·.whole)) (Links.quotedPaths rule line)).map
          (referTo source number .markdownQuoted) := by
  unfold lineReferences
  dsimp only
  rw [if_neg (by simpa using h), List.map_nil, List.append_nil]
  rfl

/--
**A line whose link has another path** gives the references that it gave, each with what has become
of it.
-/
theorem Slot.lineReferences (h : Slot front path path' back) (hback : ∃ behind, back = tail ++ behind)
    (hr : r ∈ Markdown.lineReferences rule source number (front ++ (path ++ back)))
    (hkind : r.kind = .markdownInline) (hcolumn : r.columnStart = width front)
    (htarget : r.target.toList = path ++ tail) (hlink : link.toList = path' ++ tail)
    (hinside : isExternal (path' ++ tail) = false) :
    Markdown.lineReferences rule source number (front ++ (path' ++ back)) =
      (Markdown.lineReferences rule source number (front ++ (path ++ back))).map (r.carry link) := by
  have hline := (given rule source number _).line r hr
  obtain ⟨l, hl, hlt, hold⟩ := mem_lineReferences hr hkind
  rw [hcolumn, htarget] at hlt
  rw [htarget] at hold
  obtain ⟨ms, hms, holds, hnews⟩ := h.links hl hlt
  have hplaced := placed_links (front ++ (path ++ back))
  have hwithin : (⟨width front, width front + width path⟩ : Span).Within l.whole := by
    have hwhole := hplaced.2 l hl
    rw [hlt, Piece.span, Piece.stop, width_append] at hwhole
    have hstart := hwhole.1
    have hstop := hwhole.2
    dsimp only at hstart hstop
    constructor
    · exact hstart
    · dsimp only
      omega
  have hcarried : ∀ m ∈ ms, r.carry link (inlineReference source number m.oldLink) =
        inlineReference source number m.newLink ∧
      (m.newLink.target.text = m.oldLink.target.text ∨
        m.oldLink.target.text = path ++ tail ∧ m.newLink.target.text = path' ++ tail) := by
    intro m hm
    have hmem : m.oldLink ∈ Markdown.links (front ++ (path ++ back)) := by
      rw [holds]
      exact List.mem_map_of_mem hm
    refine h.carry_link hback hline hcolumn htarget hlink (hms m hm).1 (hms m hm).2
      (hplaced.1.some _ (List.mem_map_of_mem hmem)).1 ?_
    by_cases hsame : m.oldLink.target = l.target
    · exact .inl (hsame.trans hlt)
    · have : Std.Symm fun a b : Piece => a.span.Apart b.span := ⟨fun _ _ hab => hab.symm⟩
      have hapart := hplaced.1.apart.forall (List.mem_map_of_mem hmem) (List.mem_map_of_mem hl) hsame
      rw [hlt] at hapart
      exact .inr hapart
  obtain ⟨ahead, behind, hquoted, hquoted', hahead⟩ := h.unclaimed rule (fun m hm => (hms m hm).1)
    (holds ▸ hl) hwithin
  -- no path in quotes that is left has a byte of the target
  have hfree : ∀ p ∈ ahead ++ behind.map (Piece.shift (width front + width path)),
      0 < width p.text ∧ (p.stop ≤ width front ∨ width front + width (path ++ tail) ≤ p.start) := by
    intro p hp
    rw [← hquoted] at hp
    obtain ⟨hp, hclaimed⟩ := mem_unclaimed.mp hp
    refine ⟨width_pos_of_ne_nil ((placed_quotedPaths rule _).some p hp).1, ?_⟩
    have hapart := (hclaimed l.whole (by
      rw [← holds]
      exact List.mem_map_of_mem hl)).within (hplaced.2 l hl)
    rw [hlt] at hapart
    exact hapart
  have hnonempty : ∀ {f : Pair → Link}, ms.map f ≠ [] := by
    intro f hnil
    rw [holds, List.map_eq_nil_iff.mp hnil] at hl
    exact absurd hl (by simp)
  rw [lineReferences_of_links (by rw [hnews]; exact hnonempty),
    lineReferences_of_links (by rw [holds]; exact hnonempty), hnews, holds, hquoted, hquoted',
    List.map_append, List.map_append, List.map_append, List.map_append]
  refine congrArg₂ _ ?_ ?_
  · have hkept : ms.filter ((fun l : Link => !isExternal l.target.text) ∘ Pair.newLink) =
        ms.filter ((fun l : Link => !isExternal l.target.text) ∘ Pair.oldLink) := by
      refine List.filter_congr fun m hm => ?_
      show (!isExternal m.newLink.target.text) = !isExternal m.oldLink.target.text
      rcases (hcarried m hm).2 with hsame | ⟨hone, hother⟩
      · rw [hsame]
      · rw [hone, hother, hinside, hold]
    rw [List.filter_map, List.filter_map, List.map_map, List.map_map, List.map_map, hkept]
    exact List.map_congr_left fun m hm => (hcarried m (List.mem_filter.mp hm).1).1.symm
  · have hbytes : r.target.utf8ByteSize = width path + width tail := by
      rw [utf8ByteSize_eq_width, htarget, width_append]
    have hbytes' : link.utf8ByteSize = width path' + width tail := by
      rw [utf8ByteSize_eq_width, hlink, width_append]
    have hpath := width_pos_of_ne_nil h.ne_nil.1
    rw [List.map_map, List.map_map, List.map_map, List.map_map]
    refine congrArg₂ _ (List.map_congr_left fun p hp => ?_) (List.map_congr_left fun p hp => ?_)
    · obtain ⟨hpos, -⟩ := hfree p (List.mem_append_left _ hp)
      have hstop := hahead p hp
      have hends : p.stop = p.start + width p.text := rfl
      refine (Reference.carry_of_lt ?_).symm
      show p.start < _
      omega
    · obtain ⟨hpos, hplace⟩ := hfree _ (List.mem_append_right _ (List.mem_map_of_mem hp))
      have hpos : 0 < width p.text := hpos
      have hstart : (p.shift (width front + width path)).start = width front + width path + p.start := rfl
      have hstop : (p.shift (width front + width path)).stop =
        (p.shift (width front + width path)).start + width p.text := rfl
      rw [width_append] at hplace
      show referTo source number .markdownQuoted (p.shift _) =
        r.carry link (referTo source number .markdownQuoted (p.shift _))
      rw [Reference.carry_behind hline.symm (piece_referTo source number .markdownQuoted _) rfl
        (by omega) (by omega)]
      have hnew : (p.shift (width front + width path)).start + link.utf8ByteSize -
          r.target.utf8ByteSize = width front + width path' + p.start := by omega
      rw [hnew]
      rfl

/-! ## The text -/

/-- A title that is open in front of a reference on its line, whose quote the path of the reference holds. -/
def ShutsTitle (content : List Char) (r : Reference) : Prop :=
  ∃ front back quote, (r.line, front ++ back) ∈ numbered content ∧ width front = r.columnStart ∧
    (quote ∈ r.targetPath.toList ∧ isQuote quote = true) ∧ InTitle quote front

/-- What stands behind the path of a link: its fragment, if it has one, and no more of its target. -/
theorem Aimed.border {l : Link} {line : List Char} (h : Aimed line l front back)
    (htail : tail = [] ∨ ∃ cs, tail = '#' :: cs) :
    ∃ c rest, tail ++ back = c :: rest ∧ isPathChar c = false ∧ isQuote c = false := by
  rcases htail with rfl | ⟨cs, rfl⟩
  · obtain ⟨c, more, rfl, hc⟩ := h.back
    refine ⟨c, more, rfl, ?_, ?_⟩
    · rw [← Bool.not_eq_true]
      intro hpathChar
      rw [isTargetChar_of_isPathChar hpathChar] at hc
      exact Bool.noConfusion hc
    · rw [← Bool.not_eq_true]
      intro hquote
      rw [isTargetChar_of_isQuote hquote] at hc
      exact Bool.noConfusion hc
  · exact ⟨'#', cs ++ back, rfl, by decide, by decide⟩

/--
A link whose path is another one stands in the body of its line, and behind it the body and the
ending are what they were.
-/
theorem exists_aimed_body {l : Link} {rest : List Char}
    (hl : l ∈ links (splitEnding (front ++ (path ++ (tail ++ rest)))).1)
    (htarget : l.target = ⟨width front, path ++ tail⟩)
    (hswaps : ∀ s ∈ oneSwap front path path' (tail ++ rest), s.Of InLine) :
    ∃ behind, Aimed (front ++ (path ++ (tail ++ behind))) l front behind ∧
      (splitEnding (front ++ (path ++ (tail ++ rest)))).1 = front ++ (path ++ (tail ++ behind)) ∧
      (splitEnding (front ++ (path' ++ (tail ++ rest)))).1 = front ++ (path' ++ (tail ++ behind)) := by
  obtain ⟨body, ending, hbody, hending, hending'⟩ := exists_body hswaps
  rw [olds_oneSwap] at hending
  rw [news_oneSwap] at hending'
  rw [hending] at hl
  obtain ⟨front', behind, haimed⟩ := exists_aimed hl
  have hline := haimed.line
  have hcolumn := haimed.column
  rw [htarget] at hline hcolumn
  dsimp only at hline hcolumn
  -- the line goes on behind the link to the same end
  have hwhole : front ++ (path ++ (tail ++ rest)) =
      front' ++ (path ++ (tail ++ (behind ++ olds ending))) := by
    have hsplit := congrArg olds hbody
    rw [olds_append, hline, olds_oneSwap] at hsplit
    simpa using hsplit
  obtain ⟨rfl, hrest⟩ := append_inj_of_width hwhole hcolumn
  have hrest := List.append_cancel_left (List.append_cancel_left hrest)
  have hbody' : body = oneSwap front path path' (tail ++ behind) := by
    refine (Swap.eq_of_width hswaps hbody (show _ = oneSwap front path path' (tail ++ behind) ++
      (olds ending).map keep by simp [oneSwap, hrest]) ?_).1
    rw [hline, olds_oneSwap, List.append_assoc]
  subst hbody'
  rw [olds_oneSwap] at haimed
  exact ⟨behind, haimed, by rw [hending, olds_oneSwap], by rw [hending', news_oneSwap]⟩

/--
**A text in which the path of a link is another one** gives the references that it gave, line by
line.
-/
theorem perLine_carried {content text : List Char} {above below : List (List Char)}
    (h : Replaced content text r link.toList above front back below)
    (hr : r ∈ perLine (Markdown.lineReferences rule source) content)
    (hkind : r.kind = .markdownInline) (hold : r.target.toList = path ++ tail) (hne : path ≠ [])
    (htail : tail = [] ∨ ∃ cs, tail = '#' :: cs) (hnew : link.toList = path' ++ tail)
    (hlong : 1 < path'.length) (hchars : ∀ c ∈ path', isPathChar c = true)
    (hinside : isExternal (path' ++ tail) = false)
    (htitles : ∀ front back quote, (r.line, front ++ back) ∈ numbered content →
      width front = r.columnStart → quote ∈ path → isQuote quote = true → ¬ InTitle quote front) :
    perLine (Markdown.lineReferences rule source) text =
      (perLine (Markdown.lineReferences rule source) content).map (r.carry link) := by
  refine perLine_replaced (given rule source) h ?_
  obtain ⟨index, line, hindex, hnumber, hfound⟩ := mem_perLine (given rule source) hr
  obtain rfl := h.line_eq hindex hnumber
  obtain ⟨l, hl, hlt, -⟩ := mem_lineReferences hfound hkind
  rw [h.column, hold] at hlt
  have hnumbered := mem_numbered_of_line hindex
  rw [hold, List.append_assoc] at hl hfound hnumbered ⊢
  rw [hnew, List.append_assoc, hnumber]
  have htargets : ∀ c ∈ path ++ tail, isTargetChar c = true := by
    obtain ⟨_, _, haimed⟩ := exists_aimed hl
    simpa [hlt] using haimed.chars
  have hpath : ∀ c ∈ path, isTargetChar c = true :=
    fun c hc => htargets c (List.mem_append_left _ hc)
  have hnil : path' ≠ [] := List.ne_nil_of_length_pos (Nat.lt_trans Nat.zero_lt_one hlong)
  obtain ⟨behind, haimed, hbody, hbody'⟩ := exists_aimed_body hl hlt
    (of_oneSwap ⟨hne, hnil⟩ (fun c hc => inLine_of_isTargetChar (hpath c hc))
      fun c hc => inLine_of_isPathChar (hchars c hc))
  rw [hbody] at hfound hnumbered ⊢
  rw [hbody']
  have hslot : Slot front path path' (tail ++ behind) :=
    ⟨haimed.opened, hne, hlong, hpath, hchars, haimed.border htail, fun quote hmem hquote =>
      htitles front _ quote (hnumber ▸ hnumbered) h.column.symm hmem hquote⟩
  exact hslot.lineReferences ⟨behind, rfl⟩ hfound hkind h.column hold hnew hinside

end LinkKeeper.Links.Markdown
