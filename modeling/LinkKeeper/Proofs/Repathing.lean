import LinkKeeper.Proofs.Replacing
import LinkKeeper.Proofs.Rereading

/-!
# An inline link gets another path

A path has taken the place of whatever a link had in front of its fragment, and the line is
read anew. A path holds no bracket, blank or quote, but what it replaces may well hold some,
and the readers of the line look at these. It does not matter: what stands in front of a link
ends in `](`, so the text of a link ends there and no path in quotes goes on past it, and in
the link itself nothing else was found.

One thing may go wrong. The title of a link has quotes around it and may hold anything else,
also what looks like a link. When such a link has the quote in its path, then the path ends the
title, and the link around it is none; and once the quote is gone the title may end later, at
the closing parenthesis, and then the link around it is found instead. So the path is asked to
hold no quote of a title that is open where it stands.
-/

namespace LinkKeeper.Links.Markdown

open Text Swap

/-! ## One swap on a line -/

/-- A line on which one word stands for another one. -/
def oneSwap (front word word' back : List Char) : List Swap :=
  front.map keep ++ ⟨word, word'⟩ :: back.map keep

variable {front word word' back : List Char}

@[simp] theorem olds_oneSwap : olds (oneSwap front word word' back) = front ++ (word ++ back) := by
  simp [oneSwap]

@[simp] theorem news_oneSwap : news (oneSwap front word word' back) = front ++ (word' ++ back) := by
  simp [oneSwap]

theorem map_keep_append_oneSwap (as : List Char) :
    as.map keep ++ oneSwap front word word' back = oneSwap (as ++ front) word word' back := by
  simp [oneSwap]

theorem of_oneSwap {p : Char → Prop} (hne : word ≠ [] ∧ word' ≠ []) (hword : ∀ c ∈ word, p c)
    (hword' : ∀ c ∈ word', p c) : ∀ s ∈ oneSwap front word word' back, s.Of p := by
  intro s hs
  rcases List.mem_append.mp hs with hs | hs
  · obtain ⟨c, -, rfl⟩ := List.mem_map.mp hs
    exact .inl ⟨c, rfl⟩
  · rcases List.mem_cons.mp hs with rfl | hs
    · exact .inr ⟨hne, hword, hword'⟩
    · obtain ⟨c, -, rfl⟩ := List.mem_map.mp hs
      exact .inl ⟨c, rfl⟩

/-- A border of the line is in front of the word or behind it. -/
theorem oneSwap_eq_append {as bs : List Swap} (h : oneSwap front word word' back = as ++ bs) :
    (∃ f f', front = f ++ f' ∧ as = f.map keep ∧ bs = oneSwap f' word word' back) ∨
      ∃ b b', back = b ++ b' ∧ as = oneSwap front word word' b ∧ bs = b'.map keep := by
  rcases List.append_eq_append_iff.mp h with ⟨more, has, hmore⟩ | ⟨more, hfront, hbs⟩
  · cases more with
    | nil =>
        rw [List.append_nil] at has
        exact .inl ⟨front, [], by simp, has, by simpa [oneSwap] using hmore.symm⟩
    | cons s more =>
        obtain ⟨rfl, hback⟩ := List.cons.inj hmore
        obtain ⟨b, b', rfl, hb, hb'⟩ := List.map_eq_append_iff.mp hback
        exact .inr ⟨b, b', rfl, by rw [has, oneSwap, hb], hb'.symm⟩
  · obtain ⟨f, f', rfl, hf, hf'⟩ := List.map_eq_append_iff.mp hfront
    exact .inl ⟨f, f', rfl, hf.symm, by rw [hbs, ← hf', oneSwap]⟩

/-- Borders in front of the word stay where they are, and those behind it move with its end. -/
theorem width_border {as bs : List Swap} (h : oneSwap front word word' back = as ++ bs) :
    (width (olds as) ≤ width front ∧ width (news as) = width (olds as)) ∨
      (width front + width word ≤ width (olds as) ∧
        width (news as) + width word = width (olds as) + width word') := by
  rcases oneSwap_eq_append h with ⟨f, f', rfl, rfl, -⟩ | ⟨b, b', rfl, rfl, -⟩
  · left
    simp
  · right
    simp only [olds_oneSwap, news_oneSwap, width_append]
    omega

/-! ## What is in front of a path -/

/-- The text in front of the target of a link. -/
def Opened (front : List Char) : Prop :=
  ∃ ahead gap, front = ahead ++ '(' :: gap ∧ ∀ c ∈ gap, isBlank c = true

/-- What is left of such a text holds the parenthesis, or it is blank. -/
theorem Opened.of_append {as bs : List Char} (h : Opened (as ++ bs)) :
    Opened bs ∨ ∀ c ∈ bs, isBlank c = true := by
  obtain ⟨ahead, gap, hfront, hgap⟩ := h
  rcases List.append_eq_append_iff.mp hfront with ⟨more, -, rfl⟩ | ⟨more, -, hmore⟩
  · exact .inl ⟨more, gap, rfl, hgap⟩
  · cases more with
    | nil => exact .inl ⟨[], gap, hmore.symm, hgap⟩
    | cons c more =>
        obtain ⟨-, rfl⟩ := List.cons.inj hmore
        exact .inr fun c hc => hgap c (by simp [hc])

/-- The parenthesis is behind any other character that is not blank. -/
theorem Opened.behind {as bs : List Char} {c : Char} (h : Opened (as ++ c :: bs)) (hc : c ≠ '(')
    (hblank : isBlank c = false) : Opened bs := by
  have hopened : Opened (c :: bs) := by
    refine h.of_append.resolve_right fun hall => ?_
    rw [hall c (by simp)] at hblank
    exact Bool.noConfusion hblank
  obtain ⟨ahead, gap, hfront, hgap⟩ := hopened
  cases ahead with
  | nil => exact absurd (List.cons.inj hfront).1 hc
  | cons d ahead => exact ⟨ahead, gap, (List.cons.inj hfront).2, hgap⟩

theorem Opened.mem (h : Opened front) : '(' ∈ front := by
  obtain ⟨ahead, gap, rfl, -⟩ := h
  simp

/-- A run that ends within a text, whatever comes behind the text. -/
theorem exists_run {q : Char → Bool} {cs : List Char} (h : ∃ c ∈ cs, q c = false) :
    ∃ run c rest, cs = run ++ c :: rest ∧ (∀ d ∈ run, q d = true) ∧ q c = false ∧
      ∀ more, (cs ++ more).takeWhile q = run ∧ (cs ++ more).dropWhile q = c :: (rest ++ more) := by
  induction cs with
  | nil => simp at h
  | cons a cs ih =>
      by_cases ha : q a = true
      · have hrest : ∃ c ∈ cs, q c = false := by
          obtain ⟨c, hc, hq⟩ := h
          rcases List.mem_cons.mp hc with rfl | hc
          · rw [ha] at hq
            exact Bool.noConfusion hq
          · exact ⟨c, hc, hq⟩
        obtain ⟨run, c, rest, rfl, hrun, hc, hends⟩ := ih hrest
        refine ⟨a :: run, c, rest, rfl, ?_, hc, fun more => ?_⟩
        · intro d hd
          rcases List.mem_cons.mp hd with rfl | hd
          · exact ha
          · exact hrun d hd
        · obtain ⟨htake, hdrop⟩ := hends more
          rw [List.cons_append, List.takeWhile_cons_of_pos ha, List.dropWhile_cons_of_pos ha, htake,
            hdrop]
          exact ⟨rfl, rfl⟩
      · rw [Bool.not_eq_true] at ha
        refine ⟨[], a, cs, rfl, by simp, ha, fun more => ?_⟩
        rw [List.cons_append, List.takeWhile_cons_of_neg (by simp [ha]),
          List.dropWhile_cons_of_neg (by simp [ha])]
        exact ⟨rfl, rfl⟩

/--
The title of a link is open at the end of a text: behind the target and a blank there has been
its quote, and it has not come again.
-/
def InTitle (quote : Char) (front : List Char) : Prop :=
  ∃ ahead lead target gap inside,
    front = ahead ++ ']' :: '(' :: (lead ++ (target ++ (gap ++ quote :: inside))) ∧
      (∀ c ∈ lead, isBlank c = true) ∧ (target ≠ [] ∧ ∀ c ∈ target, isTargetChar c = true) ∧
      (gap ≠ [] ∧ ∀ c ∈ gap, isBlank c = true) ∧ quote ∉ inside

/-- A path stands behind the opening of a link, and another one may take its place. -/
structure Slot (front path path' back : List Char) : Prop where
  opened : ∃ ahead gap, front = ahead ++ ']' :: '(' :: gap ∧ ∀ c ∈ gap, isBlank c = true
  nonempty : path ≠ []
  long : 1 < path'.length
  chars : ∀ c ∈ path, isTargetChar c = true
  chars' : ∀ c ∈ path', isPathChar c = true
  back : ∃ c rest, back = c :: rest ∧ isPathChar c = false ∧ isQuote c = false
  /-- No title is open of which the path holds the quote. -/
  titles : ∀ quote ∈ path, isQuote quote = true → ¬ InTitle quote front

/-! ## The target of a link -/

theorem exists_of_shut? {cs rest : List Char} (h : shut? cs = some rest) :
    ∃ mid, cs = mid ++ rest := by
  unfold shut? at h
  split at h
  · rename_i after heq
    obtain rfl := Option.some.inj h
    refine ⟨cs.takeWhile isBlank ++ [')'], ?_⟩
    rw [List.append_assoc, List.singleton_append, ← heq, List.takeWhile_append_dropWhile]
  · exact absurd h (by simp)

theorem shut?_of_drop {cs rest : List Char} {c : Char} (h : cs.dropWhile isBlank = c :: rest) :
    shut? cs = if c = ')' then some rest else none := by
  unfold shut?
  rw [h]
  split
  · rename_i heq
    obtain ⟨rfl, rfl⟩ := List.cons.inj heq
    rfl
  · rename_i hnot
    rw [if_neg]
    rintro rfl
    exact hnot _ rfl

theorem isBlank_of_isTargetChar {c : Char} (h : isTargetChar c = true) : isBlank c = false := by
  simp only [isTargetChar, Bool.not_eq_true', Bool.or_eq_false_iff] at h
  exact h.2

theorem isTargetChar_of_isQuote {c : Char} (h : isQuote c = true) : isTargetChar c = true := by
  rcases isQuote_iff.mp h with rfl | rfl <;> decide

/--
**What closes a link is the same before and after.** Either it is closed in front of the path, or
by a title that goes on past the path, or not at all.
-/
theorem closing?_oneSwap (hopen : Opened front) (hchars : ∀ c ∈ word', isPathChar c = true)
    (htitle : ∀ gap quote inside, front = gap ++ quote :: inside →
      (∀ c ∈ gap, isBlank c = true) → isQuote quote = true → quote ∉ inside → quote ∉ word) :
    Follows closing? (oneSwap front word word' back) := by
  obtain ⟨gap, c, inside, rfl, hgap, hc, hends⟩ :=
    @exists_run isBlank front ⟨'(', hopen.mem, by decide⟩
  have hold := (hends (word ++ back)).2
  have hnew := (hends (word' ++ back)).2
  rw [← @olds_oneSwap _ word word'] at hold
  rw [← @news_oneSwap _ word word'] at hnew
  have hsplit : ∀ as bs : List Char, oneSwap (as ++ bs) word word' back =
      as.map keep ++ oneSwap bs word word' back := fun as bs => (map_keep_append_oneSwap as).symm
  by_cases hshut : c = ')'
  · subst hshut
    refine .inr ⟨(gap ++ [')']).map keep, oneSwap inside word word' back, ?_, ?_, ?_⟩
    · rw [← hsplit, List.append_assoc, List.singleton_append]
    · rw [closing?_of_shut hold, olds_oneSwap]
    · rw [closing?_of_shut hnew, news_oneSwap]
  by_cases hquote : isQuote c = true
  · have hne : c ≠ '(' := by
      rintro rfl
      exact absurd hquote (by decide)
    have hinside := hopen.behind hne hc
    rw [Follows, closing?_of_quote hquote hold, closing?_of_quote hquote hnew]
    by_cases hmem : c ∈ inside
    · -- the title ends in front of the path
      obtain ⟨title, after, rfl, hnot⟩ := List.eq_append_cons_of_mem hmem
      have hfirst : ∀ more, splitFirst? c (title ++ c :: after ++ more) = some (title, after ++ more) := by
        intro more
        rw [List.append_assoc, List.cons_append]
        exact splitFirst?_append_cons hnot _
      rw [hfirst, hfirst, Option.bind_some, Option.bind_some]
      obtain ⟨gap', d, rest, rfl, -, -, hends'⟩ :=
        @exists_run isBlank after ⟨'(', (hinside.behind hne hc).mem, by decide⟩
      rw [shut?_of_drop (hends' _).2, shut?_of_drop (hends' _).2]
      by_cases hd : d = ')'
      · rw [if_pos hd, if_pos hd]
        refine .inr ⟨(gap ++ c :: (title ++ c :: (gap' ++ [d]))).map keep,
          oneSwap rest word word' back, ?_, by simp, by simp⟩
        rw [← hsplit]
        simp
      · rw [if_neg hd, if_neg hd]
        exact .inl ⟨rfl, rfl⟩
    · -- the title goes on past the path
      have hnot : c ∉ inside ++ word := by
        rw [List.mem_append, not_or]
        exact ⟨hmem, htitle gap c inside rfl hgap hquote hmem⟩
      have hnot' : c ∉ inside ++ word' := by
        rw [List.mem_append, not_or]
        exact ⟨hmem, fun hin => not_isPathChar_of_isQuote hquote (hchars c hin)⟩
      rw [← List.append_assoc, ← List.append_assoc]
      by_cases hback : c ∈ back
      · obtain ⟨title, after, rfl, hfirst⟩ := List.eq_append_cons_of_mem hback
        have hends : ∀ before : List Char, c ∉ before →
            splitFirst? c (before ++ (title ++ c :: after)) = some (before ++ title, after) := by
          intro before hbefore
          rw [← List.append_assoc]
          exact splitFirst?_append_cons (by
            rw [List.mem_append, not_or]
            exact ⟨hbefore, hfirst⟩) _
        rw [hends _ hnot, hends _ hnot', Option.bind_some, Option.bind_some]
        cases hafter : shut? after with
        | none => exact .inl ⟨rfl, rfl⟩
        | some rest =>
            obtain ⟨mid, rfl⟩ := exists_of_shut? hafter
            refine .inr ⟨oneSwap (gap ++ c :: inside) word word' (title ++ c :: mid), rest.map keep,
              ?_, by simp, by simp⟩
            simp [oneSwap]
      · have hnone : ∀ before : List Char, c ∉ before → splitFirst? c (before ++ back) = none := by
          intro before hbefore
          rw [splitFirst?_eq_none, List.mem_append, not_or]
          exact ⟨hbefore, hback⟩
        rw [hnone _ hnot, hnone _ hnot']
        exact .inl ⟨rfl, rfl⟩
  · have hneither : ∀ {line : List Char} {rest : List Char}, line.dropWhile isBlank = c :: rest →
        closing? line = none := by
      intro line rest hdrop
      refine closing?_of_neither (fun rest' heq => ?_) fun quote more hq heq => ?_
      · exact hshut (List.cons.inj (hdrop.symm.trans heq)).1
      · rw [(List.cons.inj (hdrop.symm.trans heq)).1] at hquote
        exact hquote hq
    exact .inl ⟨hneither hold, hneither hnew⟩

/--
**The target of a link is the same before and after, or it begins with the path.** The opening of
the link stands in front of the path.
-/
theorem aims_oneSwap (hopen : Opened front ∨ ∀ c ∈ front, isBlank c = true)
    (hsome : word ≠ [] ∧ word' ≠ []) (hword : ∀ c ∈ word, isTargetChar c = true)
    (hword' : ∀ c ∈ word', isPathChar c = true)
    (htitle : ∀ lead target gap quote inside, front = lead ++ (target ++ (gap ++ quote :: inside)) →
      (∀ c ∈ lead, isBlank c = true) → (target ≠ [] ∧ ∀ c ∈ target, isTargetChar c = true) →
      (gap ≠ [] ∧ ∀ c ∈ gap, isBlank c = true) → isQuote quote = true → quote ∉ inside →
      quote ∉ word) : Aims (oneSwap front word word' back) := by
  rcases hopen with hopen | hblank
  · obtain ⟨lead, c, rest, rfl, hlead, hc, hends⟩ :=
      @exists_run isBlank front ⟨'(', hopen.mem, by decide⟩
    have hrest : '(' ∈ c :: rest := by
      refine (List.mem_append.mp hopen.mem).resolve_left fun hmem => ?_
      exact absurd (hlead _ hmem) (by decide)
    obtain ⟨target, d, behind, htarget, hchars, hd, hstops⟩ :=
      @exists_run isTargetChar (c :: rest) ⟨'(', hrest, by decide⟩
    have hread : ∀ more, (lead ++ c :: rest ++ more).takeWhile isBlank = lead ∧
        ((lead ++ c :: rest ++ more).dropWhile isBlank).takeWhile isTargetChar = target ∧
        ((lead ++ c :: rest ++ more).dropWhile isBlank).dropWhile isTargetChar =
          d :: behind ++ more := by
      intro more
      obtain ⟨htake, hdrop⟩ := hends more
      rw [htake, hdrop]
      exact ⟨rfl, hstops more⟩
    rw [htarget] at hopen htitle ⊢
    obtain ⟨hlead', htake, hdrop⟩ := hread (word ++ back)
    obtain ⟨hlead'', htake', hdrop'⟩ := hread (word' ++ back)
    rw [htarget] at hlead' htake hdrop hlead'' htake' hdrop'
    by_cases hnil : target = []
    · refine .inl ⟨destination?_eq_none ?_, destination?_eq_none ?_⟩
      · rw [olds_oneSwap, htake, hnil]
      · rw [news_oneSwap, htake', hnil]
    · have hold := destination?_eq (by rw [htake]; exact hnil)
      have hnew := destination?_eq (by rw [htake']; exact hnil)
      rw [hlead', htake, hdrop] at hold
      rw [hlead'', htake', hdrop'] at hnew
      have hbehind : Opened (d :: behind) := by
        rw [← List.append_assoc] at hopen
        refine hopen.of_append.resolve_right fun hall => ?_
        obtain ⟨ahead, gap, hfront, hgap⟩ := hopen
        -- the parenthesis is neither a blank nor a character of the target
        have hmem : '(' ∈ lead ++ target ++ d :: behind := by
          rw [hfront]
          simp
        rcases List.mem_append.mp hmem with hmem | hmem
        · rcases List.mem_append.mp hmem with hmem | hmem
          · exact absurd (hlead _ hmem) (by decide)
          · exact absurd (hchars _ hmem) (by decide)
        · exact absurd (hall _ hmem) (by decide)
      have hfollows := @closing?_oneSwap _ word word' back hbehind hword'
        fun gap quote inside hgap hblanks hquote hnot => by
          refine htitle lead target gap quote inside (by rw [hgap]) hlead ⟨hnil, hchars⟩ ⟨?_, hblanks⟩
            hquote hnot
          rintro rfl
          rw [(List.cons.inj hgap).1, isTargetChar_of_isQuote hquote] at hd
          exact Bool.noConfusion hd
      rw [Aims, olds_oneSwap, news_oneSwap, hold, hnew]
      rcases hfollows with ⟨hclosing, hclosing'⟩ | ⟨closing, back', hline, hclosing, hclosing'⟩
      · rw [olds_oneSwap] at hclosing
        rw [news_oneSwap] at hclosing'
        exact .inl ⟨by rw [hclosing]; rfl, by rw [hclosing']; rfl⟩
      · rw [olds_oneSwap] at hclosing
        rw [news_oneSwap] at hclosing'
        refine .inr ⟨lead.map keep, target.map keep, closing, back', ?_, ?_, ?_⟩
        · rw [← hline, map_keep_append_oneSwap, map_keep_append_oneSwap]
        · rw [hclosing]
          simp
        · rw [hclosing']
          simp
  · -- the target begins with the path, and ends where the path has its end and what follows
    have hread : ∀ path : List Char, path ≠ [] → (∀ c ∈ path, isTargetChar c = true) →
        destination? (front ++ (path ++ back)) = (closing? (back.dropWhile isTargetChar)).map
          fun rest => (⟨width front, path ++ back.takeWhile isTargetChar⟩, rest) := by
      intro path hne hpath
      obtain ⟨p, ps, rfl⟩ := List.exists_cons_of_ne_nil hne
      have hp : isBlank p = false := isBlank_of_isTargetChar (hpath p (by simp))
      have hlead : (front ++ (p :: ps ++ back)).takeWhile isBlank = front := by
        rw [List.takeWhile_append_of_pos hblank, List.cons_append, List.takeWhile_cons_of_neg (by simp [hp]),
          List.append_nil]
      have hinner : (front ++ (p :: ps ++ back)).dropWhile isBlank = p :: ps ++ back := by
        rw [List.dropWhile_append_of_pos hblank, List.cons_append, List.dropWhile_cons_of_neg (by simp [hp])]
      have htake : ((front ++ (p :: ps ++ back)).dropWhile isBlank).takeWhile isTargetChar =
          p :: ps ++ back.takeWhile isTargetChar := by
        rw [hinner, List.takeWhile_append_of_pos hpath]
      rw [destination?_eq (by rw [htake]; simp), htake, hlead, hinner, List.dropWhile_append_of_pos hpath]
    have hold := hread word hsome.1 hword
    have hnew := hread word' hsome.2 fun c hc => isTargetChar_of_isPathChar (hword' c hc)
    rw [Aims, olds_oneSwap, news_oneSwap, hold, hnew]
    cases hclosing : closing? (back.dropWhile isTargetChar) with
    | none => exact .inl ⟨rfl, rfl⟩
    | some rest =>
        obtain ⟨mid, hmid⟩ := exists_of_closing? hclosing
        refine .inr ⟨front.map keep, oneSwap [] word word' (back.takeWhile isTargetChar), mid.map keep,
          rest.map keep, ?_, by simp, by simp⟩
        have hback : back = back.takeWhile isTargetChar ++ (mid ++ rest) := by
          rw [← hmid, List.takeWhile_append_dropWhile]
        conv_lhs => rw [hback]
        simp [oneSwap]

/-! ## The recognisers of links -/

variable {path path' : List Char}

theorem Slot.ne_nil (h : Slot front path path' back) : path ≠ [] ∧ path' ≠ [] :=
  ⟨h.nonempty, List.ne_nil_of_length_pos (Nat.lt_trans Nat.zero_lt_one h.long)⟩

theorem Slot.swaps (h : Slot front path path' back) :
    ∀ s ∈ oneSwap front path path' back, s.Of fun _ => True :=
  of_oneSwap h.ne_nil (fun _ _ => trivial) fun _ _ => trivial

/-- What stands behind `](` up to the path opens the same target before and after. -/
theorem Slot.aims (h : Slot front path path' back) {ahead rest : List Char}
    (hfront : front = ahead ++ ']' :: '(' :: rest) : Aims (oneSwap rest path path' back) := by
  obtain ⟨ahead', gap, hgap, hblank⟩ := h.opened
  have hopen : Opened front := ⟨ahead' ++ [']'], gap, by simp [hgap], hblank⟩
  have hrest : front = (ahead ++ [']', '(']) ++ rest := by simp [hfront]
  refine aims_oneSwap (hrest ▸ hopen : Opened _).of_append h.ne_nil h.chars h.chars' ?_
  intro lead target gap quote inside hsplit hlead htarget hgap hquote hnot hmem
  exact h.titles quote hmem hquote ⟨ahead, lead, target, gap, inside, by rw [hfront, hsplit], hlead,
    htarget, hgap, hnot⟩

/-- In front of the path, and of its opening, there is an opening to come. -/
theorem Slot.exists_opening (h : Slot front path path' back) {as bs : List Char} {c : Char}
    (hsplit : front = as ++ c :: bs) (hc : c ≠ ']' ∧ c ≠ '(') (hblank : isBlank c = false) :
    ∃ ahead gap, bs = ahead ++ ']' :: '(' :: gap := by
  obtain ⟨ahead, gap, hfront, hgap⟩ := h.opened
  rcases List.append_eq_append_iff.mp (hsplit.symm.trans hfront) with
    ⟨more, -, hmore⟩ | ⟨more, -, hmore⟩
  · cases more with
    | nil => exact absurd (List.cons.inj hmore).1 hc.1
    | cons d more => exact ⟨more, gap, (List.cons.inj hmore).2⟩
  · cases more with
    | nil => exact absurd (List.cons.inj hmore).1.symm hc.1
    | cons d more =>
        obtain ⟨-, hmore⟩ := List.cons.inj hmore
        cases more with
        | nil => exact absurd (List.cons.inj hmore).1.symm hc.2
        | cons e more =>
            obtain ⟨-, rfl⟩ := List.cons.inj hmore
            rw [hgap c (by simp)] at hblank
            exact Bool.noConfusion hblank

/-- In front of the path an inline link is the same before and after. -/
theorem Slot.agrees_inlineLink (h : Slot front path path' back) {as bs : List Char} {c : Char}
    (hsplit : front = as ++ c :: bs) :
    Agrees inlineLink (fun a b => b = a) (oneSwap (c :: bs) path path' back) := by
  have hnone : (∀ more inside rest, c :: bs ++ more = '[' :: inside →
      inside.dropWhile isTextChar ≠ ']' :: '(' :: rest) →
      Agrees inlineLink (fun a b => b = a) (oneSwap (c :: bs) path path' back) := by
    intro hno
    refine .inl fun before => ⟨?_, ?_⟩
    · rw [olds_oneSwap]
      exact inlineLink_eq_none before _ fun inside rest heq => hno _ inside rest heq
    · rw [news_oneSwap]
      exact inlineLink_eq_none before _ fun inside rest heq => hno _ inside rest heq
  by_cases hc : c = '['
  · subst hc
    obtain ⟨ahead, gap, hbs⟩ := h.exists_opening hsplit (by decide) (by decide)
    obtain ⟨text, d, rest, rfl, -, -, hends⟩ :=
      @exists_run isTextChar bs ⟨']', by rw [hbs]; simp, by decide⟩
    by_cases hopening : ∃ tail, d :: rest = ']' :: '(' :: tail
    · obtain ⟨tail, htail⟩ := hopening
      obtain ⟨rfl, rfl⟩ := List.cons.inj htail
      have haims := h.aims (show _ = (as ++ '[' :: text) ++ ']' :: '(' :: tail by simp [hsplit])
      have hagrees : Agrees inlineLink (fun a b => b = a)
          (('[' :: (text ++ [']', '('])).map keep ++ oneSwap tail path path' back) := by
        refine agrees_of_aims haims (by simp) (rfl : some text = some text) fun before => ?_
        have hold := inlineLink_eq before _ _ (hends (path ++ back)).2
        have hnew := inlineLink_eq before _ _ (hends (path' ++ back)).2
        rw [(hends (path ++ back)).1] at hold
        rw [(hends (path' ++ back)).1] at hnew
        simp only [olds_append, news_append, olds_map_keep, news_map_keep, olds_oneSwap, news_oneSwap]
        exact ⟨by simpa using hold, by simpa using hnew⟩
      rw [map_keep_append_oneSwap] at hagrees
      simpa using hagrees
    · refine hnone fun more inside rest' heq hdrop => ?_
      obtain ⟨-, rfl⟩ := List.cons.inj heq
      have hdrop : (text ++ d :: rest ++ more).dropWhile isTextChar = ']' :: '(' :: rest' := hdrop
      rw [(hends more).2] at hdrop
      obtain ⟨rfl, hparenthesis⟩ := List.cons.inj hdrop
      cases rest with
      | nil =>
          -- the bracket is not the last thing in front of the path
          have hlast := congrArg List.getLast? hbs
          obtain ⟨ahead', gap', hfront, hgap⟩ := h.opened
          rw [hsplit] at hfront
          have hopen : Opened (as ++ '[' :: (text ++ [']'])) :=
            ⟨ahead' ++ [']'], gap', by simp [hfront], hgap⟩
          have hnil := (hopen.behind (by decide) (by decide)).behind (c := ']') (by decide) (by decide)
          exact absurd hnil.mem (by simp)
      | cons e rest =>
          obtain ⟨rfl, -⟩ := List.cons.inj hparenthesis
          exact hopening ⟨rest, rfl⟩
  · refine hnone fun more inside rest heq => absurd (List.cons.inj heq).1 hc

/-- So is the end of a link around an image. -/
theorem Slot.agrees_imageLinkEnd (h : Slot front path path' back) {as bs : List Char} {c : Char}
    (hsplit : front = as ++ c :: bs) :
    Agrees imageLinkEnd (fun a b => b = a) (oneSwap (c :: bs) path path' back) := by
  by_cases hopening : ∃ tail, c :: bs = ')' :: ']' :: '(' :: tail
  · obtain ⟨tail, htail⟩ := hopening
    obtain ⟨rfl, rfl⟩ := List.cons.inj htail
    have haims := h.aims (show _ = (as ++ [')']) ++ ']' :: '(' :: tail by simp [hsplit])
    have hagrees : Agrees imageLinkEnd (fun a b => b = a)
        ([')', ']', '('].map keep ++ oneSwap tail path path' back) :=
      agrees_of_aims haims (by simp) (rfl : (none : Option (List Char)) = none) fun before => by
        simp only [olds_append, news_append, olds_map_keep, news_map_keep, olds_oneSwap, news_oneSwap]
        exact ⟨rfl, rfl⟩
    rw [map_keep_append_oneSwap] at hagrees
    exact hagrees
  · have hnone : ∀ more rest : List Char, c :: bs ++ more ≠ ')' :: ']' :: '(' :: rest := by
      intro more rest heq
      obtain ⟨rfl, htail⟩ := List.cons.inj heq
      obtain ⟨ahead, gap, rfl⟩ := h.exists_opening hsplit (by decide) (by decide)
      refine hopening ?_
      rcases ahead with _ | ⟨a, _ | ⟨b, ahead⟩⟩
      · exact ⟨gap, rfl⟩
      · exact absurd (List.cons.inj (List.cons.inj htail).2).1 (by decide)
      · obtain ⟨rfl, hmore⟩ := List.cons.inj htail
        obtain ⟨rfl, -⟩ := List.cons.inj hmore
        exact ⟨ahead ++ ']' :: '(' :: gap, rfl⟩
    refine .inl fun before => ⟨?_, ?_⟩
    · rw [olds_oneSwap]
      exact imageLinkEnd_eq_none before _ (hnone _)
    · rw [news_oneSwap]
      exact imageLinkEnd_eq_none before _ (hnone _)

/-- Where nothing is swapped a recogniser of links sees one line. -/
theorem Steady.agrees_keeps {find : Recogniser Found} (hfind : Steady find) (cs : List Char) :
    Agrees find (fun a b => b = a) (cs.map keep) := by
  have hworded : Worded (cs.map keep) := by
    intro s hs
    obtain ⟨c, -, rfl⟩ := List.mem_map.mp hs
    exact .inl ⟨c, rfl⟩
  rcases hfind.follows _ hworded with hnone | ⟨m, hfront, hall, hne, hsome⟩
  · exact .inl hnone
  · refine .inr ⟨m, hfront, hall, hne, ?_, hsome⟩
    obtain ⟨hold, hnew⟩ := hsome none
    rw [olds_map_keep] at hold
    rw [news_map_keep, hold] at hnew
    exact (congrArg (fun answer => answer.1.1) (Option.some.inj hnew)).symm

/-- What begins nowhere in a word goes past it. -/
theorem matchesFrom_free {find : Recogniser Found} {as cs : List Char} {column : Nat}
    {before : Option Char}
    (h : ∀ m ∈ matchesFrom find column before 0 (as ++ cs), column + width as ≤ m.1 ∨ m.1 < column) :
    ∃ last, matchesFrom find column before 0 (as ++ cs) =
      matchesFrom find (column + width as) last 0 cs := by
  induction as generalizing column before with
  | nil => exact ⟨before, rfl⟩
  | cons a as ih =>
      have hsize := Char.utf8Size_pos a
      cases hfind : find before (a :: (as ++ cs)) with
      | some answer =>
          have hmem := h (column, answer.1) (by
            rw [List.cons_append, matchesFrom, hfind]
            exact List.mem_cons_self)
          rw [width_cons] at hmem
          dsimp only at hmem
          omega
      | none =>
          rw [List.cons_append, matchesFrom_none hfind] at h ⊢
          obtain ⟨last, hlast⟩ := @ih (column + a.utf8Size) (some a) fun m hm => by
            have := h m hm
            rw [width_cons] at this
            obtain ⟨front', rest, -, -, -, -, hcolumn, -⟩ := mem_matchesFrom hm
            omega
          refine ⟨last, ?_⟩
          rw [hlast, width_cons, Nat.add_assoc]

/--
**The links of a line in one way of writing** are the same before and after, when none of them
begins inside the path.
-/
theorem Slot.linksOf (h : Slot front path path' back) {find : Recogniser Found}
    (hfind : Steady find) (hagrees : ∀ as c bs, front = as ++ c :: bs →
      Agrees find (fun a b => b = a) (oneSwap (c :: bs) path path' back))
    (hfree : ∀ l ∈ Markdown.linksOf find (front ++ (path ++ back)),
      width front + width path ≤ l.whole.start ∨ l.whole.start < width front) :
    ∃ ms : List Pair, (∀ m ∈ ms, m.all = oneSwap front path path' back ∧ m.newText = m.text) ∧
      Markdown.linksOf find (front ++ (path ++ back)) = ms.map Pair.oldLink ∧
      Markdown.linksOf find (front ++ (path' ++ back)) = ms.map Pair.newLink := by
  have hstays : ∀ c, (⟨path, path'⟩ : Swap) ≠ keep c := by
    intro c heq
    have hlong := h.long
    rw [(Swap.mk.inj heq).2] at hlong
    exact absurd hlong (by simp)
  have hkeep : ∀ before c rest, oneSwap front path path' back = before ++ keep c :: rest →
      Agrees find (fun a b => b = a) (keep c :: rest) := by
    intro before c rest hline
    rcases oneSwap_eq_append hline with ⟨f, f', hfront, -, hrest⟩ | ⟨b, b', -, -, hrest⟩
    · cases f' with
      | nil => exact absurd (List.cons.inj hrest).1.symm (hstays c)
      | cons d f' =>
          rw [hrest]
          exact hagrees f d f' hfront
    · rw [hrest]
      exact hfind.agrees_keeps b'
  have hword : ∀ before s rest, oneSwap front path path' back = before ++ s :: rest →
      (∀ c, s ≠ keep c) → before = front.map keep ∧ s = ⟨path, path'⟩ ∧ rest = back.map keep := by
    intro before s rest hline hs
    rcases oneSwap_eq_append hline with ⟨f, f', hfront, hbefore, hrest⟩ | ⟨b, b', -, -, hrest⟩
    · cases f' with
      | nil =>
          obtain ⟨rfl, rfl⟩ := List.cons.inj hrest
          exact ⟨by rw [hbefore, hfront, List.append_nil], rfl, rfl⟩
      | cons d f' => exact absurd (List.cons.inj hrest).1 (hs d)
    · cases b' with
      | nil => exact absurd hrest (by simp)
      | cons d b' => exact absurd (List.cons.inj hrest).1 (hs d)
  obtain ⟨ms, hms, hold, hnew⟩ := @matchesFrom_of_agrees (oneSwap front path path' back) find _
    (fun m => width front + width path ≤ m.1 ∨ m.1 < width front) _
    h.swaps hkeep
    (fun before s rest hline hs last last' column' hheld => by
      obtain ⟨rfl, rfl, rfl⟩ := hword before s rest hline hs
      simp only [olds_map_keep, olds_cons, news_cons, news_map_keep] at hheld ⊢
      obtain ⟨after, hafter⟩ := matchesFrom_free hheld
      obtain ⟨after', hafter'⟩ := matchesFrom_pass
        (fun c hc before cs => hfind.starts before c cs (h.chars' c hc)) column' last' back
      exact ⟨after, after', hafter, hafter'⟩)
    [] _ (List.nil_append _).symm none none fun m hm => by
      rw [olds_nil, width_nil, olds_oneSwap] at hm
      have hmem := hfree _ (List.mem_map_of_mem hm)
      exact hmem
  rw [olds_nil, width_nil, olds_oneSwap] at hold
  rw [news_nil, width_nil, news_oneSwap] at hnew
  refine ⟨ms, hms, ?_, ?_⟩
  · rw [Markdown.linksOf, matchesOf, hold, List.map_map]
    rfl
  · rw [Markdown.linksOf, matchesOf, hnew, List.map_map]
    rfl

end LinkKeeper.Links.Markdown
