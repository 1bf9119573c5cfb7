import LinkKeeper.Links.Format
import LinkKeeper.Proofs.SideBySide
import LinkKeeper.Proofs.Walking

/-!
# Two ways to end a line

A line ends in a line feed, or in a carriage return and a line feed. Two texts with the same
lines that end them differently hold the same links at the same places. Whoever reads by lines
does not see how they end. The reader of documents goes by bytes. It passes over ends of lines
as blanks, or stops at them behind a word, and no string holds one; and a place is a line, and
what stands before it on this line.
-/

namespace LinkKeeper.Text

/-- What a line may end in. -/
def IsLineEnd (cs : List Char) : Prop := cs = ['\n'] ∨ cs = ['\r', '\n']

/-- Two texts with the same lines, each of which ends in either way. -/
inductive Reended : List Char → List Char → Prop
  | nil : Reended [] []
  | char {c : Char} {cs ds : List Char} (hfeed : c ≠ '\n') (hreturn : c ≠ '\r') (h : Reended cs ds) :
      Reended (c :: cs) (c :: ds)
  | lineEnd {as bs cs ds : List Char} (ha : IsLineEnd as) (hb : IsLineEnd bs) (h : Reended cs ds) :
      Reended (as ++ cs) (bs ++ ds)

variable {as bs cs ds rest : List Char}

theorem Reended.symm (h : Reended cs ds) : Reended ds cs := by
  induction h with
  | nil => exact .nil
  | char hfeed hreturn _ ih => exact .char hfeed hreturn ih
  | lineEnd ha hb _ ih => exact .lineEnd hb ha ih

theorem Reended.append (h : Reended as bs) (h' : Reended cs ds) : Reended (as ++ cs) (bs ++ ds) := by
  induction h with
  | nil => exact h'
  | char hfeed hreturn _ ih => exact .char hfeed hreturn ih
  | lineEnd ha hb _ ih =>
      rw [List.append_assoc, List.append_assoc]
      exact .lineEnd ha hb ih

/-- A text without carriage returns, and the same with one in front of each line feed. -/
theorem reended_replaceChar (h : '\r' ∉ cs) : Reended cs (replaceChar '\n' ['\r', '\n'] cs) := by
  induction cs with
  | nil => exact .nil
  | cons c cs ih =>
      rw [List.mem_cons, not_or] at h
      rw [replaceChar, List.flatMap_cons]
      by_cases hc : c = '\n'
      · rw [if_pos hc, hc]
        exact @Reended.lineEnd ['\n'] _ _ _ (.inl rfl) (.inr rfl) (ih h.2)
      · rw [if_neg hc]
        exact .char hc (Ne.symm h.1) (ih h.2)

/-- What the one holds, the other holds too, ends of lines apart. -/
theorem Reended.mem (h : Reended cs ds) {d : Char} (hd : d ∈ ds) : d ∈ cs ∨ d = '\r' ∨ d = '\n' := by
  induction h with
  | nil => exact .inl hd
  | char _ _ _ ih =>
      rcases List.mem_cons.mp hd with rfl | hd
      · exact .inl (by simp)
      · exact (ih hd).imp_left (List.mem_cons_of_mem _)
  | lineEnd _ hb _ ih =>
      rcases List.mem_append.mp hd with hd | hd
      · rcases hb with rfl | rfl <;> simp at hd <;> simp [hd]
      · exact (ih hd).imp_left (List.mem_append_right _)

/-- What is within a line stays. -/
theorem Reended.eq_of_unbroken (h : Reended cs ds) (hcs : '\n' ∉ cs) : ds = cs := by
  induction h with
  | nil => rfl
  | char _ _ _ ih => rw [ih fun hmem => hcs (List.mem_cons_of_mem _ hmem)]
  | lineEnd ha _ _ _ =>
      refine absurd (List.mem_append_left _ ?_) hcs
      rcases ha with rfl | rfl <;> simp

/-- Both begin with one character, or both with the end of a line. -/
theorem Reended.head? (h : Reended cs ds) : ds.head? = cs.head? ∨
    ∃ c d, cs.head? = some c ∧ ds.head? = some d ∧ (c = '\n' ∨ c = '\r') ∧ (d = '\n' ∨ d = '\r') := by
  have hend : ∀ {as : List Char}, IsLineEnd as → ∀ cs : List Char,
      ∃ c, (as ++ cs).head? = some c ∧ (c = '\n' ∨ c = '\r') := by
    rintro as (rfl | rfl) cs
    · exact ⟨'\n', rfl, .inl rfl⟩
    · exact ⟨'\r', rfl, .inr rfl⟩
  cases h with
  | nil => exact .inl rfl
  | char _ _ _ => exact .inl rfl
  | lineEnd ha hb _ =>
      obtain ⟨c, hc, hc'⟩ := hend ha _
      obtain ⟨d, hd, hd'⟩ := hend hb _
      exact .inr ⟨c, d, hc, hd, hc', hd'⟩

/-- A cut that does not go through the end of a line. -/
def CutAt (as bs : List Char) : Prop := as.getLast? = some '\r' → bs.head? ≠ some '\n'

theorem cutAt_of_not_mem (h : '\r' ∉ as) (bs : List Char) : CutAt as bs :=
  fun hlast => absurd (List.mem_of_getLast? hlast) h

/-- Where one text is cut in two, so is the other. -/
theorem Reended.split (h : Reended (as ++ bs) ds) (hcut : CutAt as bs) :
    ∃ as' bs', ds = as' ++ bs' ∧ Reended as as' ∧ Reended bs bs' := by
  obtain ⟨text, htext⟩ : ∃ text, text = as ++ bs := ⟨_, rfl⟩
  rw [← htext] at h
  have hnone : ∀ {cs ds : List Char}, Reended cs ds → cs = [] ++ bs →
      ∃ as' bs', ds = as' ++ bs' ∧ Reended [] as' ∧ Reended bs bs' := by
    rintro cs ds h rfl
    exact ⟨[], ds, rfl, .nil, h⟩
  have hmore : ∀ {front as : List Char}, CutAt (front ++ as) bs → CutAt as bs :=
    fun hcut hlast => hcut (by rw [List.getLast?_append, hlast]; rfl)
  induction h generalizing as with
  | nil =>
      obtain ⟨rfl, rfl⟩ := List.nil_eq_append_iff.mp htext
      exact ⟨[], [], rfl, .nil, .nil⟩
  | @char c cs ds hfeed hreturn h ih =>
      cases as with
      | nil => exact hnone (.char hfeed hreturn h) htext
      | cons a as =>
          obtain ⟨rfl, rfl⟩ := List.cons.inj htext
          obtain ⟨as', bs', rfl, has, hbs⟩ := ih (@hmore [c] as hcut) rfl
          exact ⟨c :: as', bs', rfl, .char hfeed hreturn has, hbs⟩
  | @lineEnd front front' cs ds ha hb h ih =>
      cases as with
      | nil => exact hnone (.lineEnd ha hb h) htext
      | cons a as =>
          -- the whole end of the line is in front of the cut
          obtain ⟨left, hleft, rfl⟩ : ∃ left, a :: as = front ++ left ∧ cs = left ++ bs := by
            rcases ha with rfl | rfl
            · obtain ⟨rfl, rfl⟩ := List.cons.inj htext
              exact ⟨as, rfl, rfl⟩
            · obtain ⟨rfl, hrest⟩ := List.cons.inj htext
              cases as with
              | nil =>
                  have hrest : '\n' :: cs = bs := hrest
                  exact absurd (by rw [← hrest]; rfl) (hcut rfl)
              | cons b as =>
                  obtain ⟨rfl, rfl⟩ := List.cons.inj hrest
                  exact ⟨as, rfl, rfl⟩
          rw [hleft] at hcut ⊢
          obtain ⟨as', bs', rfl, has, hbs⟩ := ih (hmore hcut) rfl
          exact ⟨front' ++ as', bs', by simp, .lineEnd ha hb has, hbs⟩

/-! ## Lines -/

theorem splitEnding_cons {c : Char} (hfeed : c ≠ '\n') (hreturn : c ≠ '\r') (line : List Char) :
    (splitEnding (c :: line)).1 = c :: (splitEnding line).1 := by
  by_cases hboth : ∃ body, line = body ++ ['\r', '\n']
  · obtain ⟨body, rfl⟩ := hboth
    rw [← List.cons_append, splitEnding_of_return, splitEnding_of_return]
  by_cases hone : ∃ body, line = body ++ ['\n']
  · obtain ⟨body, rfl⟩ := hone
    have hbody : ∀ cs, body ≠ cs ++ ['\r'] := by
      rintro cs rfl
      exact hboth ⟨cs, by simp⟩
    rw [← List.cons_append, splitEnding_of_feed hbody, splitEnding_of_feed fun cs hcs => ?_]
    cases cs with
    | nil => exact hreturn (List.cons.inj hcs).1
    | cons d cs => exact hbody cs (List.cons.inj hcs).2
  · rw [splitEnding_of_none fun cs hcs => hone ⟨cs, hcs⟩, splitEnding_of_none fun cs hcs => ?_]
    cases cs with
    | nil => exact hfeed (List.cons.inj hcs).1
    | cons d cs => exact hone ⟨cs, (List.cons.inj hcs).2⟩

theorem bodies_cons {c : Char} (hfeed : c ≠ '\n') (hreturn : c ≠ '\r') (cs : List Char) :
    bodies (c :: cs) = lead [c] (bodies cs) := by
  rw [bodies, bodies, keepEnds_cons, if_neg hfeed]
  cases keepEnds cs with
  | nil => exact congrArg (fun body => [body]) (splitEnding_cons hfeed hreturn [])
  | cons line lines => exact congrArg (· :: _) (splitEnding_cons hfeed hreturn line)

/-- The end of a line ends one line, of which nothing else is left. -/
theorem IsLineEnd.bodies_append (h : IsLineEnd as) (cs : List Char) :
    bodies (as ++ cs) = [] :: bodies cs := by
  rcases h with rfl | rfl
  · rw [bodies, bodies, List.singleton_append, keepEnds_cons, if_pos rfl]
    rfl
  · rw [bodies, bodies, List.cons_append, keepEnds_cons, if_neg (by decide), List.singleton_append,
      keepEnds_cons, if_pos rfl]
    rfl

/-- **Both texts have the same lines.** -/
theorem Reended.bodies (h : Reended cs ds) : bodies ds = bodies cs := by
  induction h with
  | nil => rfl
  | char hfeed hreturn _ ih => rw [bodies_cons hfeed hreturn, bodies_cons hfeed hreturn, ih]
  | lineEnd ha hb _ ih => rw [ha.bodies_append, hb.bodies_append, ih]

/-! ## Places -/

/-- The line and the column behind one more character. -/
def advance (at_ : Nat × Nat) (c : Char) : Nat × Nat :=
  if c = '\n' then (at_.1 + 1, 0) else (at_.1, at_.2 + c.utf8Size)

/-- A place is counted character by character from the front of the text. -/
theorem place_eq_foldl (front rest : List Char) :
    place (lineStarts (front ++ rest)) (width front) = front.foldl advance (1, 0) := by
  rw [place_append (Nat.le_refl _)]
  induction front using List.reverseRecOn with
  | nil => rfl
  | append_singleton front c ih =>
      have hwhole : ∀ front : List Char, (lineStarts front).takeWhile (· ≤ width front) = lineStarts front := by
        intro front
        have := takeWhile_lineStarts front []
        rwa [List.append_nil] at this
      rw [List.foldl_append, ← ih, place, place, hwhole, hwhole, lineStarts_concat, width_append,
        width_cons, width_nil]
      by_cases hc : c = '\n'
      · simp [advance, hc]
      · have hstart : ((lineStarts front).getLast?.getD 0) ≤ width front := by
          cases hlast : (lineStarts front).getLast? with
          | none => exact Nat.zero_le _
          | some n => exact le_of_mem_lineStarts (List.mem_of_getLast? hlast)
        simp only [advance, if_neg hc, List.append_nil, List.foldl_cons, List.foldl_nil, Prod.mk.injEq, true_and]
        omega

/-- **Behind the same lines a place is the same.** -/
theorem Reended.foldl_advance (h : Reended cs ds) (start : Nat × Nat) :
    ds.foldl advance start = cs.foldl advance start := by
  have hend : ∀ {as : List Char}, IsLineEnd as → ∀ start, as.foldl advance start = (start.1 + 1, 0) := by
    rintro as (rfl | rfl) start <;> rfl
  induction h generalizing start with
  | nil => rfl
  | char _ _ _ ih => rw [List.foldl_cons, List.foldl_cons, ih]
  | lineEnd ha hb _ ih => rw [List.foldl_append, List.foldl_append, hend ha, hend hb, ih]

end LinkKeeper.Text

/-! ## Documents -/

namespace LinkKeeper.Json

open Text

/--
Readers of two texts are at the same place when what they have passed, and what is left, differs
only in the ends of lines.
-/
def SamePlace (content content' : List Char) (offset : Nat) (cs : List Char) (offset' : Nat)
    (cs' : List Char) : Prop :=
  ∃ done done', content = done ++ cs ∧ content' = done' ++ cs' ∧ offset = width done ∧
    offset' = width done' ∧ Reended done done' ∧ Reended cs cs'

/-- The same string at the same place of two texts. -/
def SameString (content content' : List Char) (l l' : Literal) : Prop :=
  l'.raw = l.raw ∧ l'.decoded = l.decoded ∧
    place (lineStarts content') l'.start = place (lineStarts content) l.start

variable {content content' cs cs' rest row : List Char} {offset offset' stop next : Nat} {l : Literal}

theorem SamePlace.symm (h : SamePlace content content' offset cs offset' cs') :
    SamePlace content' content offset' cs' offset cs := by
  obtain ⟨done, done', hcontent, hcontent', ho, ho', hdone, hcs⟩ := h
  exact ⟨done', done, hcontent', hcontent, ho', ho, hdone.symm, hcs.symm⟩

/-- Where one reader goes on to a cut, so does the other. -/
theorem SamePlace.go (h : SamePlace content content' offset (cs ++ rest) offset' cs')
    (hcut : CutAt cs rest) :
    ∃ front' rest', cs' = front' ++ rest' ∧ Reended cs front' ∧
      SamePlace content content' (offset + width cs) rest (offset' + width front') rest' := by
  obtain ⟨done, done', rfl, rfl, rfl, rfl, hdone, hcs⟩ := h
  obtain ⟨front', rest', rfl, hfront, hrest⟩ := hcs.split hcut
  exact ⟨front', rest', rfl, hfront, done ++ cs, done' ++ front', by simp, by simp, by simp, by simp,
    hdone.append hfront, hrest⟩

/-- Within a line both pass over the same characters. -/
theorem SamePlace.run (h : SamePlace content content' offset (row ++ rest) offset' cs')
    (hrow : '\n' ∉ row) (hcut : CutAt row rest) :
    ∃ rest', cs' = row ++ rest' ∧
      SamePlace content content' (offset + width row) rest (offset' + width row) rest' := by
  obtain ⟨front', rest', rfl, hfront, hrest⟩ := h.go hcut
  rw [hfront.eq_of_unbroken hrow] at hrest ⊢
  exact ⟨rest', rfl, hrest⟩

theorem SamePlace.skipSpace (h : SamePlace content content' offset cs offset' cs')
    (hs : skipSpace offset cs = (stop, rest)) :
    ∃ stop' rest', Json.skipSpace offset' cs' = (stop', rest') ∧
      SamePlace content content' stop rest stop' rest' := by
  obtain ⟨blanks, rfl, hblanks, hstop, rfl⟩ := skipSpace_eq_iff.mp hs
  obtain ⟨blanks', rest', rfl, hsame, hrest⟩ := h.go fun _ hfeed => absurd (hstop '\n' hfeed) (by decide)
  have hblanks' : ∀ c ∈ blanks', isSpace c = true := by
    intro c hc
    rcases hsame.mem hc with hc | rfl | rfl
    · exact hblanks c hc
    · decide
    · decide
  refine ⟨_, rest', skipSpace_eq_iff.mpr ⟨blanks', rfl, hblanks', ?_, rfl⟩, ?_⟩
  · obtain ⟨-, -, -, -, -, -, -, hleft⟩ := hrest
    rcases hleft.head? with hhead | ⟨c, d, hc, -, hend, -⟩
    · rwa [hhead]
    · have := hstop c hc
      rcases hend with rfl | rfl <;> exact absurd this (by decide)
  · rwa [width_of_narrow fun c hc => utf8Size_of_isSpace (hblanks c hc),
      width_of_narrow fun c hc => utf8Size_of_isSpace (hblanks' c hc)] at hrest

theorem SamePlace.sign {c : Char} (h : SamePlace content content' offset (c :: rest) offset' cs')
    (hc : isSign c = true) : ∃ rest', cs' = c :: rest' ∧
      SamePlace content content' (offset + 1) rest (offset' + 1) rest' := by
  have hends : c ≠ '\n' ∧ c ≠ '\r' := by
    constructor <;> (rintro rfl; exact absurd hc (by decide))
  obtain ⟨rest', rfl, hrest⟩ := @SamePlace.run content content' cs' rest [c] offset offset' h
    (by simpa using hends.1.symm) (cutAt_of_not_mem (by simpa using hends.2.symm) _)
  rw [width_cons, width_nil, utf8Size_of_isSign hc] at hrest
  exact ⟨rest', rfl, hrest⟩

theorem SamePlace.scalar? (h : SamePlace content content' offset cs offset' cs')
    (hw : scalar? cs = some rest) :
    ∃ rest', Json.scalar? cs' = some rest' ∧
      SamePlace content content' (offset + (cs.length - rest.length)) rest
        (offset' + (cs'.length - rest'.length)) rest' := by
  obtain ⟨front, -, rfl, hchars, hreads⟩ := takes_scalar? hw
  have hends : ∀ c ∈ front, c ≠ '\n' ∧ c ≠ '\r' := by
    intro c hc
    constructor <;> (rintro rfl; exact absurd (hchars _ hc) (by decide))
  obtain ⟨rest', rfl, hrest⟩ := h.run (fun hmem => (hends _ hmem).1 rfl)
    (cutAt_of_not_mem (fun hmem => (hends _ hmem).2 rfl) _)
  rw [width_of_narrow fun c hc => utf8Size_of_isScalarChar (hchars c hc)] at hrest
  refine ⟨rest', hreads rest' ?_, ?_⟩
  · have hover : ∀ {cs : List Char} {c : Char}, cs.head? = some c → c = '\n' ∨ c = '\r' →
        ∀ d ∈ cs.head?, isScalarChar d = false := by
      intro cs c hc hend d hd
      obtain rfl : c = d := Option.some.inj (hc.symm.trans hd)
      rcases hend with rfl | rfl <;> decide
    obtain ⟨-, -, -, -, -, -, -, hleft⟩ := hrest
    rcases hleft.head? with hhead | ⟨c, d, hc, hd, hend, hend'⟩
    · exact .inl hhead
    · exact .inr ⟨hover hd hend', hover hc hend⟩
  · rwa [List.length_append, List.length_append, Nat.add_sub_cancel, Nat.add_sub_cancel]

/-- **Both read the same string**, at the same place. -/
theorem SamePlace.literal? {inside : List Char}
    (h : SamePlace content content' offset ('"' :: inside) offset' cs')
    (hl : literal? (offset + 1) inside = some (l, next, rest)) :
    ∃ inside' l' next' rest', cs' = '"' :: inside' ∧
      Json.literal? (offset' + 1) inside' = some (l', next', rest') ∧
      SamePlace content content' next rest next' rest' ∧ SameString content content' l l' := by
  have hquote : '"'.utf8Size = 1 := by decide
  obtain ⟨hspelt, rfl, hstart, rfl⟩ := literal?_eq_some.mp hl
  have hrow : '\n' ∉ '"' :: (l.raw ++ ['"']) := by simp [hspelt.unbroken]
  have hsplit : '"' :: (l.raw ++ '"' :: rest) = ('"' :: (l.raw ++ ['"'])) ++ rest := by simp
  have hwidth : width ('"' :: (l.raw ++ ['"'])) = 1 + width l.raw + 1 := by
    rw [width_cons, width_append, width_cons, width_nil, hquote]
    omega
  obtain ⟨done, done', hcontent, hcontent', ho, ho', hdone, -⟩ := id h
  rw [hsplit] at h
  obtain ⟨rest', rfl, hrest⟩ := h.run hrow fun hlast => by
    rw [← List.cons_append, List.getLast?_concat] at hlast
    exact absurd hlast (by decide)
  refine ⟨l.raw ++ '"' :: rest', ⟨offset' + 1, l.raw, l.decoded⟩, offset' + 1 + width l.raw + 1, rest',
    by simp, literal?_eq_some.mpr ⟨hspelt, rfl, rfl, rfl⟩, ?_, rfl, rfl, ?_⟩
  · rw [hwidth] at hrest
    simpa [Nat.add_assoc] using hrest
  · -- up to the quote both have passed the same lines
    have hplace : ∀ {content done rest : List Char} {offset : Nat}, content = done ++ '"' :: rest →
        offset = width done → place (lineStarts content) (offset + 1) = (done ++ ['"']).foldl advance (1, 0) := by
      rintro content done rest _ rfl rfl
      have hsplit : done ++ '"' :: rest = (done ++ ['"']) ++ rest := by simp
      rw [← place_eq_foldl (done ++ ['"']) rest, hsplit, width_append, width_cons, width_nil, hquote]
    rw [hstart, hplace hcontent ho]
    dsimp only
    rw [hplace (show content' = done' ++ '"' :: (l.raw ++ '"' :: rest') by rw [hcontent']; simp) ho',
      List.foldl_append, List.foldl_append, hdone.foldl_advance]

theorem SamePlace.blank (h : SamePlace content content' offset cs offset' cs')
    (hblank : ∀ c ∈ cs, isSpace c = true) : ∀ c ∈ cs', isSpace c = true := by
  obtain ⟨-, -, -, -, -, -, -, hcs⟩ := h
  intro c hc
  rcases hcs.mem hc with hc | rfl | rfl
  · exact hblank c hc
  · decide
  · decide

/-- **Readers of both texts stay abreast.** -/
theorem sideBySide_of_reended (content content' : List Char) :
    SideBySide (SamePlace content content') (fun _ => True) fun _ => SameString content content' where
  skipSpace := SamePlace.skipSpace
  sign := SamePlace.sign
  head?_ne := by
    intro offset offset' c cs cs' h hc hne hhead
    obtain ⟨rest', rfl⟩ := List.head?_eq_some_iff.mp hhead
    obtain ⟨rest, rfl, -⟩ := h.symm.sign hc
    exact hne rfl
  scalar? := SamePlace.scalar?
  literal? h hl _ := h.literal? hl
  key h := h.2.1

/-- What is a document stays one, with the same strings at the same places. -/
theorem exists_parse?_of_reended (h : Reended content content') {v : Value} (hv : parse? content = some v) :
    ∃ v', parse? content' = some v' ∧
      Paired (fun _ => SameString content content') (v.literals none) (v'.literals none) :=
  (sideBySide_of_reended content content').exists_document hv
    ⟨[], [], rfl, rfl, rfl, rfl, .nil, h⟩ (fun _ _ => trivial) fun htwin hblank => htwin.blank hblank

end LinkKeeper.Json

namespace LinkKeeper.Links

open Text LinkKeeper.Json

variable {rule : CandidateRule} {source : String} {cs ds : List Char}

theorem Json.linksAmong_cons (content : List Char) (g : Value.Governed) (gs : List Value.Governed) :
    linksAmong rule source content (g :: gs) =
      (if isLink rule g then [reference source content g.2] else []) ++
        linksAmong rule source content gs := by
  rw [linksAmong, List.filter_cons]
  split <;> rfl

theorem Json.linksAmong_of_paired {content content' : List Char} {as bs : List (Role × Literal)}
    (h : Paired (fun _ => SameString content content') as bs) :
    linksAmong rule source content' (bs.filterMap Role.governed?) =
      linksAmong rule source content (as.filterMap Role.governed?) := by
  induction h with
  | nil => rfl
  | @cons a b as bs hab _ ih =>
      obtain ⟨role, l⟩ := a
      obtain ⟨role', l'⟩ := b
      obtain ⟨hrole, hraw, hdecoded, hplace⟩ := hab
      dsimp only at hrole hraw hdecoded hplace
      subst hrole
      cases role' with
      | key => exact ih
      | value governing =>
          have hlink : isLink rule (governing, l') = isLink rule (governing, l) := by
            cases governing with
            | none => rfl
            | some key => simp only [isLink, isWritable, hraw, hdecoded]
          have href : reference source content' l' = reference source content l := by
            rw [reference, reference, hplace, hraw]
          have hcons : ∀ (l : Literal) (ls : List (Role × Literal)),
              ((Role.value governing, l) :: ls).filterMap Role.governed? =
                (governing, l) :: ls.filterMap Role.governed? := fun l ls => rfl
          rw [hcons, hcons, linksAmong_cons, linksAmong_cons, hlink, href, ih]

theorem Json.references?_of_reended (h : Reended cs ds) :
    references? rule source ds = references? rule source cs := by
  rw [references?_eq, references?_eq]
  cases hcs : parse? cs with
  | some v =>
      obtain ⟨v', hds, hpaired⟩ := exists_parse?_of_reended h hcs
      rw [hds, Option.map_some, Option.map_some, Value.strings_eq, Value.strings_eq,
        linksAmong_of_paired hpaired]
  | none =>
      cases hds : parse? ds with
      | none => rfl
      | some v =>
          obtain ⟨v', hcs', -⟩ := exists_parse?_of_reended h.symm hds
          rw [hcs] at hcs'
          exact absurd hcs' (by simp)

theorem perLine_of_reended (find : Nat → List Char → List Reference) (h : Reended cs ds) :
    perLine find ds = perLine find cs := by
  rw [perLine, perLine, numbered, numbered, h.bodies]

/-- **A reader does not see how the lines of a file end.** -/
theorem find_of_reended {content text : String} (h : Reended content.toList text.toList)
    (hsource : Format.ofPath source ≠ .yaml) : find rule source text = find rule source content := by
  have hreferences : (Format.ofPath source).references? rule source text.toList =
      (Format.ofPath source).references? rule source content.toList := by
    cases hformat : Format.ofPath source with
    | json => exact Json.references?_of_reended h
    | markdown => exact congrArg some (perLine_of_reended _ h)
    | plain => exact congrArg some (perLine_of_reended _ h)
    | yaml => exact absurd hformat hsource
  rw [find, find]
  dsimp only
  rw [hreferences, perLine_of_reended _ h]

/--
**The links of a file do not depend on how its lines end.** With a carriage return in front of each
line feed the same references are found, at the same lines and columns, and the file is as broken
as it was.
-/
theorem find_replaceChar_feed {content : String} (h : '\r' ∉ content.toList)
    (hsource : Format.ofPath source ≠ .yaml) :
    find rule source (String.ofList (replaceChar '\n' ['\r', '\n'] content.toList)) =
      find rule source content :=
  find_of_reended (by rw [String.toList_ofList]; exact reended_replaceChar h) hsource

/-- Behind a number there is the end of a line, and the string stands on a line of its own. -/
def threeLines : String := "\x7b\"n\": 1\n, \"file\":\n\"a.md\"\x7d\n"

theorem find_replaceChar_feed_document :
    '\r' ∉ threeLines.toList ∧ Format.ofPath "n.json" ≠ .yaml ∧
    find ⟨["md"]⟩ "n.json" (String.ofList (replaceChar '\n' ['\r', '\n'] threeLines.toList)) =
      ⟨[⟨none, 5, 1, .jsonValue, 3, "n.json", "a.md"⟩], false⟩ := by
  have hplain : '\r' ∉ threeLines.toList := by decide +kernel
  have hsource : Format.ofPath "n.json" ≠ .yaml := by decide +kernel
  refine ⟨hplain, hsource, ?_⟩
  rw [find_replaceChar_feed hplain hsource]
  decide +kernel

end LinkKeeper.Links
