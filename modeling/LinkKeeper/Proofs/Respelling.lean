import LinkKeeper.Proofs.SideBySide
import LinkKeeper.Proofs.Replacing

/-!
# A string of a document is spelled anew

When something else stands between the quotes of a string, the text is a document as before,
with the same strings in the same order; only this one means another text, and those behind it
stand as much further as it has grown. Two readers go down both texts side by side. In front of
the string they have the same before them, up to the string, and behind it they have the same
left; and no part of a document begins inside a string, so there is nothing to say of places in
between.

Numbers are the one thing that is not over by itself: the reader looks at the next character.
This may be the quote of the string, and the quote stays.
-/

namespace LinkKeeper.Json

open Text

/-- A string of a text, and what is to stand between its quotes. -/
structure Respelling where
  ahead : List Char
  raw : List Char
  decoded : List Char
  newRaw : List Char
  newDecoded : List Char
  behind : List Char
  spelt : Spelt raw decoded
  newSpelt : Spelt newRaw newDecoded

namespace Respelling

variable (e : Respelling)

/-- The text before. -/
def old : List Char := e.ahead ++ '"' :: (e.raw ++ '"' :: e.behind)

/-- The text after. -/
def new : List Char := e.ahead ++ '"' :: (e.newRaw ++ '"' :: e.behind)

/-- The byte where the content of the string starts. -/
def start : Nat := width e.ahead + 1

/-- The string as it was. -/
def literal : Literal := ⟨e.start, e.raw, e.decoded⟩

/-- The string as it is spelled now. -/
def newLiteral : Literal := ⟨e.start, e.newRaw, e.newDecoded⟩

/-- What becomes of a string of the text. -/
def carry (l : Literal) : Literal :=
  if l.start < e.start then l
  else if l.start = e.start then e.newLiteral
  else { l with start := l.start + width e.newRaw - width e.raw }

/-- The same place before and after: the offset there, and what is left of the text. -/
def Twin (offset : Nat) (cs : List Char) (offset' : Nat) (cs' : List Char) : Prop :=
  (∃ done left, e.ahead = done ++ left ∧ (offset = width done ∧ offset' = width done) ∧
      cs = left ++ '"' :: (e.raw ++ '"' :: e.behind) ∧
      cs' = left ++ '"' :: (e.newRaw ++ '"' :: e.behind)) ∨
    ∃ done left, e.behind = done ++ left ∧ (offset = e.start + width e.raw + 1 + width done ∧
      offset' = e.start + width e.newRaw + 1 + width done) ∧ cs = left ∧ cs' = left

/-- A string of the text stands in front of the one that is spelled anew, or behind it, or is this one, and no key. -/
def Clear (a : Role × Literal) : Prop :=
  a.2.stop + 1 < e.start ∨ e.start + width e.raw + 1 < a.2.start ∨ a.2 = e.literal ∧ a.1 ≠ .key

variable {e} {offset offset' place next : Nat} {cs cs' rest row inside : List Char} {l : Literal}

theorem twin_start (e : Respelling) : e.Twin 0 e.old 0 e.new :=
  .inl ⟨[], e.ahead, rfl, ⟨rfl, rfl⟩, rfl, rfl⟩

/-! ## What both readers pass over -/

/-- Both have before them the same characters up to the next quote. -/
theorem Twin.run (h : e.Twin offset (row ++ rest) offset' cs') (hrow : '"' ∉ row) :
    ∃ rest', cs' = row ++ rest' ∧ e.Twin (offset + width row) rest (offset' + width row) rest' := by
  rcases h with ⟨done, left, hahead, ⟨rfl, rfl⟩, hcs, rfl⟩ | ⟨done, left, hbehind, ⟨rfl, rfl⟩, hcs, rfl⟩
  · rcases List.append_eq_append_iff.mp hcs with ⟨more, rfl, rfl⟩ | ⟨more, rfl, hmore⟩
    · exact ⟨_, List.append_assoc _ _ _, .inl ⟨done ++ row, more, by simp [hahead], by simp, rfl, rfl⟩⟩
    · cases more with
      | nil =>
          rw [List.append_nil]
          exact ⟨_, rfl, .inl ⟨done ++ left, [], by simp [hahead], by simp, hmore.symm, rfl⟩⟩
      | cons c more =>
          obtain ⟨rfl, -⟩ := List.cons.inj hmore
          exact absurd (by simp) hrow
  · subst hcs
    exact ⟨rest, rfl, .inr ⟨done ++ row, rest, by simp [hbehind], by simp [Nat.add_assoc], rfl, rfl⟩⟩

/-- Both have the same character before them. -/
theorem Twin.head? (h : e.Twin offset cs offset' cs') : cs'.head? = cs.head? := by
  rcases h with ⟨done, left, -, -, rfl, rfl⟩ | ⟨done, left, -, -, rfl, rfl⟩
  · cases left <;> rfl
  · rfl

theorem Twin.byte {c : Char} (h : e.Twin offset (c :: rest) offset' cs') (hc : c ≠ '"')
    (hsize : c.utf8Size = 1) :
    ∃ rest', cs' = c :: rest' ∧ e.Twin (offset + 1) rest (offset' + 1) rest' := by
  obtain ⟨rest', rfl, htwin⟩ := @Twin.run e offset offset' cs' rest [c] h (by simpa using Ne.symm hc)
  rw [width_cons, width_nil, hsize] at htwin
  exact ⟨rest', rfl, htwin⟩

theorem Twin.skipSpace (h : e.Twin offset cs offset' cs') (hs : skipSpace offset cs = (place, rest)) :
    ∃ place' rest', Json.skipSpace offset' cs' = (place', rest') ∧ e.Twin place rest place' rest' := by
  obtain ⟨blanks, rfl, hblanks, hstop, rfl⟩ := skipSpace_eq_iff.mp hs
  have hquote : '"' ∉ blanks := fun hmem => absurd (hblanks _ hmem) (by decide)
  obtain ⟨rest', rfl, htwin⟩ := h.run hquote
  rw [width_of_narrow fun c hc => utf8Size_of_isSpace (hblanks c hc)] at htwin
  exact ⟨_, rest', skipSpace_eq_iff.mpr ⟨blanks, rfl, hblanks, by rw [htwin.head?]; exact hstop, rfl⟩,
    htwin⟩

theorem Twin.scalar? (h : e.Twin offset cs offset' cs') (hw : scalar? cs = some rest) :
    ∃ rest', Json.scalar? cs' = some rest' ∧ e.Twin (offset + (cs.length - rest.length)) rest
      (offset' + (cs'.length - rest'.length)) rest' := by
  obtain ⟨front, -, rfl, hchars, hreads⟩ := takes_scalar? hw
  have hquote : '"' ∉ front := fun hmem => absurd (hchars _ hmem) (by decide)
  obtain ⟨rest', rfl, htwin⟩ := h.run hquote
  rw [width_of_narrow fun c hc => utf8Size_of_isScalarChar (hchars c hc)] at htwin
  refine ⟨rest', hreads rest' (.inl htwin.head?), ?_⟩
  rwa [List.length_append, List.length_append, Nat.add_sub_cancel, Nat.add_sub_cancel]

/-! ## Strings -/

theorem carry_before (h : l.start < e.start) : e.carry l = l := by
  rw [carry, if_pos h]

theorem carry_literal (e : Respelling) : e.carry e.literal = e.newLiteral := by
  have hstart : e.literal.start = e.start := rfl
  rw [carry, if_neg (by omega), if_pos hstart]

theorem carry_behind (h : e.start < l.start) :
    e.carry l = { l with start := l.start + width e.newRaw - width e.raw } := by
  rw [carry, if_neg (by omega), if_neg (by omega)]

/-- **Both read one string**, as what has become of it. -/
theorem Twin.literal? (h : e.Twin offset ('"' :: inside) offset' cs')
    (hl : literal? (offset + 1) inside = some (l, next, rest)) {role : Role}
    (hclear : e.Clear (role, l)) : ∃ inside' next' rest', cs' = '"' :: inside' ∧
      Json.literal? (offset' + 1) inside' = some (e.carry l, next', rest') ∧
      e.Twin next rest next' rest' := by
  have hquote : '"'.utf8Size = 1 := by decide
  obtain ⟨hspelt, hinside, hstart, rfl⟩ := literal?_eq_some.mp hl
  have hstop : l.stop = l.start + width l.raw := rfl
  rcases h with ⟨done, left, hahead, ⟨rfl, rfl⟩, hcs, rfl⟩ | ⟨done, left, hbehind, ⟨rfl, rfl⟩, rfl, rfl⟩
  · have hplace : e.start = width done + width left + 1 := by rw [start, hahead, width_append]
    cases left with
    | nil =>
        -- the string itself
        obtain rfl : inside = e.raw ++ '"' :: e.behind := (List.cons.inj hcs).2
        have hplace : e.start = width done + 1 := by simpa using hplace
        have hread : Json.literal? (width done + 1) (e.raw ++ '"' :: e.behind) =
            some (e.literal, width done + 1 + width e.raw + 1, e.behind) :=
          literal?_eq_some.mpr ⟨e.spelt, rfl, hplace, rfl⟩
        rw [hl] at hread
        simp only [Option.some.injEq, Prod.mk.injEq] at hread
        obtain ⟨rfl, -, rfl⟩ := hread
        rw [carry_literal]
        refine ⟨_, _, e.behind, rfl, literal?_eq_some.mpr ⟨e.newSpelt, rfl, hplace, rfl⟩,
          .inr ⟨[], _, rfl, ⟨?_, ?_⟩, rfl, rfl⟩⟩
        · rw [hplace, width_nil]
          rfl
        · rw [hplace, width_nil]
          rfl
    | cons c left =>
        obtain ⟨rfl, htail⟩ := List.cons.inj hcs
        have htail : inside = left ++ '"' :: (e.raw ++ '"' :: e.behind) := htail
        rw [hinside] at htail
        rw [width_cons, hquote] at hplace
        -- it ends in front of the string
        have hshort : width (l.raw ++ ['"']) ≤ width left := by
          rw [width_append, width_cons, width_nil, hquote]
          rcases hclear with hclear | hclear | ⟨hsame, -⟩
          · dsimp only at hclear
            omega
          · dsimp only at hclear
            omega
          · have hsame : l.start = e.start := congrArg Literal.start hsame
            omega
        have hpre : l.raw ++ ['"'] <+: left ++ '"' :: (e.raw ++ '"' :: e.behind) :=
          ⟨rest, by rw [← htail]; simp⟩
        obtain ⟨more, rfl⟩ := prefix_of_width_le hpre (List.prefix_append _ _) hshort
        obtain rfl : rest = more ++ '"' :: (e.raw ++ '"' :: e.behind) := by simpa using htail
        rw [carry_before (by omega)]
        refine ⟨_, _, more ++ '"' :: (e.newRaw ++ '"' :: e.behind), rfl,
          literal?_eq_some.mpr ⟨hspelt, by simp, hstart, rfl⟩,
          .inl ⟨done ++ '"' :: (l.raw ++ ['"']), more, by simp [hahead], ?_, rfl, rfl⟩⟩
        simp only [width_append, width_cons, width_nil, hquote]
        omega
  · rw [carry_behind (by omega)]
    subst hinside
    refine ⟨_, _, rest, rfl, literal?_eq_some.mpr ⟨hspelt, rfl, ?_, rfl⟩,
      .inr ⟨done ++ '"' :: (l.raw ++ ['"']), rest, by simp [hbehind], ?_, rfl, rfl⟩⟩
    · dsimp only
      omega
    · simp only [width_append, width_cons, width_nil, hquote]
      omega

/-! ## Documents -/

/-- A key means what it meant. -/
theorem Clear.decoded_key (h : e.Clear (.key, l)) : (e.carry l).decoded = l.decoded := by
  have hstop : l.stop = l.start + width l.raw := rfl
  rcases h with hbefore | hbehind | ⟨-, hno⟩
  · dsimp only at hbefore
    rw [carry_before (by omega)]
  · dsimp only at hbehind
    rw [carry_behind (by omega)]
  · exact absurd rfl hno

/-- **The two readers stay abreast**, and a string that is clear of the one is carried along. -/
theorem sideBySide (e : Respelling) :
    SideBySide e.Twin e.Clear fun role l l' => e.Clear (role, l) ∧ l' = e.carry l where
  skipSpace := Twin.skipSpace
  sign h hc := h.byte (by rintro rfl; exact absurd hc (by decide)) (utf8Size_of_isSign hc)
  head?_ne h _ hne := by rwa [h.head?]
  scalar? := Twin.scalar?
  literal? h hl hclear := by
    obtain ⟨inside', next', rest', hcs', hl', hrest⟩ := h.literal? hl hclear
    exact ⟨inside', _, next', rest', hcs', hl', hrest, hclear, rfl⟩
  key := by
    rintro l _ ⟨hclear, rfl⟩
    exact hclear.decoded_key

/-- In a document every string is clear of one that is a value. -/
theorem clear_of_parse? {v : Value} (h : parse? e.old = some v) {governing : Option (List Char)}
    (hmem : (.value governing, e.literal) ∈ v.literals none) :
    ∀ a ∈ v.literals none, e.Clear a := by
  obtain ⟨stop, horder⟩ := inOrder_of_parse? h none
  have happart : (v.literals none).Pairwise fun a b =>
      a.2.stop + 1 < b.2.start ∨ b.2.stop + 1 < a.2.start := horder.apart.imp .inl
  have : Std.Symm fun a b : Role × Literal =>
      a.2.stop + 1 < b.2.start ∨ b.2.stop + 1 < a.2.start := ⟨fun _ _ hab => hab.symm⟩
  intro a ha
  by_cases hsame : a = (.value governing, e.literal)
  · subst hsame
    exact .inr (.inr ⟨rfl, by simp⟩)
  · exact (happart.forall ha hmem hsame).imp_right .inl

/-- Behind the document there are blanks still. -/
theorem Twin.blank (h : e.Twin offset cs offset' cs') (hblank : ∀ c ∈ cs, isSpace c = true) :
    ∀ c ∈ cs', isSpace c = true := by
  have hquote : '"' ∉ cs := fun hin => absurd (hblank _ hin) (by decide)
  rcases h with ⟨done, left, -, -, rfl, -⟩ | ⟨done, left, -, -, rfl, rfl⟩
  · exact absurd (by simp) hquote
  · exact hblank

/-- **A document stays one** when a string of it that is a value is spelled anew, and its strings stay. -/
theorem parse?_new {v : Value} (h : parse? e.old = some v) {governing : Option (List Char)}
    (hmem : (.value governing, e.literal) ∈ v.literals none) :
    ∃ v', parse? e.new = some v' ∧
      v'.strings none = (v.strings none).map (Prod.map id e.carry) := by
  obtain ⟨v', hparse, hpaired⟩ := e.sideBySide.exists_document h (twin_start e)
    (clear_of_parse? h hmem) fun htwin hblank => htwin.blank hblank
  refine ⟨v', hparse, ?_⟩
  have hliterals : (v.literals none).map (Prod.map id e.carry) = v'.literals none := by
    rw [← List.forall₂_eq_eq_eq, List.forall₂_map_left_iff]
    exact hpaired.imp fun a b hab => Prod.ext hab.1.symm hab.2.2.symm
  rw [Value.strings_eq, Value.strings_eq, ← hliterals, List.filterMap_map, List.map_filterMap]
  refine List.filterMap_congr fun a _ => ?_
  obtain ⟨role, l⟩ := a
  cases role <;> rfl

end Respelling

end LinkKeeper.Json

namespace LinkKeeper.Links.Json

open Text LinkKeeper.Json

variable {e : Respelling} {rule : CandidateRule} {source : String}

/-! ## References -/

/--
**The reference to a string is carried along** when one that is a value is spelled anew. The places
in front stay, those behind it on its line move by as much as it has grown, and on other lines
nothing moves.
-/
theorem reference_carry (source : String) (hne : e.raw ≠ []) {a : Role × Literal} (hclear : e.Clear a) :
    reference source e.new (e.carry a.2) =
      (reference source e.old e.literal).carry (String.ofList e.newRaw) (reference source e.old a.2) := by
  obtain ⟨front, hfront⟩ : ∃ front, front = e.ahead ++ ['"'] := ⟨_, rfl⟩
  have hold : e.old = front ++ (e.raw ++ '"' :: e.behind) := by simp [Respelling.old, hfront]
  have hnew : e.new = front ++ (e.newRaw ++ '"' :: e.behind) := by simp [Respelling.new, hfront]
  have hstart : e.start = width front := by
    rw [hfront, width_append]
    rfl
  have hsame : ∀ offset, offset ≤ width front → place (lineStarts e.old) offset =
      place (lineStarts front) offset ∧ place (lineStarts e.new) offset =
        place (lineStarts front) offset := by
    intro offset hle
    rw [hold, hnew]
    exact ⟨place_append hle _, place_append hle _⟩
  obtain ⟨hplace, hplace'⟩ := hsame (width front) (Nat.le_refl _)
  have hr : reference source e.old e.literal = referTo source (place (lineStarts front) (width front)).1
      .jsonValue ⟨(place (lineStarts front) (width front)).2, e.raw⟩ := by
    rw [reference, show e.literal.start = width front from hstart, hplace]
    rfl
  have hbytes : (reference source e.old e.literal).target.utf8ByteSize = width e.raw := by
    rw [utf8ByteSize_eq_width, reference, referTo, String.toList_ofList]
    rfl
  have hbytes' : (String.ofList e.newRaw).utf8ByteSize = width e.newRaw := by
    rw [utf8ByteSize_eq_width, String.toList_ofList]
  have hpos := width_pos_of_ne_nil hne
  have hstop : a.2.stop = a.2.start + width a.2.raw := rfl
  rcases hclear with hbefore | hbehind | ⟨hsame', -⟩
  · have hle : a.2.start ≤ width front := by omega
    rw [Respelling.carry_before (by omega)]
    have hplaces : reference source e.new a.2 = reference source e.old a.2 := by
      rw [reference, reference, (hsame _ hle).1, (hsame _ hle).2]
    rw [hplaces]
    by_cases hline : (reference source e.old a.2).line = (reference source e.old e.literal).line
    · obtain ⟨start, hfirst, hsecond⟩ := exists_line_offset hline
      have hlt : a.2.start < e.literal.start := by
        show a.2.start < e.start
        omega
      refine (Reference.carry_of_lt ?_).symm
      show (place (lineStarts e.old) a.2.start).2 < (place (lineStarts e.old) e.literal.start).2
      omega
    · exact (Reference.carry_of_line hline).symm
  · obtain ⟨k, hk⟩ : ∃ k, a.2.start = width front + width e.raw + k :=
      ⟨a.2.start - (width front + width e.raw), by omega⟩
    have hraw := e.spelt.unbroken
    have hraw' := e.newSpelt.unbroken
    have hcarry : e.carry a.2 = { a.2 with start := width front + width e.newRaw + k } := by
      rw [Respelling.carry_behind (by omega)]
      congr 1
      omega
    have hnewPlace : reference source e.new (e.carry a.2) = referTo source
        (place (lineStarts (front ++ (e.newRaw ++ '"' :: e.behind))) (width front + width e.newRaw + k)).1
        .jsonValue ⟨(place (lineStarts (front ++ (e.newRaw ++ '"' :: e.behind)))
          (width front + width e.newRaw + k)).2, a.2.raw⟩ := by
      rw [hcarry, reference, hnew]
    have holdPlace : reference source e.old a.2 = referTo source
        (place (lineStarts (front ++ (e.raw ++ '"' :: e.behind))) (width front + width e.raw + k)).1
        .jsonValue ⟨(place (lineStarts (front ++ (e.raw ++ '"' :: e.behind)))
          (width front + width e.raw + k)).2, a.2.raw⟩ := by
      rw [reference, hold, hk]
    rw [hnewPlace, holdPlace]
    rcases place_behind front ('"' :: e.behind) k with hline | ⟨line, column, hne, hline⟩
    · rw [hline _ hraw, hline _ hraw', Reference.carry_behind (by rw [hr]; rfl)
        (piece_referTo source _ .jsonValue _) rfl (by omega) ?_, hbytes, hbytes']
      · have hcolumn : (place (lineStarts front) (width front)).2 + width e.raw + k + width e.newRaw -
            width e.raw = (place (lineStarts front) (width front)).2 + width e.newRaw + k := by omega
        dsimp only
        rw [hcolumn]
        rfl
      · rw [hbytes, hr]
        show (place (lineStarts front) (width front)).2 + width e.raw ≤
          (place (lineStarts front) (width front)).2 + width e.raw + k
        omega
    · rw [hline _ hraw, hline _ hraw', Reference.carry_of_line]
      rw [hr]
      exact hne
  · rw [hsame', Respelling.carry_literal, Reference.carry_at rfl rfl, hr, String.toList_ofList, reference,
      show e.newLiteral.start = width front from hstart, hplace']
    rfl

/-- **The links of a document** are the same strings as before. -/
theorem linksAmong_carry (source : String) (hne : e.raw ≠ []) {strings : List Value.Governed}
    (hclear : ∀ g ∈ strings, e.Clear (.value g.1, g.2))
    (hold : rule.accepts e.decoded = true ∧ isWritable e.literal = true)
    (hnew : rule.accepts e.newDecoded = true ∧ isWritable e.newLiteral = true) :
    linksAmong rule source e.new (strings.map (Prod.map id e.carry)) =
      (linksAmong rule source e.old strings).map
        ((reference source e.old e.literal).carry (String.ofList e.newRaw)) := by
  have hlink : ∀ g ∈ strings, isLink rule (Prod.map id e.carry g) = isLink rule g := by
    intro g hg
    obtain ⟨key, l⟩ := g
    have hstop : l.stop = l.start + width l.raw := rfl
    cases key with
    | none => rfl
    | some key =>
        show (isFileKey key && rule.accepts (e.carry l).decoded && isWritable (e.carry l)) =
          (isFileKey key && rule.accepts l.decoded && isWritable l)
        rcases hclear _ hg with hbefore | hbehind | ⟨rfl, -⟩
        · dsimp only at hbefore
          rw [Respelling.carry_before (by omega)]
        · dsimp only at hbehind
          rw [Respelling.carry_behind (by omega)]
          rfl
        · rw [Respelling.carry_literal, hold.2, hnew.2,
            show e.newLiteral.decoded = e.newDecoded from rfl, hnew.1,
            show e.literal.decoded = e.decoded from rfl, hold.1]
  rw [linksAmong, linksAmong, List.filter_map, List.map_map, List.map_map]
  have hkept : strings.filter (isLink rule ∘ Prod.map id e.carry) = strings.filter (isLink rule) :=
    List.filter_congr hlink
  rw [hkept]
  exact List.map_congr_left fun g hg => reference_carry source hne (hclear g (List.mem_filter.mp hg).1)

end LinkKeeper.Links.Json
