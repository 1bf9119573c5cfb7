import LinkKeeper.Json.Document
import LinkKeeper.Proofs.Split

/-!
# Words and numbers of documents

What is neither a string nor a bracket is a word or a number. It takes letters, digits,
signs and points, at least one of them, and of what follows only the next character
matters: it tells that a number is over. Any character that no word or number has tells
the same.
-/

namespace LinkKeeper.Json

open Text

/-- A character of a word or a number. -/
def isScalarChar (c : Char) : Bool := c.isAlphanum || c == '+' || c == '-' || c == '.'

/-- What follows a word or a number. -/
def scalar? : List Char → Option (List Char)
  | 't' :: cs => keyword? "rue" cs
  | 'f' :: cs => keyword? "alse" cs
  | 'n' :: cs => keyword? "ull" cs
  | cs => number? cs

variable {α : Type} {cs rest other : List Char}

/--
A word or a number in front of the one is over as it is in front of the other: the same character
comes next, or one that no word or number has comes next in both, if any.
-/
def SameEnd (other rest : List Char) : Prop :=
  other.head? = rest.head? ∨
    (∀ c ∈ other.head?, isScalarChar c = false) ∧ ∀ c ∈ rest.head?, isScalarChar c = false

/-- A reader takes these characters and answers this, when a text of this kind comes next. -/
structure Takes (read : List Char → Option (α × List Char)) (front : List Char) (a : α)
    (rest : List Char) : Prop where
  chars : ∀ c ∈ front, isScalarChar c = true
  reads : ∀ other, SameEnd other rest → read (front ++ other) = some (a, other)

theorem isScalarChar_of_isDigit {c : Char} (h : c.isDigit = true) : isScalarChar c = true := by
  simp [isScalarChar, Char.isAlphanum, h]

theorem utf8Size_of_isScalarChar {c : Char} (h : isScalarChar c = true) : c.utf8Size = 1 := by
  rw [Char.utf8Size_eq_one_iff]
  delta isScalarChar Char.isAlphanum Char.isAlpha Char.isUpper Char.isLower Char.isDigit at h
  simp only [Bool.or_eq_true, Bool.and_eq_true, decide_eq_true_eq, beq_iff_eq] at h
  rcases h with (((((h | h) | h) | rfl) | rfl) | rfl)
  · exact UInt32.le_trans h.2 (by decide)
  · exact UInt32.le_trans h.2 (by decide)
  · exact UInt32.le_trans h.2 (by decide)
  all_goals decide

theorem SameEnd.append (h : SameEnd other rest) (front : List Char) :
    SameEnd (front ++ other) (front ++ rest) := by
  cases front with
  | nil => exact h
  | cons c front => exact .inl rfl

/-- Of the next character only those count that a word or a number can have. -/
theorem SameEnd.none_next (h : SameEnd other rest) {more : Char → Bool}
    (hmore : ∀ c, more c = true → isScalarChar c = true) (hrest : ∀ c ∈ rest.head?, more c = false) :
    ∀ c ∈ other.head?, more c = false := by
  rcases h with hsame | ⟨hover, -⟩
  · rwa [hsame]
  · intro c hc
    have := hover c hc
    have := hmore c
    grind

theorem SameEnd.head?_ne (h : SameEnd other rest) {c : Char} (hc : isScalarChar c = true)
    (hrest : rest.head? ≠ some c) : other.head? ≠ some c := by
  rcases h with hsame | ⟨hover, -⟩
  · rwa [hsame]
  · intro hhead
    exact absurd (hover c hhead) (by simp [hc])

/-! ## Digits -/

/-- A row of digits, and what follows it. -/
def digits? (cs : List Char) : Option (List Char × List Char) :=
  match cs.takeWhile Char.isDigit with
  | [] => none
  | run => some (run, cs.dropWhile Char.isDigit)

/-- A row of digits is over where no digit follows. -/
theorem digits?_eq_some {run : List Char} : digits? cs = some (run, rest) ↔
    cs = run ++ rest ∧ run ≠ [] ∧ (∀ c ∈ run, c.isDigit = true) ∧
      ∀ c ∈ rest.head?, c.isDigit = false := by
  constructor
  · intro h
    unfold digits? at h
    split at h
    · exact absurd h (by simp)
    · rename_i hrun
      obtain ⟨rfl, rfl⟩ := Prod.mk.inj (Option.some.inj h)
      refine ⟨List.takeWhile_append_dropWhile.symm, hrun, fun c hc =>
        List.all_eq_true.mp List.all_takeWhile c hc, fun c hc => ?_⟩
      have hnot := List.head?_dropWhile_not Char.isDigit cs
      rw [hc] at hnot
      simpa using hnot
  · rintro ⟨rfl, hne, hall, hstop⟩
    have htail : rest.takeWhile Char.isDigit = [] ∧ rest.dropWhile Char.isDigit = rest := by
      cases rest with
      | nil => exact ⟨rfl, rfl⟩
      | cons c rest =>
          have hc : ¬ c.isDigit = true := by simp [hstop c (by simp)]
          rw [List.takeWhile_cons_of_neg hc, List.dropWhile_cons_of_neg hc]
          exact ⟨rfl, rfl⟩
    rw [digits?, List.takeWhile_append_of_pos hall, List.dropWhile_append_of_pos hall, htail.1,
      htail.2, List.append_nil]
    obtain ⟨c, run, rfl⟩ := List.exists_cons_of_ne_nil hne
    rfl

theorem takes_digits? {run : List Char} (h : digits? cs = some (run, rest)) :
    run ≠ [] ∧ cs = run ++ rest ∧ Takes digits? run run rest := by
  obtain ⟨hsplit, hne, hall, hstop⟩ := digits?_eq_some.mp h
  refine ⟨hne, hsplit, fun c hc => isScalarChar_of_isDigit (hall c hc), fun other ho => ?_⟩
  exact digits?_eq_some.mpr
    ⟨rfl, hne, hall, ho.none_next (fun _ hc => isScalarChar_of_isDigit hc) hstop⟩

/-! ## Numbers -/

theorem wholePart?_eq (h : cs.head? ≠ some '0') : wholePart? cs = digits? cs := by
  unfold wholePart?
  split
  · exact absurd rfl h
  · rfl

theorem takes_wholePart? {whole : List Char} (h : wholePart? cs = some (whole, rest)) :
    ∃ front, front ≠ [] ∧ cs = front ++ rest ∧ Takes wholePart? front whole rest := by
  by_cases hzero : cs.head? = some '0'
  · obtain ⟨tail, rfl⟩ := List.head?_eq_some_iff.mp hzero
    rw [wholePart?] at h
    split at h
    · exact absurd h (by simp)
    · rename_i hdigit
      obtain ⟨rfl, rfl⟩ := Prod.mk.inj (Option.some.inj h)
      refine ⟨['0'], by simp, rfl, by simp; decide, fun other ho => ?_⟩
      have hother := ho.none_next (fun _ hc => isScalarChar_of_isDigit hc)
        (by simpa [Option.any_eq_false] using hdigit)
      rw [List.singleton_append, wholePart?, if_neg (by simpa [Option.any_eq_false] using hother)]
  · rw [wholePart?_eq hzero] at h
    obtain ⟨hne, rfl, hchars, hreads⟩ := takes_digits? h
    refine ⟨whole, hne, rfl, hchars, fun other ho => ?_⟩
    rw [wholePart?_eq, hreads other ho]
    obtain ⟨c, run, rfl⟩ := List.exists_cons_of_ne_nil hne
    exact hzero

theorem fraction?_of_ne (h : cs.head? ≠ some '.') : fraction? cs = some ([], cs) := by
  unfold fraction?
  split
  · exact absurd rfl h
  · rfl

theorem takes_fraction? {part : List Char} (h : fraction? cs = some (part, rest)) :
    ∃ front, cs = front ++ rest ∧ Takes fraction? front part rest := by
  by_cases hpoint : cs.head? = some '.'
  · obtain ⟨tail, rfl⟩ := List.head?_eq_some_iff.mp hpoint
    have h : digits? tail = some (part, rest) := h
    obtain ⟨-, rfl, hchars, hreads⟩ := takes_digits? h
    refine ⟨'.' :: part, rfl, ?_, fun other ho => hreads other ho⟩
    intro c hc
    rcases List.mem_cons.mp hc with rfl | hc
    · decide
    · exact hchars c hc
  · rw [fraction?_of_ne hpoint] at h
    obtain ⟨rfl, rfl⟩ := Prod.mk.inj (Option.some.inj h)
    exact ⟨[], rfl, by simp, fun other ho => fraction?_of_ne (ho.head?_ne (by decide) hpoint)⟩

/-- The digits of an exponent, behind its sign. -/
def signed? (negative : Bool) (cs : List Char) : Option (Int × List Char) :=
  (digits? cs).map fun (run, rest) =>
    (if negative then -(decimal run : Int) else (decimal run : Int), rest)

theorem takes_signed? {negative : Bool} {power : Int}
    (h : signed? negative cs = some (power, rest)) :
    ∃ front, front ≠ [] ∧ (∀ c ∈ front, c.isDigit = true) ∧ cs = front ++ rest ∧
      Takes (signed? negative) front power rest := by
  obtain ⟨⟨run, after⟩, hrun, hpair⟩ := Option.map_eq_some_iff.mp h
  obtain ⟨rfl, rfl⟩ := Prod.mk.inj hpair
  obtain ⟨hne, hsplit, hchars, hreads⟩ := takes_digits? hrun
  refine ⟨run, hne, (digits?_eq_some.mp hrun).2.2.1, hsplit, hchars, fun other ho => ?_⟩
  rw [signed?, hreads other ho]
  rfl

theorem signed?_eq (negative : Bool) (digits : List Char) :
    (match digits.takeWhile Char.isDigit with
      | [] => none
      | run => some (if negative then -(decimal run : Int) else (decimal run : Int),
          digits.dropWhile Char.isDigit)) = signed? negative digits := by
  unfold signed? digits?
  split <;> rfl

theorem exponent?_plus (tail : List Char) : exponent? ('+' :: tail) = signed? false tail :=
  signed?_eq false tail

theorem exponent?_minus (tail : List Char) : exponent? ('-' :: tail) = signed? true tail :=
  signed?_eq true tail

theorem exponent?_of_ne (hplus : ∀ tail, cs ≠ '+' :: tail) (hminus : ∀ tail, cs ≠ '-' :: tail) :
    exponent? cs = signed? false cs := by
  unfold exponent?
  split
  rename_i negative digits heq
  split at heq
  · exact absurd rfl (hplus _)
  · exact absurd rfl (hminus _)
  · obtain ⟨rfl, rfl⟩ := Prod.mk.inj heq
    exact signed?_eq false _

theorem takes_exponent? {power : Int} (h : exponent? cs = some (power, rest)) :
    ∃ front, cs = front ++ rest ∧ Takes exponent? front power rest := by
  have hsign : ∀ (sign : Char) (negative : Bool) (tail : List Char), isScalarChar sign = true →
      (∀ tail, exponent? (sign :: tail) = signed? negative tail) →
      signed? negative tail = some (power, rest) →
      ∃ front, sign :: tail = front ++ rest ∧ Takes exponent? front power rest := by
    intro sign negative tail hc hread h
    obtain ⟨front, -, -, rfl, hchars, hreads⟩ := takes_signed? h
    refine ⟨sign :: front, rfl, ?_, fun other ho => (hread _).trans (hreads other ho)⟩
    intro c hmem
    rcases List.mem_cons.mp hmem with rfl | hmem
    · exact hc
    · exact hchars c hmem
  by_cases hplus : ∃ tail, cs = '+' :: tail
  · obtain ⟨tail, rfl⟩ := hplus
    rw [exponent?_plus] at h
    exact hsign '+' false _ (by decide) exponent?_plus h
  by_cases hminus : ∃ tail, cs = '-' :: tail
  · obtain ⟨tail, rfl⟩ := hminus
    rw [exponent?_minus] at h
    exact hsign '-' true _ (by decide) exponent?_minus h
  · rw [not_exists] at hplus hminus
    rw [exponent?_of_ne hplus hminus] at h
    obtain ⟨front, hne, hdigits, hsplit, hchars, hreads⟩ := takes_signed? h
    refine ⟨front, hsplit, hchars, fun other ho => ?_⟩
    obtain ⟨c, run, rfl⟩ := List.exists_cons_of_ne_nil hne
    have hc : c.isDigit = true := hdigits c (by simp)
    -- a digit is no sign
    have hsign : ∀ sign : Char, sign.isDigit = false → ∀ tail, c :: run ++ other ≠ sign :: tail := by
      rintro sign hno tail heq
      rw [(List.cons.inj heq).1, hno] at hc
      exact Bool.noConfusion hc
    rw [exponent?_of_ne (hsign '+' (by decide)) (hsign '-' (by decide))]
    exact hreads other ho

/-- What follows a number, behind its digits: there may be an exponent. -/
def ending? (m : Magnitude) (cs : List Char) : Option (List Char) :=
  match cs with
  | e :: tail =>
      if e = 'e' ∨ e = 'E' then do
        let (power, rest) ← exponent? tail
        if { m with power := m.power + power }.inRange then some rest else none
      else if m.inRange then some cs else none
  | [] => if m.inRange then some cs else none

/-- What follows a number without its sign. -/
def unsigned? (cs : List Char) : Option (List Char) := do
  let (whole, rest) ← wholePart? cs
  let (part, rest) ← fraction? rest
  ending? (part.foldl Magnitude.part (whole.foldl Magnitude.whole ⟨0, 0, false⟩)) rest

theorem number?_minus (cs : List Char) : number? ('-' :: cs) = unsigned? cs := rfl

theorem number?_of_ne (h : cs.head? ≠ some '-') : number? cs = unsigned? cs := by
  unfold number?
  split
  · exact absurd rfl h
  · rfl

theorem takes_ending? {m : Magnitude} (h : ending? m cs = some rest) :
    ∃ front, cs = front ++ rest ∧ (∀ c ∈ front, isScalarChar c = true) ∧
      ∀ other, SameEnd other rest → ending? m (front ++ other) = some other := by
  have hdone : ∀ cs : List Char, (∀ c ∈ cs.head?, ¬ (c = 'e' ∨ c = 'E')) →
      ending? m cs = if m.inRange then some cs else none := by
    intro cs hcs
    cases cs with
    | nil => rfl
    | cons c cs => exact if_neg (hcs c (by simp))
  by_cases he : ∀ c ∈ cs.head?, ¬ (c = 'e' ∨ c = 'E')
  · rw [hdone cs he] at h
    split at h
    · rename_i hrange
      obtain rfl := Option.some.inj h
      refine ⟨[], rfl, by simp, fun other ho => ?_⟩
      have hother : ∀ c ∈ other.head?, ¬ (c = 'e' ∨ c = 'E') := by
        rintro c hc (rfl | rfl)
        · exact ho.head?_ne (by decide) (fun hhead => he _ hhead (.inl rfl)) hc
        · exact ho.head?_ne (by decide) (fun hhead => he _ hhead (.inr rfl)) hc
      rw [List.nil_append, hdone other hother, if_pos hrange]
    · exact absurd h (by simp)
  · cases cs with
    | nil => exact absurd (by simp) he
    | cons c tail =>
        have hc : c = 'e' ∨ c = 'E' := by
          by_contra hc
          exact he (by simpa using hc)
        have hread : ∀ tail, ending? m (c :: tail) = (exponent? tail).bind fun (power, rest) =>
            if { m with power := m.power + power }.inRange then some rest else none :=
          fun tail => if_pos hc
        rw [hread] at h
        obtain ⟨⟨power, after⟩, hpower, h⟩ := Option.bind_eq_some_iff.mp h
        dsimp only at h
        split at h
        · rename_i hrange
          obtain rfl := Option.some.inj h
          obtain ⟨front, rfl, hchars, hreads⟩ := takes_exponent? hpower
          refine ⟨c :: front, rfl, ?_, fun other ho => ?_⟩
          · intro d hd
            rcases List.mem_cons.mp hd with rfl | hd
            · rcases hc with rfl | rfl <;> decide
            · exact hchars d hd
          · rw [List.cons_append, hread, hreads other ho, Option.bind_some]
            exact if_pos hrange
        · exact absurd h (by simp)

theorem takes_unsigned? (h : unsigned? cs = some rest) : ∃ front, front ≠ [] ∧
    cs = front ++ rest ∧ (∀ c ∈ front, isScalarChar c = true) ∧
    ∀ other, SameEnd other rest → unsigned? (front ++ other) = some other := by
  obtain ⟨⟨whole, afterWhole⟩, hwhole, hafter⟩ := Option.bind_eq_some_iff.mp h
  obtain ⟨⟨part, afterPart⟩, hpart, hend⟩ := Option.bind_eq_some_iff.mp hafter
  obtain ⟨front, hne, rfl, hfront, hwhole'⟩ := takes_wholePart? hwhole
  obtain ⟨points, rfl, hpoints, hpart'⟩ := takes_fraction? hpart
  obtain ⟨tail, rfl, htail, hreads⟩ := takes_ending? hend
  refine ⟨front ++ (points ++ tail), by simp [hne], by simp, ?_, fun other ho => ?_⟩
  · intro c hc
    simp only [List.mem_append] at hc
    rcases hc with hc | hc | hc
    · exact hfront c hc
    · exact hpoints c hc
    · exact htail c hc
  · have hlast : SameEnd (tail ++ other) (tail ++ rest) := ho.append tail
    have hmid : SameEnd (points ++ (tail ++ other)) (points ++ (tail ++ rest)) := hlast.append points
    rw [unsigned?, List.append_assoc, List.append_assoc, hwhole' _ hmid]
    show (fraction? (points ++ (tail ++ other))).bind _ = _
    rw [hpart' _ hlast]
    exact hreads other ho

/-- **A number is over with its last character.** -/
theorem takes_number? (h : number? cs = some rest) : ∃ front, front ≠ [] ∧ cs = front ++ rest ∧
    (∀ c ∈ front, isScalarChar c = true) ∧
    ∀ other, SameEnd other rest → number? (front ++ other) = some other := by
  by_cases hminus : cs.head? = some '-'
  · obtain ⟨tail, rfl⟩ := List.head?_eq_some_iff.mp hminus
    rw [number?_minus] at h
    obtain ⟨front, -, rfl, hchars, hreads⟩ := takes_unsigned? h
    refine ⟨'-' :: front, by simp, rfl, ?_, fun other ho => hreads other ho⟩
    intro c hc
    rcases List.mem_cons.mp hc with rfl | hc
    · decide
    · exact hchars c hc
  · rw [number?_of_ne hminus] at h
    obtain ⟨front, hne, rfl, hchars, hreads⟩ := takes_unsigned? h
    refine ⟨front, hne, rfl, hchars, fun other ho => ?_⟩
    rw [number?_of_ne, hreads other ho]
    obtain ⟨c, front, rfl⟩ := List.exists_cons_of_ne_nil hne
    exact hminus

/-- **So is a word**, and either has at least one character. -/
theorem takes_scalar? (h : scalar? cs = some rest) : ∃ front, front ≠ [] ∧ cs = front ++ rest ∧
    (∀ c ∈ front, isScalarChar c = true) ∧
    ∀ other, SameEnd other rest → scalar? (front ++ other) = some other := by
  have hword : ∀ (first : Char) (word : String) (tail : List Char),
      (∀ c ∈ first :: word.toList, isScalarChar c = true) →
      (∀ tail, scalar? (first :: tail) = keyword? word tail) →
      scalar? (first :: tail) = some rest → ∃ front, front ≠ [] ∧ first :: tail = front ++ rest ∧
        (∀ c ∈ front, isScalarChar c = true) ∧
        ∀ other, SameEnd other rest → scalar? (front ++ other) = some other := by
    intro first word tail hchars hread h
    rw [hread, keyword?, isPrefixOf?_eq_some] at h
    subst h
    refine ⟨first :: word.toList, by simp, rfl, hchars, fun other _ => ?_⟩
    rw [List.cons_append, hread, keyword?, isPrefixOf?_eq_some]
  unfold scalar? at h
  split at h
  · exact hword 't' "rue" _ (List.all_eq_true.mp (by decide)) (fun _ => rfl) h
  · exact hword 'f' "alse" _ (List.all_eq_true.mp (by decide)) (fun _ => rfl) h
  · exact hword 'n' "ull" _ (List.all_eq_true.mp (by decide)) (fun _ => rfl) h
  · rename_i ht hf hn
    obtain ⟨front, hne, rfl, hchars, hreads⟩ := takes_number? h
    refine ⟨front, hne, rfl, hchars, fun other ho => ?_⟩
    obtain ⟨c, front, rfl⟩ := List.exists_cons_of_ne_nil hne
    rw [← hreads other ho]
    unfold scalar?
    split
    · rename_i heq
      obtain ⟨rfl, -⟩ := List.cons.inj heq
      exact absurd rfl (ht _)
    · rename_i heq
      obtain ⟨rfl, -⟩ := List.cons.inj heq
      exact absurd rfl (hf _)
    · rename_i heq
      obtain ⟨rfl, -⟩ := List.cons.inj heq
      exact absurd rfl (hn _)
    · rfl

end LinkKeeper.Json
