import LinkKeeper.Proofs.Numerals
import LinkKeeper.Proofs.Strings

/-!
# The grammar behind the reader

The reader of documents is given a number of steps, and gathers the items of a list as it
goes. What it accepts can be said without either: `Reading` has one rule for each way in
which a value, or the rest of a list or of an object, can stand at the front of a text.
The reader answers exactly what the rules derive, as long as it is given two steps for
each character. What holds of all documents is then proved rule by rule.
-/

namespace LinkKeeper.Json

open Text

/-- What is read: a value, or what is still to come of a list or of an object. -/
inductive Part where
  | value
  | items
  | members

/--
A part of a document at the front of a text: how deep it may nest, the place where the text
begins, the text, what is read, and the place and the text behind it.
-/
inductive Reading : Part → Nat → Nat → List Char → Value → Nat → List Char → Prop
  | text {depth offset place next : Nat} {cs inside rest : List Char} {l : Literal}
      (hs : skipSpace offset cs = (place, '"' :: inside))
      (hl : literal? (place + 1) inside = some (l, next, rest)) :
      Reading .value depth offset cs (.text l) next rest
  | scalar {depth offset place : Nat} {cs word rest : List Char}
      (hs : skipSpace offset cs = (place, word)) (hw : scalar? word = some rest) :
      Reading .value depth offset cs .scalar (place + (word.length - rest.length)) rest
  | noItems {depth offset place stop : Nat} {cs inside rest : List Char}
      (hs : skipSpace offset cs = (place, '[' :: inside))
      (he : skipSpace (place + 1) inside = (stop, ']' :: rest)) :
      Reading .value (depth + 1) offset cs (.list []) (stop + 1) rest
  | list {depth offset place first next : Nat} {cs inside within rest : List Char} {v : Value}
      (hs : skipSpace offset cs = (place, '[' :: inside))
      (hf : skipSpace (place + 1) inside = (first, within)) (hne : within.head? ≠ some ']')
      (h : Reading .items depth first within v next rest) :
      Reading .value (depth + 1) offset cs v next rest
  | noMembers {depth offset place stop : Nat} {cs inside rest : List Char}
      (hs : skipSpace offset cs = (place, '\x7b' :: inside))
      (he : skipSpace (place + 1) inside = (stop, '\x7d' :: rest)) :
      Reading .value (depth + 1) offset cs (.object []) (stop + 1) rest
  | object {depth offset place first next : Nat} {cs inside within rest : List Char} {v : Value}
      (hs : skipSpace offset cs = (place, '\x7b' :: inside))
      (hf : skipSpace (place + 1) inside = (first, within)) (hne : within.head? ≠ some '\x7d')
      (h : Reading .members depth first within v next rest) :
      Reading .value (depth + 1) offset cs v next rest
  | lastItem {depth offset mid stop : Nat} {cs behind rest : List Char} {item : Value}
      (h : Reading .value depth offset cs item mid behind)
      (he : skipSpace mid behind = (stop, ']' :: rest)) :
      Reading .items depth offset cs (.list [item]) (stop + 1) rest
  | item {depth offset mid comma next : Nat} {cs behind more rest : List Char} {item : Value}
      {items : List Value} (h : Reading .value depth offset cs item mid behind)
      (hc : skipSpace mid behind = (comma, ',' :: more))
      (hm : Reading .items depth (comma + 1) more (.list items) next rest) :
      Reading .items depth offset cs (.list (item :: items)) next rest
  | lastMember {depth offset place mid colon after stop : Nat}
      {cs inside behind tail left rest : List Char} {key : Literal} {v : Value}
      (hs : skipSpace offset cs = (place, '"' :: inside))
      (hk : literal? (place + 1) inside = some (key, mid, behind))
      (hd : skipSpace mid behind = (colon, ':' :: tail))
      (h : Reading .value depth (colon + 1) tail v after left)
      (he : skipSpace after left = (stop, '\x7d' :: rest)) :
      Reading .members depth offset cs (.object [(key, v)]) (stop + 1) rest
  | member {depth offset place mid colon after comma next : Nat}
      {cs inside behind tail left more rest : List Char} {key : Literal} {v : Value}
      {members : List (Literal × Value)} (hs : skipSpace offset cs = (place, '"' :: inside))
      (hk : literal? (place + 1) inside = some (key, mid, behind))
      (hd : skipSpace mid behind = (colon, ':' :: tail))
      (h : Reading .value depth (colon + 1) tail v after left)
      (hc : skipSpace after left = (comma, ',' :: more))
      (hm : Reading .members depth (comma + 1) more (.object members) next rest) :
      Reading .members depth offset cs (.object ((key, v) :: members)) next rest

variable {cs rest : List Char} {v : Value} {depth offset next : Nat}

/-! ## Blanks -/

/-- Blanks are passed over up to something else, and each of them counts. -/
theorem skipSpace_eq_iff {place : Nat} : skipSpace offset cs = (place, rest) ↔
    ∃ blanks, cs = blanks ++ rest ∧ (∀ c ∈ blanks, isSpace c = true) ∧
      (∀ c ∈ rest.head?, isSpace c = false) ∧ place = offset + blanks.length := by
  induction cs generalizing offset with
  | nil =>
      constructor
      · intro h
        obtain ⟨rfl, rfl⟩ := Prod.mk.inj h
        exact ⟨[], rfl, by simp, by simp, rfl⟩
      · rintro ⟨blanks, hsplit, -, -, rfl⟩
        obtain ⟨rfl, rfl⟩ := List.nil_eq_append_iff.mp hsplit
        rfl
  | cons c cs ih =>
      rw [skipSpace]
      split
      · rename_i hc
        rw [ih]
        constructor
        · rintro ⟨blanks, rfl, hblanks, hrest, rfl⟩
          refine ⟨c :: blanks, rfl, ?_, hrest, by rw [List.length_cons]; omega⟩
          intro d hd
          rcases List.mem_cons.mp hd with rfl | hd
          · exact hc
          · exact hblanks d hd
        · rintro ⟨blanks, hsplit, hblanks, hrest, rfl⟩
          cases blanks with
          | nil =>
              have := hrest c (by rw [← List.nil_append rest, ← hsplit]; rfl)
              rw [hc] at this
              exact Bool.noConfusion this
          | cons d blanks =>
              obtain ⟨rfl, rfl⟩ := List.cons.inj hsplit
              exact ⟨blanks, rfl, fun e he => hblanks e (by simp [he]), hrest, by
                rw [List.length_cons]; omega⟩
      · rename_i hc
        constructor
        · intro h
          obtain ⟨rfl, rfl⟩ := Prod.mk.inj h
          exact ⟨[], rfl, by simp, by simpa using hc, rfl⟩
        · rintro ⟨blanks, hsplit, hblanks, -, rfl⟩
          cases blanks with
          | nil => rw [List.nil_append] at hsplit; rw [hsplit]; rfl
          | cons d blanks =>
              obtain ⟨rfl, -⟩ := List.cons.inj hsplit
              exact absurd (hblanks c (by simp)) hc

theorem length_of_skipSpace {place : Nat} (h : skipSpace offset cs = (place, rest)) :
    rest.length ≤ cs.length := by
  obtain ⟨blanks, rfl, -⟩ := skipSpace_eq_iff.mp h
  rw [List.length_append]
  omega

theorem length_of_literal? {l : Literal} (h : literal? offset cs = some (l, next, rest)) :
    rest.length < cs.length := by
  obtain ⟨-, rfl, -⟩ := literal?_eq_some.mp h
  rw [List.length_append, List.length_cons]
  omega

/-! ## What the reader answers is derived -/

/-- The reader of a word or a number counts what it has passed over. -/
theorem reading_scalar {place : Nat} {word : List Char}
    (hs : skipSpace offset cs = (place, word)) {answer : Option (List Char)} {place' : List Char → Nat}
    (hw : scalar? word = answer)
    (hplace : ∀ rest, answer = some rest → place' rest = place + (word.length - rest.length))
    (h : (answer.map fun rest => (Value.scalar, place' rest, rest)) = some (v, next, rest)) :
    Reading .value depth offset cs v next rest := by
  obtain ⟨after, hafter, hpair⟩ := Option.map_eq_some_iff.mp h
  simp only [Prod.mk.injEq] at hpair
  obtain ⟨rfl, rfl, rfl⟩ := hpair
  rw [hplace _ hafter]
  exact .scalar hs (hw.trans hafter)

/-- A word that is read takes its letters. -/
theorem length_of_keyword? {word : String} (h : keyword? word cs = some rest) :
    cs.length = word.toList.length + rest.length := by
  rw [keyword?, isPrefixOf?_eq_some] at h
  rw [h, List.length_append]

theorem reading_of_answers (fuel : Nat) :
    (∀ {depth offset cs v next rest}, value? fuel depth offset cs = some (v, next, rest) →
      Reading .value depth offset cs v next rest) ∧
    (∀ {depth before offset cs v next rest},
      items? fuel depth before offset cs = some (v, next, rest) →
      ∃ items, v = .list (before.reverse ++ items) ∧
        Reading .items depth offset cs (.list items) next rest) ∧
    (∀ {depth before offset cs v next rest},
      members? fuel depth before offset cs = some (v, next, rest) →
      ∃ members, v = .object (before.reverse ++ members) ∧
        Reading .members depth offset cs (.object members) next rest) := by
  induction fuel with
  | zero => exact ⟨fun h => absurd h (by simp [value?]), fun h => absurd h (by simp [items?]),
      fun h => absurd h (by simp [members?])⟩
  | succ fuel ih =>
      obtain ⟨hvalue, hitems, hmembers⟩ := ih
      refine ⟨?_, ?_, ?_⟩
      · intro depth offset cs v next rest h
        rw [value?] at h
        split at h
        · exact absurd h (by simp)
        · rename_i place c cs' hs
          split at h
          · rename_i hc
            subst hc
            obtain ⟨⟨l, stop, after⟩, hl, hpair⟩ := Option.map_eq_some_iff.mp h
            simp only [Prod.mk.injEq] at hpair
            obtain ⟨rfl, rfl, rfl⟩ := hpair
            exact .text hs hl
          split at h
          · rename_i hc
            subst hc
            split at h
            · exact absurd h (by simp)
            · split at h
              · rename_i he
                simp only [Option.some.injEq, Prod.mk.injEq] at h
                obtain ⟨rfl, rfl, rfl⟩ := h
                exact .noItems hs he
              · rename_i first within hne hf
                obtain ⟨items, rfl, hread⟩ := hitems h
                refine .list hs hf ?_ hread
                intro hhead
                obtain ⟨tail, rfl⟩ := List.head?_eq_some_iff.mp hhead
                exact hne _ rfl
          split at h
          · rename_i hc
            subst hc
            split at h
            · exact absurd h (by simp)
            · split at h
              · rename_i he
                simp only [Option.some.injEq, Prod.mk.injEq] at h
                obtain ⟨rfl, rfl, rfl⟩ := h
                exact .noMembers hs he
              · rename_i first within hne hf
                obtain ⟨members, rfl, hread⟩ := hmembers h
                refine .object hs hf ?_ hread
                intro hhead
                obtain ⟨tail, rfl⟩ := List.head?_eq_some_iff.mp hhead
                exact hne _ rfl
          have hword : ∀ (word : String) (rest : List Char), keyword? word cs' = some rest →
              place + (word.toList.length + 1) = place + ((c :: cs').length - rest.length) := by
            intro word rest hw
            have := length_of_keyword? hw
            rw [List.length_cons]
            omega
          split at h
          · rename_i hc
            subst hc
            exact reading_scalar hs rfl (hword "rue") h
          split at h
          · rename_i hc
            subst hc
            exact reading_scalar hs rfl (hword "alse") h
          split at h
          · rename_i hc
            subst hc
            exact reading_scalar hs rfl (hword "ull") h
          · rename_i hn hf ht
            refine reading_scalar hs ?_ (fun _ _ => rfl) h
            unfold scalar?
            split <;> simp_all
      · intro depth before offset cs v next rest h
        rw [items?] at h
        split at h
        · exact absurd h (by simp)
        · rename_i item mid behind hv
          have hread := hvalue hv
          split at h
          · rename_i comma more hc
            obtain ⟨items, rfl, hmore⟩ := hitems h
            exact ⟨item :: items, by simp, .item hread hc hmore⟩
          · rename_i stop after he
            simp only [Option.some.injEq, Prod.mk.injEq] at h
            obtain ⟨rfl, rfl, rfl⟩ := h
            exact ⟨[item], by simp, .lastItem hread he⟩
          · exact absurd h (by simp)
      · intro depth before offset cs v next rest h
        rw [members?] at h
        split at h
        · rename_i place inside hs
          split at h
          · exact absurd h (by simp)
          · rename_i key mid behind hk
            split at h
            · rename_i colon tail hd
              split at h
              · exact absurd h (by simp)
              · rename_i value after left hv
                have hread := hvalue hv
                split at h
                · rename_i comma more hc
                  obtain ⟨members, rfl, hmore⟩ := hmembers h
                  exact ⟨(key, value) :: members, by simp, .member hs hk hd hread hc hmore⟩
                · rename_i stop after he
                  simp only [Option.some.injEq, Prod.mk.injEq] at h
                  obtain ⟨rfl, rfl, rfl⟩ := h
                  exact ⟨[(key, value)], by simp, .lastMember hs hk hd hread he⟩
                · exact absurd h (by simp)
            · exact absurd h (by simp)
        · exact absurd h (by simp)

/-! ## What is derived is answered -/

/-- The reader answers a part, in two steps for each character that it takes. -/
def Answered (depth offset : Nat) (cs : List Char) (v : Value) (next : Nat) (rest : List Char) :
    Part → Prop
  | .value => ∀ fuel, 2 * (cs.length - rest.length) ≤ fuel →
      value? fuel depth offset cs = some (v, next, rest)
  | .items => ∃ items, v = .list items ∧ ∀ fuel before, 2 * (cs.length - rest.length) < fuel →
      items? fuel depth before offset cs = some (.list (before.reverse ++ items), next, rest)
  | .members => ∃ members, v = .object members ∧
      ∀ fuel before, 2 * (cs.length - rest.length) < fuel →
        members? fuel depth before offset cs = some (.object (before.reverse ++ members), next, rest)

theorem scalar?_of_ne {c : Char} {tail : List Char} (ht : c ≠ 't') (hf : c ≠ 'f') (hn : c ≠ 'n') :
    scalar? (c :: tail) = number? (c :: tail) := by
  unfold scalar?
  split
  · rename_i heq
    exact absurd (List.cons.inj heq).1 ht
  · rename_i heq
    exact absurd (List.cons.inj heq).1 hf
  · rename_i heq
    exact absurd (List.cons.inj heq).1 hn
  · rfl

theorem value?_of_scalar? {place fuel : Nat} {word : List Char}
    (hs : skipSpace offset cs = (place, word)) (hw : scalar? word = some rest) :
    value? (fuel + 1) depth offset cs =
      some (.scalar, place + (word.length - rest.length), rest) := by
  obtain ⟨front, hne, rfl, hchars, -⟩ := takes_scalar? hw
  obtain ⟨c, front, rfl⟩ := List.exists_cons_of_ne_nil hne
  have hc := hchars c (by simp)
  have hquote : c ≠ '"' := by rintro rfl; exact absurd hc (by decide)
  have hlist : c ≠ '[' := by rintro rfl; exact absurd hc (by decide)
  have hobject : c ≠ '\x7b' := by rintro rfl; exact absurd hc (by decide)
  rw [value?, hs]
  simp only [List.cons_append, if_neg hquote, if_neg hlist, if_neg hobject]
  rw [List.cons_append] at hw
  have hword : ∀ (word : String), keyword? word (front ++ rest) = some rest →
      word.toList.length + 1 = (c :: (front ++ rest)).length - rest.length := by
    intro word hword
    rw [keyword?, isPrefixOf?_eq_some] at hword
    rw [List.length_cons, hword, List.length_append]
    omega
  by_cases ht : c = 't'
  · subst ht
    have hw : keyword? "rue" (front ++ rest) = some rest := hw
    rw [if_pos rfl, hw, ← hword _ hw]
    rfl
  by_cases hf : c = 'f'
  · subst hf
    have hw : keyword? "alse" (front ++ rest) = some rest := hw
    rw [if_neg ht, if_pos rfl, hw, ← hword _ hw]
    rfl
  by_cases hn : c = 'n'
  · subst hn
    have hw : keyword? "ull" (front ++ rest) = some rest := hw
    rw [if_neg ht, if_neg hf, if_pos rfl, hw, ← hword _ hw]
    rfl
  · rw [scalar?_of_ne ht hf hn] at hw
    rw [if_neg ht, if_neg hf, if_neg hn, hw]
    rfl

/-- The reader answers whatever the rules derive, and each rule takes something. -/
theorem Reading.answered {part : Part} (h : Reading part depth offset cs v next rest) :
    rest.length < cs.length ∧ Answered depth offset cs v next rest part := by
  induction h with
  | text hs hl =>
      have hlength := length_of_skipSpace hs
      have hinside := length_of_literal? hl
      rw [List.length_cons] at hlength
      refine ⟨by omega, fun fuel hfuel => ?_⟩
      obtain ⟨fuel, rfl⟩ : ∃ n, fuel = n + 1 := ⟨fuel - 1, by omega⟩
      simp [value?, hs, hl]
  | scalar hs hw =>
      have hlength := length_of_skipSpace hs
      obtain ⟨front, hne, rfl, -, -⟩ := takes_scalar? hw
      have hpos := List.length_pos_iff.mpr hne
      rw [List.length_append] at hlength
      refine ⟨by omega, fun fuel hfuel => ?_⟩
      obtain ⟨fuel, rfl⟩ : ∃ n, fuel = n + 1 := ⟨fuel - 1, by omega⟩
      exact value?_of_scalar? hs hw
  | noItems hs he =>
      have hlength := length_of_skipSpace hs
      have hinside := length_of_skipSpace he
      rw [List.length_cons] at hlength hinside
      refine ⟨by omega, fun fuel hfuel => ?_⟩
      obtain ⟨fuel, rfl⟩ : ∃ n, fuel = n + 1 := ⟨fuel - 1, by omega⟩
      simp [value?, hs, he]
  | @list depth offset place first next cs inside within rest v hs hf hne h ih =>
      have hlength := length_of_skipSpace hs
      have hinside := length_of_skipSpace hf
      rw [List.length_cons] at hlength
      obtain ⟨hlt, items, rfl, hitems⟩ := ih
      refine ⟨by omega, fun fuel hfuel => ?_⟩
      obtain ⟨fuel, rfl⟩ : ∃ n, fuel = n + 1 := ⟨fuel - 1, by omega⟩
      have hread := hitems fuel [] (by omega)
      rw [value?, hs]
      simp only [if_neg (by decide : '[' ≠ '"'), if_true, hf]
      split
      · rename_i heq
        obtain ⟨-, rfl⟩ := Prod.mk.inj heq
        exact absurd rfl hne
      · rename_i heq
        obtain ⟨rfl, rfl⟩ := Prod.mk.inj heq
        exact hread
  | noMembers hs he =>
      have hlength := length_of_skipSpace hs
      have hinside := length_of_skipSpace he
      rw [List.length_cons] at hlength hinside
      refine ⟨by omega, fun fuel hfuel => ?_⟩
      obtain ⟨fuel, rfl⟩ : ∃ n, fuel = n + 1 := ⟨fuel - 1, by omega⟩
      simp [value?, hs, he]
  | @object depth offset place first next cs inside within rest v hs hf hne h ih =>
      have hlength := length_of_skipSpace hs
      have hinside := length_of_skipSpace hf
      rw [List.length_cons] at hlength
      obtain ⟨hlt, members, rfl, hmembers⟩ := ih
      refine ⟨by omega, fun fuel hfuel => ?_⟩
      obtain ⟨fuel, rfl⟩ : ∃ n, fuel = n + 1 := ⟨fuel - 1, by omega⟩
      have hread := hmembers fuel [] (by omega)
      rw [value?, hs]
      simp only [if_neg (by decide : '\x7b' ≠ '"'), if_neg (by decide : '\x7b' ≠ '['), if_true, hf]
      split
      · rename_i heq
        obtain ⟨-, rfl⟩ := Prod.mk.inj heq
        exact absurd rfl hne
      · rename_i heq
        obtain ⟨rfl, rfl⟩ := Prod.mk.inj heq
        exact hread
  | lastItem h he ih =>
      have hbehind := length_of_skipSpace he
      rw [List.length_cons] at hbehind
      obtain ⟨hlt, hitem⟩ := ih
      refine ⟨by omega, _, rfl, fun fuel before hfuel => ?_⟩
      obtain ⟨fuel, rfl⟩ : ∃ n, fuel = n + 1 := ⟨fuel - 1, by omega⟩
      simp [items?, hitem fuel (by omega), he]
  | item h hc hm ih ihm =>
      have hbehind := length_of_skipSpace hc
      rw [List.length_cons] at hbehind
      obtain ⟨hlt, hitem⟩ := ih
      obtain ⟨hmore, items, heq, hitems⟩ := ihm
      obtain rfl := Value.list.inj heq
      refine ⟨by omega, _, rfl, fun fuel before hfuel => ?_⟩
      obtain ⟨fuel, rfl⟩ : ∃ n, fuel = n + 1 := ⟨fuel - 1, by omega⟩
      simp [items?, hitem fuel (by omega), hc, hitems fuel _ (by omega)]
  | lastMember hs hk hd h he ih =>
      have hspace := length_of_skipSpace hs
      have hkey := length_of_literal? hk
      have hcolon := length_of_skipSpace hd
      have hleft := length_of_skipSpace he
      rw [List.length_cons] at hspace hcolon hleft
      obtain ⟨hlt, hvalue⟩ := ih
      refine ⟨by omega, _, rfl, fun fuel before hfuel => ?_⟩
      obtain ⟨fuel, rfl⟩ : ∃ n, fuel = n + 1 := ⟨fuel - 1, by omega⟩
      simp [members?, hs, hk, hd, hvalue fuel (by omega), he]
  | member hs hk hd h hc hm ih ihm =>
      have hspace := length_of_skipSpace hs
      have hkey := length_of_literal? hk
      have hcolon := length_of_skipSpace hd
      have hleft := length_of_skipSpace hc
      rw [List.length_cons] at hspace hcolon hleft
      obtain ⟨hlt, hvalue⟩ := ih
      obtain ⟨hmore, members, heq, hmembers⟩ := ihm
      obtain rfl := Value.object.inj heq
      refine ⟨by omega, _, rfl, fun fuel before hfuel => ?_⟩
      obtain ⟨fuel, rfl⟩ : ∃ n, fuel = n + 1 := ⟨fuel - 1, by omega⟩
      simp [members?, hs, hk, hd, hvalue fuel (by omega), hc, hmembers fuel _ (by omega)]

/-- **A text is a document** when a value stands at its front, and nothing but blanks behind it. -/
theorem parse?_eq_some : parse? cs = some v ↔
    ∃ next rest, Reading .value deepest 0 cs v next rest ∧ ∀ c ∈ rest, isSpace c = true := by
  have hblank : ∀ next rest, (skipSpace next rest).2.isEmpty = true ↔
      ∀ c ∈ rest, isSpace c = true := by
    intro next rest
    obtain ⟨blanks, hsplit, hblanks, hstop, -⟩ :=
      skipSpace_eq_iff.mp (rfl : skipSpace next rest = ((skipSpace next rest).1, (skipSpace next rest).2))
    constructor
    · intro hempty
      rw [List.isEmpty_iff.mp hempty, List.append_nil] at hsplit
      rw [hsplit]
      exact hblanks
    · intro hall
      cases hleft : (skipSpace next rest).2 with
      | nil => rfl
      | cons c left =>
          rw [hleft] at hsplit hstop
          have hc := hall c (by rw [hsplit]; simp)
          rw [hstop c (by simp)] at hc
          exact Bool.noConfusion hc
  unfold parse?
  constructor
  · intro h
    split at h
    · rename_i value next rest hvalue
      split at h
      · rename_i hempty
        obtain rfl := Option.some.inj h
        exact ⟨next, rest, (reading_of_answers _).1 hvalue, (hblank _ _).mp hempty⟩
      · exact absurd h (by simp)
    · exact absurd h (by simp)
  · rintro ⟨next, rest, hread, hall⟩
    obtain ⟨-, hvalue⟩ := hread.answered
    rw [hvalue (2 * cs.length + 2) (by omega)]
    dsimp only
    rw [if_pos ((hblank _ _).mpr hall)]

end LinkKeeper.Json
