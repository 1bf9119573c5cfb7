import LinkKeeper.Links.Json
import LinkKeeper.Proofs.Split

/-!
# What stands between quotes

A string of a document is what its characters and escapes spell, up to a quote that no
backslash stands before. Two readers go over it: one spells it out, the other only looks
for the closing quote. They find the same one, and neither looks any further.
-/

namespace LinkKeeper.Json

open Text

/--
The characters behind a backslash that stand for one character, whatever follows them. They
end no line, and who looks for the closing quote goes past them.
-/
structure Escape (esc : List Char) (d : Char) : Prop where
  reads : ∀ more, escape? (esc ++ more) = some (d, esc.length)
  unbroken : '\n' ∉ esc
  passed : ∀ more, Links.Json.untilQuote? ('\\' :: (esc ++ more)) =
    (Links.Json.untilQuote? more).map fun raw => '\\' :: (esc ++ raw)

/-- What may stand between quotes, and the text that it means. -/
inductive Spelt : List Char → List Char → Prop
  | nil : Spelt [] []
  | plain {c : Char} {raw decoded : List Char} (hquote : c ≠ '"') (hescape : c ≠ '\\')
      (hprinted : ¬ c.toNat < 0x20) (h : Spelt raw decoded) : Spelt (c :: raw) (c :: decoded)
  | escape {esc : List Char} {d : Char} {raw decoded : List Char} (he : Escape esc d)
      (h : Spelt raw decoded) : Spelt ('\\' :: (esc ++ raw)) (d :: decoded)

variable {cs rest raw decoded : List Char}

/-! ## Escapes -/

theorem hexDigit?_of_hexNumber? {k n : Nat} (h : hexNumber? k cs = some n) (hk : cs.length = k) :
    ∀ c ∈ cs, (hexDigit? c).isSome = true := by
  have hfold : ∀ (ds : List Char) (m n : Nat),
      ds.foldlM (fun n c => (hexDigit? c).map (16 * n + ·)) m = some n →
      ∀ c ∈ ds, (hexDigit? c).isSome = true := by
    intro ds
    induction ds with
    | nil => simp
    | cons d ds ih =>
        intro m n h
        rw [List.foldlM_cons] at h
        obtain ⟨next, hnext, h⟩ := Option.bind_eq_some_iff.mp h
        obtain ⟨v, hv, -⟩ := Option.map_eq_some_iff.mp hnext
        intro c hc
        rcases List.mem_cons.mp hc with rfl | hc
        · rw [hv]
          rfl
        · exact ih next n h c hc
  unfold hexNumber? at h
  split at h
  · exact absurd h (by simp)
  · rw [List.take_of_length_le (by omega)] at h
    exact hfold cs 0 n h

theorem ne_of_hexDigit? {c : Char} (h : (hexDigit? c).isSome = true) :
    c ≠ '"' ∧ c ≠ '\\' ∧ c ≠ '\n' := by
  refine ⟨?_, ?_, ?_⟩ <;> rintro rfl <;> exact absurd h (by decide)

theorem untilQuote?_cons {c : Char} (hquote : c ≠ '"') (hescape : c ≠ '\\') (cs : List Char) :
    Links.Json.untilQuote? (c :: cs) = (Links.Json.untilQuote? cs).map fun raw => c :: raw := by
  rw [Links.Json.untilQuote?]
  · rintro rfl
    exact absurd rfl hquote
  · rintro rfl
    exact absurd rfl hescape
  · rintro _ _ rfl
    exact absurd rfl hescape

theorem untilQuote?_digits {digits : List Char} (h : ∀ c ∈ digits, (hexDigit? c).isSome = true)
    (cs : List Char) : Links.Json.untilQuote? (digits ++ cs) =
      (Links.Json.untilQuote? cs).map fun raw => digits ++ raw := by
  induction digits with
  | nil => simp
  | cons d digits ih =>
      obtain ⟨hquote, hescape, -⟩ := ne_of_hexDigit? (h d (by simp))
      rw [List.cons_append, untilQuote?_cons hquote hescape, ih fun c hc => h c (by simp [hc]),
        Option.map_map]
      rfl

theorem escape_single {c d : Char} (hc : c ≠ '\n') (h : ∀ more, escape? (c :: more) = some (d, 1)) :
    Escape [c] d :=
  ⟨h, by simpa using Ne.symm hc, fun more => rfl⟩

/-- An escape of digits. -/
theorem escape_digits {digits : List Char} {d : Char}
    (hdigits : ∀ c ∈ digits, (hexDigit? c).isSome = true)
    (h : ∀ more, escape? ('u' :: (digits ++ more)) = some (d, digits.length + 1)) :
    Escape ('u' :: digits) d := by
  refine ⟨h, ?_, fun more => ?_⟩
  · intro hmem
    rcases List.mem_cons.mp hmem with hu | hmem
    · exact absurd hu (by decide)
    · exact (ne_of_hexDigit? (hdigits _ hmem)).2.2 rfl
  · rw [List.cons_append, Links.Json.untilQuote?, untilQuote?_digits hdigits, Option.map_map]
    rfl

/-- An escape of digits, two times. -/
theorem escape_pair {digits digits' : List Char} {d : Char}
    (hdigits : ∀ c ∈ digits, (hexDigit? c).isSome = true)
    (hdigits' : ∀ c ∈ digits', (hexDigit? c).isSome = true)
    (h : ∀ more, escape? ('u' :: (digits ++ '\\' :: 'u' :: (digits' ++ more))) =
      some (d, digits.length + digits'.length + 3)) :
    Escape ('u' :: (digits ++ '\\' :: 'u' :: digits')) d := by
  refine ⟨fun more => ?_, ?_, fun more => ?_⟩
  · have hlength : ('u' :: (digits ++ '\\' :: 'u' :: digits')).length =
        digits.length + digits'.length + 3 := by
      simp only [List.length_cons, List.length_append]
      omega
    rw [hlength, ← h more]
    simp
  · have hno : ∀ ds : List Char, (∀ c ∈ ds, (hexDigit? c).isSome = true) → '\n' ∉ ds :=
      fun ds hds hmem => (ne_of_hexDigit? (hds _ hmem)).2.2 rfl
    simp [hno _ hdigits, hno _ hdigits']
  · rw [List.cons_append, Links.Json.untilQuote?, List.append_assoc, untilQuote?_digits hdigits,
      List.cons_append, List.cons_append, Links.Json.untilQuote?, untilQuote?_digits hdigits',
      Option.map_map, Option.map_map, Option.map_map]
    congr 1
    funext raw
    simp

/-- What an escape looks at is what it takes. -/
theorem exists_escape {d : Char} {n : Nat} (h : escape? cs = some (d, n)) :
    ∃ esc more, cs = esc ++ more ∧ esc.length = n ∧ Escape esc d := by
  have hsingle : ∀ (c : Char) (more : List Char) (d' : Char), c ≠ '\n' →
      (∀ more, escape? (c :: more) = some (d', 1)) → some (d', 1) = some (d, n) →
      ∃ esc rest, c :: more = esc ++ rest ∧ esc.length = n ∧ Escape esc d := by
    intro c more d' hbreak hc he
    obtain ⟨rfl, rfl⟩ := Prod.mk.inj (Option.some.inj he)
    exact ⟨[c], more, rfl, rfl, escape_single hbreak hc⟩
  unfold escape? at h
  split at h
  case h_9 a b c e rest =>
    obtain ⟨m, hm, h⟩ := Option.bind_eq_some_iff.mp h
    have hdigits := hexDigit?_of_hexNumber? hm rfl
    split at h
    · exact absurd h (by simp)
    · rename_i hlow
      split at h
      · rename_i hhigh
        split at h
        · rename_i f g i j tail _
          obtain ⟨k, hk, h⟩ := Option.bind_eq_some_iff.mp h
          have hmore := hexDigit?_of_hexNumber? hk rfl
          split at h
          · rename_i hpair
            obtain ⟨rfl, rfl⟩ := Prod.mk.inj (Option.some.inj h)
            refine ⟨_, tail, rfl, rfl, escape_pair hdigits hmore fun more => ?_⟩
            simp [escape?, hm, hlow, hhigh, hk, hpair]
          · exact absurd h (by simp)
        · exact absurd h (by simp)
      · rename_i hhigh
        obtain ⟨rfl, rfl⟩ := Prod.mk.inj (Option.some.inj h)
        refine ⟨_, rest, rfl, rfl, escape_digits hdigits fun more => ?_⟩
        simp [escape?, hm, hlow, hhigh]
  case h_10 => exact absurd h (by simp)
  all_goals exact hsingle _ _ _ (by decide) (fun _ => rfl) h

/-! ## Strings -/

theorem readString_skip (esc raw decoded cs : List Char) :
    readString esc.length raw decoded (esc ++ cs) = readString 0 (esc.reverse ++ raw) decoded cs := by
  induction esc generalizing raw with
  | nil => rfl
  | cons c esc ih =>
      rw [List.length_cons, List.cons_append, readString, ih, List.reverse_cons, List.append_assoc]
      rfl

/-- What spells a text is read as that text, up to the quote. -/
theorem Spelt.readString (h : Spelt raw decoded) (before done rest : List Char) :
    readString 0 before done (raw ++ '"' :: rest) =
      some (before.reverse ++ raw, done.reverse ++ decoded, rest) := by
  induction h generalizing before done with
  | nil => simp [Json.readString]
  | plain hquote hescape hprinted _ ih =>
      rw [List.cons_append, Json.readString, if_neg hquote, if_neg hescape, if_neg hprinted, ih]
      simp
  | @escape esc d raw decoded he _ ih =>
      rw [List.cons_append, Json.readString, if_neg (by decide), if_pos rfl, List.append_assoc,
        he.reads]
      dsimp only
      rw [readString_skip, ih]
      simp

/-- What is read up to a quote spells the text that it is read as. -/
theorem spelt_of_readString {before done raw' decoded' : List Char}
    (h : readString 0 before done cs = some (raw', decoded', rest)) :
    ∃ raw decoded, Spelt raw decoded ∧ cs = raw ++ '"' :: rest ∧
      raw' = before.reverse ++ raw ∧ decoded' = done.reverse ++ decoded := by
  -- an escape takes several characters at once
  induction hn : cs.length using Nat.strongRecOn generalizing cs before done with
  | ind n ih =>
      cases cs with
      | nil => exact absurd h (by simp [readString])
      | cons c cs =>
          rw [readString] at h
          split at h
          · rename_i hc
            simp only [Option.some.injEq, Prod.mk.injEq] at h
            obtain ⟨rfl, rfl, rfl⟩ := h
            exact ⟨[], [], .nil, by rw [hc]; rfl, by simp, by simp⟩
          · rename_i hquote
            split at h
            · rename_i hc
              subst hc
              split at h
              · rename_i d k he
                obtain ⟨esc, more, rfl, rfl, hesc⟩ := exists_escape he
                rw [readString_skip] at h
                obtain ⟨raw, decoded, hspelt, rfl, rfl, rfl⟩ :=
                  ih more.length (by simp only [List.length_cons, List.length_append] at hn; omega)
                    h rfl
                exact ⟨'\\' :: (esc ++ raw), d :: decoded, .escape hesc hspelt, by simp, by simp,
                  by simp⟩
              · exact absurd h (by simp)
            · rename_i hescape
              split at h
              · exact absurd h (by simp)
              · rename_i hprinted
                obtain ⟨raw, decoded, hspelt, rfl, rfl, rfl⟩ :=
                  ih cs.length (by simp only [List.length_cons] at hn; omega) h rfl
                exact ⟨c :: raw, c :: decoded, .plain hquote hescape hprinted hspelt, rfl, by simp,
                  by simp⟩

/-- A string ends no line. -/
theorem Spelt.unbroken (h : Spelt raw decoded) : '\n' ∉ raw := by
  induction h with
  | nil => simp
  | plain _ _ hprinted _ ih =>
      rw [List.mem_cons, not_or]
      refine ⟨?_, ih⟩
      rintro rfl
      exact hprinted (by decide)
  | escape he _ ih =>
      simp [he.unbroken, ih]

/-- Who looks for the closing quote finds the one that ends the string. -/
theorem Spelt.untilQuote? (h : Spelt raw decoded) (rest : List Char) :
    Links.Json.untilQuote? (raw ++ '"' :: rest) = some raw := by
  induction h with
  | nil => rfl
  | plain hquote hescape _ _ ih =>
      rw [List.cons_append, untilQuote?_cons hquote hescape, ih]
      rfl
  | escape he _ ih =>
      rw [List.cons_append, List.append_assoc, he.passed, ih]
      rfl

/-- A literal is a string with its quotes, and the place is counted on past them. -/
theorem literal?_eq_some {offset next : Nat} {l : Literal} :
    literal? offset cs = some (l, next, rest) ↔ Spelt l.raw l.decoded ∧
      cs = l.raw ++ '"' :: rest ∧ l.start = offset ∧ next = offset + width l.raw + 1 := by
  rw [literal?, Option.map_eq_some_iff]
  constructor
  · rintro ⟨⟨raw, decoded, after⟩, hread, hpair⟩
    simp only [Prod.mk.injEq] at hpair
    obtain ⟨rfl, rfl, rfl⟩ := hpair
    obtain ⟨raw', decoded', hspelt, rfl, rfl, rfl⟩ := spelt_of_readString hread
    exact ⟨hspelt, rfl, rfl, rfl⟩
  · rintro ⟨hspelt, rfl, rfl, rfl⟩
    exact ⟨_, hspelt.readString [] [] rest, rfl⟩

/-- Both readers read one literal. -/
theorem readLiteral?_of_spelt {l : Literal} (h : Spelt l.raw l.decoded) (rest : List Char) :
    Links.Json.readLiteral? l.start (l.raw ++ '"' :: rest) = some l := by
  rw [Links.Json.readLiteral?, h.untilQuote?]
  have hread := h.readString [] [] []
  rw [List.reverse_nil, List.nil_append, List.nil_append] at hread
  simp [hread]

/-! ## Strings with doubled backslashes -/

/-- A text with its backslashes doubled. -/
def doubled (cs : List Char) : List Char := replaceChar '\\' ['\\', '\\'] cs

/-- A character that stands between quotes without an escape, unless it is a backslash. -/
def IsPrinted (c : Char) : Prop := c ≠ '"' ∧ ¬ c.toNat < 0x20

instance : DecidablePred IsPrinted := fun c => inferInstanceAs (Decidable (c ≠ '"' ∧ ¬ c.toNat < 0x20))

/--
A text with its backslashes doubled stands for that text and for no other, unless the text holds
something that only an escape can mean.
-/
theorem spelt_doubled_iff {single meant : List Char} :
    Spelt (doubled single) meant ↔ meant = single ∧ ∀ c ∈ single, IsPrinted c := by
  induction single generalizing meant with
  | nil =>
      constructor
      · intro h
        cases h
        simp
      · rintro ⟨rfl, -⟩
        exact .nil
  | cons c cs ih =>
      have hcons : doubled (c :: cs) = (if c = '\\' then ['\\', '\\'] else [c]) ++ doubled cs := rfl
      rw [hcons, List.forall_mem_cons]
      by_cases hc : c = '\\'
      · subst hc
        rw [if_pos rfl]
        constructor
        · generalize hraw : ['\\', '\\'] ++ doubled cs = raw
          intro h
          cases h with
          | nil => simp at hraw
          | plain hquote hescape => exact absurd (List.cons_eq_cons.mp hraw).1.symm hescape
          | @escape esc d raw decoded he h =>
              -- the escape that begins with a backslash has no more to it
              have hbehind := (List.cons_eq_cons.mp hraw).2
              obtain ⟨hd, hlength⟩ : '\\' = d ∧ 1 = esc.length := by
                simpa [← hbehind, escape?] using he.reads raw
              obtain ⟨a, rfl⟩ := List.length_eq_one_iff.mp hlength.symm
              have hrest : doubled cs = raw := (List.cons_eq_cons.mp hbehind).2
              obtain ⟨rfl, hprinted⟩ := ih.mp (hrest ▸ h)
              exact ⟨by rw [hd], ⟨by decide, by decide⟩, hprinted⟩
        · rintro ⟨rfl, -, hprinted⟩
          exact .escape (escape_single (by decide) fun _ => rfl) (ih.mpr ⟨rfl, hprinted⟩)
      · rw [if_neg hc]
        constructor
        · generalize hraw : [c] ++ doubled cs = raw
          intro h
          cases h with
          | nil => simp at hraw
          | plain hquote hescape hprinted h =>
              obtain ⟨rfl, rfl⟩ := List.cons_eq_cons.mp hraw
              obtain ⟨rfl, hrest⟩ := ih.mp h
              exact ⟨rfl, ⟨hquote, hprinted⟩, hrest⟩
          | escape he h => exact absurd (List.cons_eq_cons.mp hraw).1 hc
        · rintro ⟨rfl, ⟨hquote, hprinted⟩, hrest⟩
          exact .plain hquote hc hprinted (ih.mpr ⟨rfl, hrest⟩)

theorem doubled_append (as bs : List Char) : doubled (as ++ bs) = doubled as ++ doubled bs :=
  List.flatMap_append

theorem doubled_of_not_mem {cs : List Char} (h : '\\' ∉ cs) : doubled cs = cs := by
  refine (List.flatMap_congr fun c hc => ?_).trans (List.flatMap_singleton' cs)
  rw [if_neg]
  exact fun he => h (he ▸ hc)

theorem mem_doubled {cs : List Char} {c : Char} : c ∈ doubled cs ↔ c ∈ cs := by
  rw [doubled, replaceChar, List.mem_flatMap]
  constructor
  · rintro ⟨d, hd, hc⟩
    split at hc
    · rename_i hback
      have hc : c = '\\' := by simpa using hc
      rwa [hc, ← hback]
    · exact List.mem_singleton.mp hc ▸ hd
  · intro hc
    refine ⟨c, hc, ?_⟩
    split
    · rename_i he
      exact he ▸ List.mem_cons_self
    · exact List.mem_singleton_self c

/-- An escape is longer than what it stands for. -/
theorem Spelt.length_le (h : Spelt raw decoded) :
    decoded.length ≤ raw.length ∧ ('\\' ∈ raw → decoded.length < raw.length) := by
  induction h with
  | nil => simp
  | plain _ hescape _ _ ih =>
      refine ⟨Nat.succ_le_succ ih.1, fun hmem => Nat.succ_lt_succ (ih.2 ?_)⟩
      exact (List.mem_cons.mp hmem).resolve_left (Ne.symm hescape)
  | @escape esc d raw decoded he _ ih =>
      have hne : esc ≠ [] := by
        rintro rfl
        exact absurd (he.reads []) (by simp [escape?])
      have hpos := List.length_pos_of_ne_nil hne
      have hle := ih.1
      simp only [List.length_cons, List.length_append]
      exact ⟨by omega, fun _ => by omega⟩

/-- A string that can be written back has each of its backslashes doubled. -/
theorem raw_eq_doubled {l : Literal} (h : Spelt l.raw l.decoded)
    (hwritable : Links.Json.isWritable l = true) : l.raw = doubled l.decoded := by
  rw [Links.Json.isWritable, Bool.or_eq_true, beq_iff_eq, beq_iff_eq] at hwritable
  rcases hwritable with hsame | hdoubled
  · have hnone : '\\' ∉ l.decoded := fun hmem => by
      have hlt := h.length_le.2 (hsame ▸ hmem)
      rw [hsame] at hlt
      exact Nat.lt_irrefl _ hlt
    rw [hsame, doubled_of_not_mem hnone]
  · exact hdoubled

/-- Where a text with doubled backslashes is parted at a hash, so is the text itself. -/
theorem exists_append_of_doubled {cs front rest : List Char} (h : doubled cs = front ++ rest)
    (hfront : '#' ∉ front) (hrest : rest = [] ∨ ∃ more, rest = '#' :: more) :
    ∃ old tail, cs = old ++ tail ∧ doubled old = front ∧ doubled tail = rest := by
  rcases hrest with rfl | ⟨more, rfl⟩
  · exact ⟨cs, [], by simp, by simpa using h, rfl⟩
  · cases hsplit : splitFirst? '#' cs with
    | none =>
        refine absurd ?_ (splitFirst?_eq_none.mp hsplit)
        exact mem_doubled.mp (h ▸ by simp)
    | some parts =>
        obtain ⟨old, behind⟩ := parts
        obtain rfl := append_of_splitFirst? hsplit
        have hcons : doubled ('#' :: behind) = '#' :: doubled behind := rfl
        have hold : '#' ∉ doubled old := mt mem_doubled.mp (not_mem_of_splitFirst? hsplit)
        have hparts := splitFirst?_append_cons hold (doubled behind)
        rw [← hcons, ← doubled_append, h, splitFirst?_append_cons hfront] at hparts
        obtain ⟨rfl, rfl⟩ := Prod.mk.inj (Option.some.inj hparts)
        exact ⟨old, '#' :: behind, rfl, rfl, hcons⟩

theorem contains_doubled {cs : List Char} (h : '\\' ∈ cs) :
    Text.contains ['\\', '\\'] (doubled cs) = true := by
  obtain ⟨front, back, rfl⟩ := List.append_of_mem h
  exact contains_iff.mpr ⟨doubled front, doubled back, by simp [doubled, replaceChar]⟩

end LinkKeeper.Json
