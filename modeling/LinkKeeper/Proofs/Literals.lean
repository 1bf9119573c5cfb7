import LinkKeeper.Proofs.Documents

/-!
# Where the strings of a document stand

The reader of documents counts bytes as it goes, and gives each string the byte where its
content starts. Here it is shown, rule by rule, that the count is right: what it takes for
the content of a string stands there, between two quotes, and the strings, keys included,
come in the order of the text, each with its quotes behind the one before it. Nothing is
said of what the strings mean.
-/

namespace LinkKeeper.Json

open Text

/-- A string of a text starts where it says, between quotes. -/
def Literal.StandsIn (content : List Char) (l : Literal) : Prop :=
  ∃ front back, content = front ++ '"' :: (l.raw ++ '"' :: back) ∧ l.start = width front + 1

/-- The byte of the closing quote. -/
def Literal.stop (l : Literal) : Nat := l.start + width l.raw

/-- What a string is in a document: the key of a member, or a value that a key governs. -/
inductive Role where
  | key
  | value (governing : Option (List Char))

namespace Value

mutual

/-- All strings of a value in the order of the text, keys included, each with what it is. -/
def literals (key : Option (List Char)) : Value → List (Role × Literal)
  | .text l => [(.value key, l)]
  | .list items => literalsOfItems key items
  | .object members => literalsOfMembers members
  | .scalar => []

/-- The strings of the items of a list, keys included. -/
def literalsOfItems (key : Option (List Char)) : List Value → List (Role × Literal)
  | [] => []
  | item :: items => literals key item ++ literalsOfItems key items

/-- The strings of the members of an object, keys included. -/
def literalsOfMembers : List (Literal × Value) → List (Role × Literal)
  | [] => []
  | (key, value) :: members =>
      (.key, key) :: (literals (some key.decoded) value ++ literalsOfMembers members)

end

end Value

/-- A string that is a value, with the key that governs it. -/
def Role.governed? : Role × Literal → Option Value.Governed
  | (.key, _) => none
  | (.value governing, l) => some (governing, l)

mutual

/-- **The strings of a value** are those that are no keys. -/
theorem Value.strings_eq (key : Option (List Char)) (v : Value) :
    v.strings key = (v.literals key).filterMap Role.governed? := by
  cases v with
  | text l => rfl
  | list items => exact strings_eq_items key items
  | object members => exact strings_eq_members members
  | scalar => rfl

theorem Value.strings_eq_items (key : Option (List Char)) (items : List Value) :
    stringsOfItems key items = (literalsOfItems key items).filterMap Role.governed? := by
  cases items with
  | nil => rfl
  | cons item items =>
      rw [stringsOfItems, literalsOfItems, List.filterMap_append, strings_eq key item,
        strings_eq_items key items]

theorem Value.strings_eq_members (members : List (Literal × Value)) :
    stringsOfMembers members = (literalsOfMembers members).filterMap Role.governed? := by
  cases members with
  | nil => rfl
  | cons member members =>
      obtain ⟨key, value⟩ := member
      rw [stringsOfMembers, literalsOfMembers, List.filterMap_cons, List.filterMap_append,
        strings_eq _ value, strings_eq_members members]
      rfl

end

variable {content cs rest : List Char} {offset start mid stop next : Nat}

/-! ## The count -/

/-- The rest of a text behind so many bytes. -/
def At (content : List Char) (offset : Nat) (rest : List Char) : Prop :=
  ∃ done, content = done ++ rest ∧ offset = width done

theorem At.skip (front : List Char) (h : At content offset (front ++ rest)) :
    At content (offset + width front) rest := by
  obtain ⟨done, rfl, rfl⟩ := h
  exact ⟨done ++ front, by simp, by simp⟩

/-- One more byte, when the next character takes one. -/
theorem At.byte {c : Char} (h : At content offset (c :: rest)) (hc : c.utf8Size = 1) :
    At content (offset + 1) rest := by
  have hskip := At.skip [c] h
  simpa [hc] using hskip

/-- Characters of one byte each are as wide as they are many. -/
theorem width_of_narrow {row : List Char} (h : ∀ c ∈ row, c.utf8Size = 1) :
    width row = row.length := by
  induction row with
  | nil => rfl
  | cons c row ih =>
      rw [width_cons, ih fun d hd => h d (by simp [hd]), h c (by simp), List.length_cons,
        Nat.add_comm]

theorem utf8Size_of_isSpace {c : Char} (h : isSpace c = true) : c.utf8Size = 1 := by
  simp only [isSpace, Bool.or_eq_true, beq_iff_eq] at h
  rcases h with ((rfl | rfl) | rfl) | rfl <;> decide

theorem At.skipSpace (h : At content offset cs) (hs : skipSpace offset cs = (next, rest)) :
    At content next rest ∧ offset ≤ next := by
  obtain ⟨blanks, rfl, hblanks, -, rfl⟩ := skipSpace_eq_iff.mp hs
  have hskip := h.skip blanks
  rw [width_of_narrow fun c hc => utf8Size_of_isSpace (hblanks c hc)] at hskip
  exact ⟨hskip, by omega⟩

theorem At.scalar? (h : At content offset cs) (hw : scalar? cs = some rest) :
    At content (offset + (cs.length - rest.length)) rest := by
  obtain ⟨front, -, rfl, hchars, -⟩ := takes_scalar? hw
  have hskip := h.skip front
  rw [width_of_narrow fun c hc => utf8Size_of_isScalarChar (hchars c hc)] at hskip
  rwa [List.length_append, Nat.add_sub_cancel]

/-! ## Strings that come one behind the other -/

/-- Strings of a text between two offsets, each with its quotes behind the one before it. -/
structure InOrder (content : List Char) (start stop : Nat) (found : List (Role × Literal)) :
    Prop where
  apart : found.Pairwise fun a b => a.2.stop + 1 < b.2.start
  within : ∀ a ∈ found, start < a.2.start ∧ a.2.stop < stop
  stands : ∀ a ∈ found, a.2.StandsIn content
  spelt : ∀ a ∈ found, Spelt a.2.raw a.2.decoded

theorem InOrder.nil (content : List Char) (start stop : Nat) : InOrder content start stop [] :=
  ⟨.nil, by simp, by simp, by simp⟩

theorem InOrder.mono {found : List (Role × Literal)} {less more : Nat}
    (h : InOrder content start stop found) (hless : less ≤ start) (hmore : stop ≤ more) :
    InOrder content less more found := by
  refine ⟨h.apart, fun a ha => ?_, h.stands, h.spelt⟩
  have := h.within a ha
  omega

theorem InOrder.append {before after : List (Role × Literal)}
    (hbefore : InOrder content start mid before) (hafter : InOrder content mid stop after)
    (hstart : start ≤ mid) (hstop : mid ≤ stop) :
    InOrder content start stop (before ++ after) := by
  refine ⟨List.pairwise_append.mpr ⟨hbefore.apart, hafter.apart, fun a ha b hb => ?_⟩,
    fun a ha => ?_, fun a ha => ?_, fun a ha => ?_⟩
  · have := hbefore.within a ha
    have := hafter.within b hb
    omega
  · rcases List.mem_append.mp ha with ha | ha
    · have := hbefore.within a ha
      omega
    · have := hafter.within a ha
      omega
  · rcases List.mem_append.mp ha with ha | ha
    · exact hbefore.stands a ha
    · exact hafter.stands a ha
  · rcases List.mem_append.mp ha with ha | ha
    · exact hbefore.spelt a ha
    · exact hafter.spelt a ha

/-- One string, with its quotes. -/
theorem At.literal? (h : At content offset ('"' :: cs)) {l : Literal}
    (hl : literal? (offset + 1) cs = some (l, next, rest)) (role : Role) :
    At content next rest ∧ offset ≤ next ∧ InOrder content offset next [(role, l)] := by
  obtain ⟨hspelt, rfl, hstart, rfl⟩ := literal?_eq_some.mp hl
  have hquote : '"'.utf8Size = 1 := by decide
  refine ⟨?_, by omega, List.pairwise_singleton _ _, ?_, ?_, ?_⟩
  · have hrest := ((h.byte (by decide)).skip l.raw).byte (by decide)
    rwa [Nat.add_right_comm] at hrest ⊢
  · intro a ha
    rw [List.mem_singleton.mp ha, Literal.stop]
    dsimp only
    omega
  · intro a ha
    rw [List.mem_singleton.mp ha]
    obtain ⟨done, rfl, rfl⟩ := h
    exact ⟨done, rest, rfl, hstart⟩
  · intro a ha
    rw [List.mem_singleton.mp ha]
    exact hspelt

/-! ## Documents -/

/--
**The strings of a part of a document** come one behind the other between the place where it
begins and the place behind it.
-/
theorem Reading.inOrder {part : Part} {depth : Nat} {v : Value}
    (h : Reading part depth offset cs v next rest) (hat : At content offset cs) :
    At content next rest ∧ offset ≤ next ∧ ∀ key, InOrder content offset next (v.literals key) := by
  induction h with
  | text hs hl =>
      obtain ⟨hplace, hle⟩ := hat.skipSpace hs
      obtain ⟨hrest, hnext, hone⟩ := hplace.literal? hl (.value none)
      refine ⟨hrest, by omega, fun key => ?_⟩
      obtain ⟨-, -, hone⟩ := hplace.literal? hl (.value key)
      exact hone.mono hle (Nat.le_refl _)
  | scalar hs hw =>
      obtain ⟨hplace, hle⟩ := hat.skipSpace hs
      exact ⟨hplace.scalar? hw, by omega, fun key => .nil _ _ _⟩
  | noItems hs he =>
      obtain ⟨hplace, hle⟩ := hat.skipSpace hs
      obtain ⟨hclose, hle'⟩ := (hplace.byte (by decide)).skipSpace he
      exact ⟨hclose.byte (by decide), by omega, fun key => .nil _ _ _⟩
  | list hs hf _ _ ih =>
      obtain ⟨hplace, hle⟩ := hat.skipSpace hs
      obtain ⟨hfirst, hle'⟩ := (hplace.byte (by decide)).skipSpace hf
      obtain ⟨hrest, hnext, hitems⟩ := ih hfirst
      exact ⟨hrest, by omega, fun key => (hitems key).mono (by omega) (Nat.le_refl _)⟩
  | noMembers hs he =>
      obtain ⟨hplace, hle⟩ := hat.skipSpace hs
      obtain ⟨hclose, hle'⟩ := (hplace.byte (by decide)).skipSpace he
      exact ⟨hclose.byte (by decide), by omega, fun key => .nil _ _ _⟩
  | object hs hf _ _ ih =>
      obtain ⟨hplace, hle⟩ := hat.skipSpace hs
      obtain ⟨hfirst, hle'⟩ := (hplace.byte (by decide)).skipSpace hf
      obtain ⟨hrest, hnext, hmembers⟩ := ih hfirst
      exact ⟨hrest, by omega, fun key => (hmembers key).mono (by omega) (Nat.le_refl _)⟩
  | lastItem _ he ih =>
      obtain ⟨hbehind, hmid, hitem⟩ := ih hat
      obtain ⟨hclose, hle⟩ := hbehind.skipSpace he
      refine ⟨hclose.byte (by decide), by omega, fun key => ?_⟩
      rw [Value.literals, Value.literalsOfItems, Value.literalsOfItems, List.append_nil]
      exact (hitem key).mono (Nat.le_refl _) (by omega)
  | item _ hc _ ih ihm =>
      obtain ⟨hbehind, hmid, hitem⟩ := ih hat
      obtain ⟨hcomma, hle⟩ := hbehind.skipSpace hc
      obtain ⟨hrest, hnext, hitems⟩ := ihm (hcomma.byte (by decide))
      refine ⟨hrest, by omega, fun key => ?_⟩
      have hmore := hitems key
      rw [Value.literals] at hmore
      rw [Value.literals, Value.literalsOfItems]
      exact (hitem key).append (hmore.mono (by omega) (Nat.le_refl _)) hmid (by omega)
  | lastMember hs hk hd _ he ih =>
      obtain ⟨hplace, hle⟩ := hat.skipSpace hs
      obtain ⟨hbehind, hmid, hkey⟩ := hplace.literal? hk .key
      obtain ⟨hcolon, hle'⟩ := hbehind.skipSpace hd
      obtain ⟨hleft, hafter, hvalue⟩ := ih (hcolon.byte (by decide))
      obtain ⟨hclose, hle''⟩ := hleft.skipSpace he
      refine ⟨hclose.byte (by decide), by omega, fun key => ?_⟩
      rw [Value.literals, Value.literalsOfMembers, Value.literalsOfMembers, List.append_nil]
      exact (hkey.mono hle (Nat.le_refl _)).append ((hvalue _).mono (by omega) (by omega))
        (by omega) (by omega)
  | member hs hk hd _ hc _ ih ihm =>
      obtain ⟨hplace, hle⟩ := hat.skipSpace hs
      obtain ⟨hbehind, hmid, hkey⟩ := hplace.literal? hk .key
      obtain ⟨hcolon, hle'⟩ := hbehind.skipSpace hd
      obtain ⟨hleft, hafter, hvalue⟩ := ih (hcolon.byte (by decide))
      obtain ⟨hcomma, hle''⟩ := hleft.skipSpace hc
      obtain ⟨hrest, hnext, hmembers⟩ := ihm (hcomma.byte (by decide))
      refine ⟨hrest, by omega, fun key => ?_⟩
      have hmore := hmembers key
      rw [Value.literals] at hmore
      rw [Value.literals, Value.literalsOfMembers]
      refine (hkey.mono hle (Nat.le_refl _)).append (InOrder.mono
        ((hvalue _).append (hmore.mono ?_ (Nat.le_refl _)) hafter ?_) ?_ (Nat.le_refl _)) ?_ ?_
      all_goals omega

/-- **The strings of a document**, keys included, stand where they say, one behind the other. -/
theorem inOrder_of_parse? {v : Value} (h : parse? content = some v) (key : Option (List Char)) :
    ∃ stop, InOrder content 0 stop (v.literals key) := by
  obtain ⟨next, rest, hread, -⟩ := parse?_eq_some.mp h
  obtain ⟨-, -, horder⟩ := hread.inOrder ⟨[], rfl, rfl⟩
  exact ⟨next, horder key⟩

/-- A string that is a value is one of all strings. -/
theorem Value.mem_literals_of_mem_strings {v : Value} {key : Option (List Char)} {g : Governed}
    (hg : g ∈ v.strings key) : (.value g.1, g.2) ∈ v.literals key := by
  rw [strings_eq] at hg
  obtain ⟨⟨role, l⟩, hmem, heq⟩ := List.mem_filterMap.mp hg
  cases role with
  | key => exact absurd heq (by simp [Role.governed?])
  | value governing =>
      obtain rfl := Option.some.inj heq
      exact hmem

/-- **Every string of a document stands where it says.** -/
theorem standsIn_of_parse? {v : Value} (h : parse? content = some v) {key : Option (List Char)}
    {g : Value.Governed} (hg : g ∈ v.strings key) : g.2.StandsIn content := by
  obtain ⟨stop, horder⟩ := inOrder_of_parse? h key
  exact horder.stands _ (Value.mem_literals_of_mem_strings hg)

/-- **The strings of a document come in the order of the text.** -/
theorem pairwise_strings_of_parse? {v : Value} (h : parse? content = some v)
    (key : Option (List Char)) :
    (v.strings key).Pairwise fun g h => g.2.start < h.2.start := by
  obtain ⟨stop, horder⟩ := inOrder_of_parse? h key
  rw [Value.strings_eq, List.pairwise_filterMap]
  refine horder.apart.imp fun {a b} hab g hg h hh => ?_
  have hstart : ∀ {a : Role × Literal} {g : Value.Governed}, Role.governed? a = some g →
      g.2 = a.2 := by
    rintro ⟨role, l⟩ g hg
    cases role with
    | key => exact absurd hg (by simp [Role.governed?])
    | value governing => rw [← Option.some.inj hg]
  rw [hstart hg, hstart hh]
  have hstop : a.2.stop = a.2.start + width a.2.raw := rfl
  omega

end LinkKeeper.Json
