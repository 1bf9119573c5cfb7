import LinkKeeper.Proofs.Literals
import Mathlib.Data.List.Forall2

/-!
# Two documents read side by side

Two readers that go down two texts stay abreast when they pass over blanks together, find
the same signs and words, and read a string where the other one reads one. This is said
of each kind of token alone. Then any part of the first text is a part of the second as
well, rule by rule, and the strings that are read come in pairs.
-/

namespace LinkKeeper.Json

open Text

/-- A sign between the strings and the words of a document. -/
def isSign (c : Char) : Bool :=
  c == '[' || c == ']' || c == '\x7b' || c == '\x7d' || c == ',' || c == ':'

theorem eq_of_isSign {c : Char} (h : isSign c = true) :
    c = '[' ∨ c = ']' ∨ c = '\x7b' ∨ c = '\x7d' ∨ c = ',' ∨ c = ':' := by
  simpa [isSign, or_assoc] using h

theorem utf8Size_of_isSign {c : Char} (h : isSign c = true) : c.utf8Size = 1 := by
  rcases eq_of_isSign h with rfl | rfl | rfl | rfl | rfl | rfl <;> decide

/-- Strings in pairs: each has its part still, and this has become of it. -/
def Paired (Becomes : Role → Literal → Literal → Prop) (as bs : List (Role × Literal)) : Prop :=
  List.Forall₂ (fun a b => b.1 = a.1 ∧ Becomes a.1 a.2 b.2) as bs

/--
Two readers stay abreast. `Twin` says where one is, and what is left for it, while the other is
there, with this left. Strings of the first text that are `Clear` become strings of the second.
-/
structure SideBySide (Twin : Nat → List Char → Nat → List Char → Prop) (Clear : Role × Literal → Prop)
    (Becomes : Role → Literal → Literal → Prop) : Prop where
  skipSpace {offset place offset' : Nat} {cs rest cs' : List Char} :
    Twin offset cs offset' cs' → skipSpace offset cs = (place, rest) →
      ∃ place' rest', Json.skipSpace offset' cs' = (place', rest') ∧ Twin place rest place' rest'
  sign {offset offset' : Nat} {c : Char} {rest cs' : List Char} :
    Twin offset (c :: rest) offset' cs' → isSign c = true →
      ∃ rest', cs' = c :: rest' ∧ Twin (offset + 1) rest (offset' + 1) rest'
  /-- The second reader sees no sign that the first one does not see. -/
  head?_ne {offset offset' : Nat} {c : Char} {cs cs' : List Char} :
    Twin offset cs offset' cs' → isSign c = true → cs.head? ≠ some c → cs'.head? ≠ some c
  scalar? {offset offset' : Nat} {cs rest cs' : List Char} :
    Twin offset cs offset' cs' → scalar? cs = some rest →
      ∃ rest', Json.scalar? cs' = some rest' ∧ Twin (offset + (cs.length - rest.length)) rest
        (offset' + (cs'.length - rest'.length)) rest'
  literal? {offset next offset' : Nat} {inside rest cs' : List Char} {l : Literal} {role : Role} :
    Twin offset ('"' :: inside) offset' cs' → literal? (offset + 1) inside = some (l, next, rest) →
      Clear (role, l) → ∃ inside' l' next' rest', cs' = '"' :: inside' ∧
        Json.literal? (offset' + 1) inside' = some (l', next', rest') ∧
        Twin next rest next' rest' ∧ Becomes role l l'
  /-- A key means what it meant. -/
  key {l l' : Literal} : Becomes .key l l' → l'.decoded = l.decoded

variable {Twin : Nat → List Char → Nat → List Char → Prop} {Clear : Role × Literal → Prop}
  {Becomes : Role → Literal → Literal → Prop} {depth offset next offset' : Nat}
  {cs rest cs' : List Char} {v : Value}

/-- **Any part of a document is read side by side**, rule by rule. -/
theorem SideBySide.exists_reading (a : SideBySide Twin Clear Becomes) {part : Part}
    (h : Reading part depth offset cs v next rest) (htwin : Twin offset cs offset' cs')
    (key : Option (List Char)) (hclear : ∀ l ∈ v.literals key, Clear l) :
    ∃ v' next' rest', Reading part depth offset' cs' v' next' rest' ∧ Twin next rest next' rest' ∧
      Paired Becomes (v.literals key) (v'.literals key) := by
  induction h generalizing offset' cs' key with
  | text hs hl =>
      obtain ⟨place', word', hs', hplace⟩ := a.skipSpace htwin hs
      obtain ⟨inside', l', next', rest', rfl, hl', hrest, hbecomes⟩ := a.literal? hplace hl
        (hclear (.value key, _) (by simp [Value.literals]))
      exact ⟨_, next', rest', .text hs' hl', hrest, .cons ⟨rfl, hbecomes⟩ .nil⟩
  | scalar hs hw =>
      obtain ⟨place', word', hs', hplace⟩ := a.skipSpace htwin hs
      obtain ⟨rest', hw', hrest⟩ := a.scalar? hplace hw
      exact ⟨_, _, rest', .scalar hs' hw', hrest, .nil⟩
  | noItems hs he =>
      obtain ⟨place', word', hs', hplace⟩ := a.skipSpace htwin hs
      obtain ⟨inside', rfl, hinside⟩ := a.sign hplace (by decide)
      obtain ⟨stop', end', he', hstop⟩ := a.skipSpace hinside he
      obtain ⟨rest', rfl, hrest⟩ := a.sign hstop (by decide)
      exact ⟨_, _, rest', .noItems hs' he', hrest, .nil⟩
  | list hs hf hne h ih =>
      obtain ⟨place', word', hs', hplace⟩ := a.skipSpace htwin hs
      obtain ⟨inside', rfl, hinside⟩ := a.sign hplace (by decide)
      obtain ⟨first', within', hf', hfirst⟩ := a.skipSpace hinside hf
      obtain ⟨v', next', rest', hread, hrest, hpaired⟩ := ih hfirst key hclear
      exact ⟨v', next', rest', .list hs' hf' (a.head?_ne hfirst (by decide) hne) hread, hrest, hpaired⟩
  | noMembers hs he =>
      obtain ⟨place', word', hs', hplace⟩ := a.skipSpace htwin hs
      obtain ⟨inside', rfl, hinside⟩ := a.sign hplace (by decide)
      obtain ⟨stop', end', he', hstop⟩ := a.skipSpace hinside he
      obtain ⟨rest', rfl, hrest⟩ := a.sign hstop (by decide)
      exact ⟨_, _, rest', .noMembers hs' he', hrest, .nil⟩
  | object hs hf hne h ih =>
      obtain ⟨place', word', hs', hplace⟩ := a.skipSpace htwin hs
      obtain ⟨inside', rfl, hinside⟩ := a.sign hplace (by decide)
      obtain ⟨first', within', hf', hfirst⟩ := a.skipSpace hinside hf
      obtain ⟨v', next', rest', hread, hrest, hpaired⟩ := ih hfirst key hclear
      exact ⟨v', next', rest', .object hs' hf' (a.head?_ne hfirst (by decide) hne) hread, hrest, hpaired⟩
  | lastItem h he ih =>
      rw [Value.literals, Value.literalsOfItems, Value.literalsOfItems, List.append_nil] at hclear ⊢
      obtain ⟨item', mid', behind', hitem, hmid, hpaired⟩ := ih htwin key hclear
      obtain ⟨stop', end', he', hstop⟩ := a.skipSpace hmid he
      obtain ⟨rest', rfl, hrest⟩ := a.sign hstop (by decide)
      refine ⟨_, _, rest', .lastItem hitem he', hrest, ?_⟩
      rwa [Value.literals, Value.literalsOfItems, Value.literalsOfItems, List.append_nil]
  | item h hc hm ih ihm =>
      rw [Value.literals, Value.literalsOfItems] at hclear ⊢
      rw [List.forall_mem_append] at hclear
      obtain ⟨item', mid', behind', hitem, hmid, hpaired⟩ := ih htwin key hclear.1
      obtain ⟨comma', tail', hc', hcomma⟩ := a.skipSpace hmid hc
      obtain ⟨more', rfl, hnext⟩ := a.sign hcomma (by decide)
      obtain ⟨v', next', rest', hitems, hrest, hothers⟩ := ihm hnext key hclear.2
      obtain ⟨-, items', rfl, -⟩ := hitems.answered
      refine ⟨_, next', rest', .item hitem hc' hitems, hrest, ?_⟩
      rw [Value.literals, Value.literalsOfItems]
      rw [Value.literals, Value.literals] at hothers
      exact List.rel_append hpaired hothers
  | lastMember hs hk hd h he ih =>
      rw [Value.literals, Value.literalsOfMembers, Value.literalsOfMembers, List.append_nil] at hclear ⊢
      rw [List.forall_mem_cons] at hclear
      obtain ⟨place', word', hs', hplace⟩ := a.skipSpace htwin hs
      obtain ⟨inside', key', mid', behind', rfl, hk', hmid, hkey⟩ := a.literal? hplace hk hclear.1
      obtain ⟨colon', tail', hd', hcolon⟩ := a.skipSpace hmid hd
      obtain ⟨after', rfl, hvalue⟩ := a.sign hcolon (by decide)
      obtain ⟨v', next', left', hread, hleft, hpaired⟩ := ih hvalue _ hclear.2
      obtain ⟨stop', end', he', hstop⟩ := a.skipSpace hleft he
      obtain ⟨rest', rfl, hrest⟩ := a.sign hstop (by decide)
      refine ⟨_, _, rest', .lastMember hs' hk' hd' hread he', hrest, ?_⟩
      rw [Value.literals, Value.literalsOfMembers, Value.literalsOfMembers, List.append_nil, a.key hkey]
      exact .cons ⟨rfl, hkey⟩ hpaired
  | member hs hk hd h hc hm ih ihm =>
      rw [Value.literals, Value.literalsOfMembers] at hclear ⊢
      rw [List.forall_mem_cons, List.forall_mem_append] at hclear
      obtain ⟨place', word', hs', hplace⟩ := a.skipSpace htwin hs
      obtain ⟨inside', key', mid', behind', rfl, hk', hmid, hkey⟩ := a.literal? hplace hk hclear.1
      obtain ⟨colon', tail', hd', hcolon⟩ := a.skipSpace hmid hd
      obtain ⟨after', rfl, hvalue⟩ := a.sign hcolon (by decide)
      obtain ⟨v', next', left', hread, hleft, hpaired⟩ := ih hvalue _ hclear.2.1
      obtain ⟨comma', end', hc', hcomma⟩ := a.skipSpace hleft hc
      obtain ⟨more', rfl, hnext⟩ := a.sign hcomma (by decide)
      obtain ⟨w', last', rest', hmembers, hrest, hothers⟩ := ihm hnext key hclear.2.2
      obtain ⟨-, members', rfl, -⟩ := hmembers.answered
      refine ⟨_, last', rest', .member hs' hk' hd' hread hc' hmembers, hrest, ?_⟩
      rw [Value.literals, Value.literalsOfMembers, a.key hkey]
      rw [Value.literals, Value.literals] at hothers
      exact .cons ⟨rfl, hkey⟩ (List.rel_append hpaired hothers)

/-- A whole document is read side by side; what stands behind it is left to say. -/
theorem SideBySide.exists_document (a : SideBySide Twin Clear Becomes) (h : parse? cs = some v)
    (htwin : Twin 0 cs 0 cs') (hclear : ∀ l ∈ v.literals none, Clear l)
    (hblank : ∀ {next next' : Nat} {rest rest' : List Char}, Twin next rest next' rest' →
      (∀ c ∈ rest, isSpace c = true) → ∀ c ∈ rest', isSpace c = true) :
    ∃ v', parse? cs' = some v' ∧ Paired Becomes (v.literals none) (v'.literals none) := by
  obtain ⟨next, rest, hread, hrest⟩ := parse?_eq_some.mp h
  obtain ⟨v', next', rest', hread', htwin', hpaired⟩ := a.exists_reading hread htwin none hclear
  exact ⟨v', parse?_eq_some.mpr ⟨next', rest', hread', hblank htwin' hrest⟩, hpaired⟩

end LinkKeeper.Json
