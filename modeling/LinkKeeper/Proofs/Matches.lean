import LinkKeeper.Text.Span
import Mathlib.Data.List.Basic

/-!
# Pieces of a line

A reader of links takes pieces out of a line, and what is written back later goes by the
columns of these pieces alone. So two things are needed of them: each stands on the line
where its column says, and no two share a byte. The first comes from the recognisers. The
second comes from going through the line once, and where two recognisers go through the
same line, from leaving out what has been claimed.
-/

namespace LinkKeeper.Text

theorem width_take_le {cs : List Char} {n m : Nat} (h : n ≤ m) : width (cs.take n) ≤ width (cs.take m) := by
  obtain ⟨rest, hrest⟩ := List.take_prefix_take_left (l := cs) h
  rw [← hrest, width_append]
  omega

/-! ## Where a piece stands -/

/-- A piece stands on a line where its column says. -/
def Piece.On (line : List Char) (p : Piece) : Prop :=
  ∃ front back, line = front ++ (p.text ++ back) ∧ p.start = width front

theorem Piece.On.append {line : List Char} {p : Piece} (h : p.On line) (ending : List Char) :
    p.On (line ++ ending) := by
  obtain ⟨front, back, hline, hstart⟩ := h
  exact ⟨front, back ++ ending, by simp [hline], hstart⟩

theorem Piece.On.shift {rest : List Char} {p : Piece} (h : p.On rest) (front : List Char) :
    (p.shift (width front)).On (front ++ rest) := by
  obtain ⟨before, back, hrest, hstart⟩ := h
  refine ⟨front ++ before, back, ?_, ?_⟩
  · rw [hrest, List.append_assoc]
    rfl
  · rw [width_append, ← hstart]
    rfl

theorem Piece.stop_shift (p : Piece) (n : Nat) : (p.shift n).stop = n + p.stop := by
  unfold stop shift
  dsimp only
  omega

/-- One span lies in another. -/
def Span.Within (inner outer : Span) : Prop := outer.start ≤ inner.start ∧ inner.stop ≤ outer.stop

/-- Two spans share no byte. -/
def Span.Apart (a b : Span) : Prop := a.stop ≤ b.start ∨ b.stop ≤ a.start

theorem Span.Apart.symm {a b : Span} (h : a.Apart b) : b.Apart a := Or.symm h

theorem Span.Apart.within {a b inner : Span} (h : a.Apart b) (hin : inner.Within b) :
    a.Apart inner := by
  unfold Span.Apart Span.Within at *
  omega

theorem Span.meets_eq_false {a b : Span} : a.meets b = false ↔ a.Apart b := by
  rw [meets, Bool.and_eq_false_iff, decide_eq_false_iff_not, decide_eq_false_iff_not, Apart]
  omega

theorem Span.isClaimed_eq_false {claimed : List Span} {s : Span} :
    s.isClaimed claimed = false ↔ ∀ c ∈ claimed, s.Apart c := by
  rw [isClaimed, List.any_eq_false]
  refine forall₂_congr fun c _ => ?_
  rw [Bool.not_eq_true, meets_eq_false]

theorem mem_unclaimed {claimed : List Span} {pieces : List Piece} {p : Piece} :
    p ∈ unclaimed claimed pieces ↔ p ∈ pieces ∧ ∀ c ∈ claimed, p.span.Apart c := by
  rw [unclaimed, List.mem_filter, Bool.not_eq_true', Span.isClaimed_eq_false]

/-- What is left when punctuation is taken off a piece stands within it. -/
theorem Piece.On.strip {line : List Char} {p : Piece} (h : p.On line) (front back : Char → Bool) :
    (p.strip front back).On line ∧ (p.strip front back).span.Within p.span := by
  obtain ⟨before, after, hline, hstart⟩ := h
  have hlead : p.text = p.text.takeWhile front ++ p.text.dropWhile front :=
    List.takeWhile_append_dropWhile.symm
  -- what comes off at the end is what comes off at the front of the reverse
  have htail : p.text.dropWhile front =
      ((p.text.dropWhile front).reverse.dropWhile back).reverse ++
        ((p.text.dropWhile front).reverse.takeWhile back).reverse := by
    rw [← List.reverse_append, List.takeWhile_append_dropWhile, List.reverse_reverse]
  have htext : p.text = p.text.takeWhile front ++ ((p.strip front back).text ++
      ((p.text.dropWhile front).reverse.takeWhile back).reverse) := by
    show p.text = p.text.takeWhile front ++
      (((p.text.dropWhile front).reverse.dropWhile back).reverse ++
        ((p.text.dropWhile front).reverse.takeWhile back).reverse)
    rw [← htail, ← hlead]
  refine ⟨⟨before ++ p.text.takeWhile front,
    ((p.text.dropWhile front).reverse.takeWhile back).reverse ++ after, ?_, ?_⟩, ?_, ?_⟩
  · conv_lhs => rw [hline, htext]
    simp only [List.append_assoc]
  · show p.start + width (p.text.takeWhile front) = _
    rw [width_append, hstart]
  · show p.start ≤ p.start + width (p.text.takeWhile front)
    omega
  · show p.start + width (p.text.takeWhile front) + width (p.strip front back).text ≤
      p.start + width p.text
    have hwidth := congrArg width htext
    rw [width_append, width_append] at hwidth
    omega

/-! ## Going through a line -/

section

variable {α : Type} {find : Recogniser α}

/-- What is found was recognised at its column. -/
theorem mem_matchesFrom {column : Nat} {before : Option Char} {skip : Nat} {cs : List Char}
    {m : Nat × α} (h : m ∈ matchesFrom find column before skip cs) :
    ∃ front rest before' length, cs = front ++ rest ∧ skip ≤ front.length ∧
      m.1 = column + width front ∧ find before' rest = some (m.2, length) := by
  induction cs generalizing column before skip with
  | nil => simp [matchesFrom] at h
  | cons c cs ih =>
      -- whatever is found later is found behind the character at hand
      have later : ∀ {skip' : Nat}, skip ≤ skip' + 1 →
          m ∈ matchesFrom find (column + c.utf8Size) (some c) skip' cs →
          ∃ front rest before' length, c :: cs = front ++ rest ∧ skip ≤ front.length ∧
            m.1 = column + width front ∧ find before' rest = some (m.2, length) := by
        intro skip' hskip hm
        obtain ⟨front, rest, before', length, rfl, hlen, hcol, hfind⟩ := ih hm
        refine ⟨c :: front, rest, before', length, rfl, ?_, ?_, hfind⟩
        · rw [List.length_cons]; omega
        · rw [hcol, width_cons]; omega
      cases skip with
      | succ skip =>
          rw [matchesFrom] at h
          exact later (Nat.le_refl _) h
      | zero =>
          rw [matchesFrom] at h
          split at h
          · rename_i found length hfind
            rcases List.mem_cons.mp h with rfl | h
            · exact ⟨[], c :: cs, before, length, rfl, Nat.le_refl _, by simp, hfind⟩
            · exact later (Nat.zero_le _) h
          · exact later (Nat.zero_le _) h

theorem mem_matchesOf {line : List Char} {m : Nat × α} (h : m ∈ matchesOf find line) :
    ∃ front rest before length, line = front ++ rest ∧ m.1 = width front ∧
      find before rest = some (m.2, length) := by
  obtain ⟨front, rest, before, length, hline, -, hcol, hfind⟩ := mem_matchesFrom h
  exact ⟨front, rest, before, length, hline, by omega, hfind⟩

/-- What is found later begins behind what was found before. -/
theorem pairwise_matchesFrom {extent : α → Nat}
    (hextent : ∀ before cs found length, find before cs = some (found, length) →
      extent found ≤ width (cs.take length))
    (column : Nat) (before : Option Char) (skip : Nat) (cs : List Char) :
    (matchesFrom find column before skip cs).Pairwise fun a b => a.1 + extent a.2 ≤ b.1 := by
  induction cs generalizing column before skip with
  | nil => exact .nil
  | cons c cs ih =>
      cases skip with
      | succ skip =>
          rw [matchesFrom]
          exact ih _ _ _
      | zero =>
          rw [matchesFrom]
          split
          · rename_i found length hfind
            refine .cons ?_ (ih _ _ _)
            intro m hm
            obtain ⟨front, rest, before', length', hcs, hlen, hcol, -⟩ := mem_matchesFrom hm
            have hle := hextent _ _ _ _ hfind
            have htake : width ((c :: cs).take length) ≤ width ((c :: cs).take (front.length + 1)) :=
              width_take_le (by omega)
            rw [hcs, List.take_succ_cons, List.take_left', width_cons] at htake
            · show column + extent found ≤ m.1
              rw [hcol]
              rw [hcs] at hle
              omega
            · rfl
          · exact ih _ _ _

theorem pairwise_matchesOf (extent : α → Nat)
    (hextent : ∀ before cs found length, find before cs = some (found, length) →
      extent found ≤ width (cs.take length)) (line : List Char) :
    (matchesOf find line).Pairwise fun a b => a.1 + extent a.2 ≤ b.1 :=
  pairwise_matchesFrom hextent 0 none 0 line

/-! ## Going on -/

theorem matchesFrom_skip (find : Recogniser α) (column : Nat) (before : Option Char)
    (as cs : List Char) : ∃ last, matchesFrom find column before as.length (as ++ cs) =
      matchesFrom find (column + width as) last 0 cs := by
  induction as generalizing column before with
  | nil => exact ⟨before, rfl⟩
  | cons a as ih =>
      obtain ⟨last, hlast⟩ := ih (column + a.utf8Size) (some a)
      refine ⟨last, ?_⟩
      rw [List.cons_append, List.length_cons, matchesFrom, hlast, width_cons, Nat.add_assoc]

theorem matchesFrom_pass {as : List Char}
    (h : ∀ c ∈ as, ∀ before cs, find before (c :: cs) = none) (column : Nat)
    (before : Option Char) (cs : List Char) : ∃ last, matchesFrom find column before 0 (as ++ cs) =
      matchesFrom find (column + width as) last 0 cs := by
  induction as generalizing column before with
  | nil => exact ⟨before, rfl⟩
  | cons a as ih =>
      obtain ⟨last, hlast⟩ := ih (fun c hc => h c (List.mem_cons_of_mem _ hc))
        (column + a.utf8Size) (some a)
      refine ⟨last, ?_⟩
      rw [List.cons_append, matchesFrom, h a List.mem_cons_self, width_cons, ← Nat.add_assoc]
      exact hlast

theorem matchesFrom_found {before : Option Char} {as cs : List Char}
    {found : α} (hne : as ≠ []) (h : find before (as ++ cs) = some (found, as.length))
    (column : Nat) : ∃ last, matchesFrom find column before 0 (as ++ cs) =
      (column, found) :: matchesFrom find (column + width as) last 0 cs := by
  obtain ⟨a, as, rfl⟩ := List.exists_cons_of_ne_nil hne
  obtain ⟨last, hlast⟩ := matchesFrom_skip find (column + a.utf8Size) (some a) as cs
  refine ⟨last, ?_⟩
  rw [List.cons_append] at h ⊢
  rw [matchesFrom, h]
  dsimp only
  rw [List.length_cons, Nat.add_sub_cancel, hlast, width_cons, ← Nat.add_assoc]

theorem matchesFrom_none {before : Option Char} {c : Char}
    {cs : List Char} (h : find before (c :: cs) = none) (column : Nat) :
    matchesFrom find column before 0 (c :: cs) =
      matchesFrom find (column + c.utf8Size) (some c) 0 cs := by
  rw [matchesFrom, h]

/-- What is found does not depend on where the line begins. -/
theorem matchesFrom_shift (find : Recogniser α) (column n : Nat) (before : Option Char) (skip : Nat)
    (cs : List Char) : matchesFrom find (n + column) before skip cs =
      (matchesFrom find column before skip cs).map fun m => (n + m.1, m.2) := by
  induction cs generalizing column before skip with
  | nil => rfl
  | cons c cs ih =>
      cases skip with
      | succ skip => rw [matchesFrom, matchesFrom, Nat.add_assoc, ih]
      | zero =>
          rw [matchesFrom, matchesFrom, Nat.add_assoc]
          cases find before (c :: cs) with
          | none => exact ih _ _ _
          | some answer =>
              dsimp only
              rw [ih]
              rfl

/--
Where a recogniser finds the same on two lines, and never goes on past what they have in common,
it comes to the rest of both lines in one way.
-/
theorem matchesFrom_common {as cs ds : List Char}
    (h : ∀ front rest, as = front ++ rest → rest ≠ [] → ∀ before,
      find before (rest ++ ds) = find before (rest ++ cs) ∧
        ∀ found length, find before (rest ++ cs) = some (found, length) → length ≤ rest.length)
    (column : Nat) (before : Option Char) {skip : Nat} (hskip : skip ≤ as.length) :
    ∃ ms last, matchesFrom find column before skip (as ++ cs) =
        ms ++ matchesFrom find (column + width as) last 0 cs ∧
      matchesFrom find column before skip (as ++ ds) =
        ms ++ matchesFrom find (column + width as) last 0 ds ∧
      ∀ m ∈ ms, ∃ front rest before length, as = front ++ rest ∧ m.1 = column + width front ∧
        length ≤ rest.length ∧ find before (rest ++ cs) = some (m.2, length) := by
  induction as generalizing column before skip with
  | nil =>
      obtain rfl : skip = 0 := by simpa using hskip
      exact ⟨[], before, rfl, rfl, by simp⟩
  | cons a as ih =>
      have hrest : ∀ front rest, as = front ++ rest → rest ≠ [] → ∀ before,
          find before (rest ++ ds) = find before (rest ++ cs) ∧
            ∀ found length, find before (rest ++ cs) = some (found, length) →
              length ≤ rest.length :=
        fun front rest hsplit => h (a :: front) rest (by rw [hsplit, List.cons_append])
      have hlater : ∀ {ms : List (Nat × α)}, (∀ m ∈ ms, ∃ front rest before length,
          as = front ++ rest ∧ m.1 = column + a.utf8Size + width front ∧ length ≤ rest.length ∧
            find before (rest ++ cs) = some (m.2, length)) →
          ∀ m ∈ ms, ∃ front rest before length, a :: as = front ++ rest ∧
            m.1 = column + width front ∧ length ≤ rest.length ∧
            find before (rest ++ cs) = some (m.2, length) := by
        intro ms hms m hm
        obtain ⟨front, rest, before, length, rfl, hcolumn, hlength, hfind⟩ := hms m hm
        exact ⟨a :: front, rest, before, length, rfl, by rw [hcolumn, width_cons, Nat.add_assoc],
          hlength, hfind⟩
      rw [width_cons, ← Nat.add_assoc, List.cons_append, List.cons_append]
      cases skip with
      | succ skip =>
          obtain ⟨ms, last, hcs, hds, hms⟩ := ih hrest (column + a.utf8Size) (some a)
            (Nat.le_of_succ_le_succ hskip)
          exact ⟨ms, last, by rw [matchesFrom, hcs], by rw [matchesFrom, hds], hlater hms⟩
      | zero =>
          obtain ⟨hsame, hwithin⟩ := h [] (a :: as) rfl (by simp) before
          rw [List.cons_append, List.cons_append] at hsame
          rw [List.cons_append] at hwithin
          cases hfind : find before (a :: (as ++ cs)) with
          | none =>
              obtain ⟨ms, last, hcs, hds, hms⟩ := ih hrest (column + a.utf8Size) (some a)
                (Nat.zero_le _)
              rw [hfind] at hsame
              exact ⟨ms, last, by rw [matchesFrom_none hfind, hcs],
                by rw [matchesFrom_none hsame, hds], hlater hms⟩
          | some answer =>
              obtain ⟨found, length⟩ := answer
              have hlength := hwithin found length hfind
              rw [List.length_cons] at hlength
              obtain ⟨ms, last, hcs, hds, hms⟩ := ih hrest (column + a.utf8Size) (some a)
                (show length - 1 ≤ as.length by omega)
              rw [hfind] at hsame
              refine ⟨(column, found) :: ms, last, ?_, ?_, fun m hm => ?_⟩
              · rw [matchesFrom, hfind]
                dsimp only
                rw [hcs, List.cons_append]
              · rw [matchesFrom, hsame]
                dsimp only
                rw [hds, List.cons_append]
              · rcases List.mem_cons.mp hm with rfl | hm
                · exact ⟨[], a :: as, before, length, rfl, rfl, hlength, hfind⟩
                · exact hlater hms m hm

end

end LinkKeeper.Text
