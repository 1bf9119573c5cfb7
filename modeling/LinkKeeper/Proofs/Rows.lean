import LinkKeeper.Proofs.Pieces
import LinkKeeper.Text.Lines
import Mathlib.Data.List.Induction
import Mathlib.Data.List.TakeWhile

/-!
# Lines and offsets

The readers of structured text know bytes from the front of the text, and a reference
says a line and a column. The cut into lines and the search for the line of an offset go
through the text each in its own way; here they are told by structure, and it comes out
that they speak of the same lines.
-/

namespace LinkKeeper.Text

/-! ## The cut into lines -/

/-- Puts characters in front of the first line. -/
def lead (as : List Char) : List (List Char) → List (List Char)
  | [] => if as.isEmpty then [] else [as]
  | line :: lines => (as ++ line) :: lines

@[simp] theorem lead_nil (lines : List (List Char)) : lead [] lines = lines := by
  cases lines <;> rfl

theorem lead_append (as bs : List Char) (lines : List (List Char)) :
    lead (as ++ bs) lines = lead as (lead bs lines) := by
  cases lines with
  | nil =>
      cases bs with
      | nil => cases as <;> simp [lead]
      | cons b bs => simp [lead]
  | cons line lines => simp [lead]

theorem keepEnds_go (cs line : List Char) (done : List (List Char)) :
    keepEnds.go line done cs = done.reverse ++ lead line.reverse (keepEnds cs) := by
  have hstart : ∀ c : Char, ∀ cs, keepEnds (c :: cs) =
      if c = '\n' then keepEnds.go [] [[c]] cs else keepEnds.go [c] [] cs := fun c cs => rfl
  induction cs generalizing line done with
  | nil =>
      show (if line.isEmpty then done else line.reverse :: done).reverse = _
      cases line with
      | nil => simp [keepEnds, keepEnds.go]
      | cons c line => simp [keepEnds, keepEnds.go, lead]
  | cons c cs ih =>
      rw [keepEnds.go, hstart]
      by_cases hc : c = '\n'
      · rw [if_pos hc, if_pos hc, ih, ih]
        simp [lead]
      · rw [if_neg hc, if_neg hc, ih, ih]
        rw [List.reverse_cons, lead_append]
        simp

@[simp] theorem keepEnds_nil : keepEnds [] = [] := rfl

theorem keepEnds_cons (c : Char) (cs : List Char) :
    keepEnds (c :: cs) = if c = '\n' then [c] :: keepEnds cs else lead [c] (keepEnds cs) := by
  show (if c = '\n' then keepEnds.go [] [[c]] cs else keepEnds.go [c] [] cs) = _
  rw [keepEnds_go, keepEnds_go]
  simp

/-- A line feed ends a line, whatever comes before it and behind it. -/
theorem keepEnds_append_cons (as cs : List Char) :
    keepEnds (as ++ '\n' :: cs) = keepEnds (as ++ ['\n']) ++ keepEnds cs := by
  have hne : ∀ bs : List Char, keepEnds (bs ++ ['\n']) ≠ [] := by
    intro bs h
    have := flatten_keepEnds (bs ++ ['\n'])
    rw [h] at this
    simp at this
  induction as with
  | nil => simp [keepEnds_cons]
  | cons a as ih =>
      rw [List.cons_append, List.cons_append, keepEnds_cons, keepEnds_cons, ih]
      split
      · rfl
      · cases h : keepEnds (as ++ ['\n']) with
        | nil => exact absurd h (hne as)
        | cons line lines => rfl

theorem keepEnds_append_of_not_mem {as : List Char} (h : '\n' ∉ as) (cs : List Char) :
    keepEnds (as ++ cs) = lead as (keepEnds cs) := by
  induction as with
  | nil => simp
  | cons a as ih =>
      rw [List.mem_cons, not_or] at h
      rw [List.cons_append, keepEnds_cons, if_neg (Ne.symm h.1), ih h.2, ← lead_append]
      rfl

/-! ## The body of a line -/

theorem splitEnding_of_return (body : List Char) :
    splitEnding (body ++ ['\r', '\n']) = (body, ['\r', '\n']) := by
  simp [splitEnding]

theorem splitEnding_of_feed {body : List Char} (h : ∀ cs, body ≠ cs ++ ['\r']) :
    splitEnding (body ++ ['\n']) = (body, ['\n']) := by
  have hreverse : (body ++ ['\n']).reverse = '\n' :: body.reverse := by simp
  unfold splitEnding
  rw [hreverse]
  split
  · rename_i rest heq
    refine absurd ?_ (h rest.reverse)
    simpa using congrArg List.reverse (List.cons.inj heq).2
  · rename_i rest hnot heq
    rw [← (List.cons.inj heq).2, List.reverse_reverse]
  · rename_i hnot
    exact absurd rfl (hnot _)

theorem splitEnding_of_none {line : List Char} (h : ∀ cs, line ≠ cs ++ ['\n']) :
    splitEnding line = (line, []) := by
  have hnot : ∀ rest, line.reverse ≠ '\n' :: rest := by
    intro rest heq
    exact h rest.reverse (by simpa using congrArg List.reverse heq)
  unfold splitEnding
  split
  · rename_i heq
    exact absurd heq (hnot _)
  · rename_i heq
    exact absurd heq (hnot _)
  · rfl

/-! ## The search for a line -/

/-- The byte offsets at which further lines begin. -/
def furtherStarts (offset : Nat) : List Char → List Nat
  | [] => []
  | c :: cs =>
      if c = '\n' then (offset + c.utf8Size) :: furtherStarts (offset + c.utf8Size) cs
      else furtherStarts (offset + c.utf8Size) cs

theorem lineStarts_eq (cs : List Char) : lineStarts cs = 0 :: furtherStarts 0 cs := by
  have hgo : ∀ (cs : List Char) (offset : Nat) (done : List Nat),
      lineStarts.go offset done cs = done.reverse ++ furtherStarts offset cs := by
    intro cs
    induction cs with
    | nil => intro offset done; simp [lineStarts.go, furtherStarts]
    | cons c cs ih =>
        intro offset done
        rw [lineStarts.go, furtherStarts, ih]
        split <;> simp
  exact hgo cs 0 [0]

theorem furtherStarts_append (as bs : List Char) (offset : Nat) :
    furtherStarts offset (as ++ bs) =
      furtherStarts offset as ++ furtherStarts (offset + width as) bs := by
  induction as generalizing offset with
  | nil => simp [furtherStarts]
  | cons a as ih =>
      rw [List.cons_append, furtherStarts, furtherStarts, ih, width_cons, Nat.add_assoc]
      split <;> rfl

theorem lineStarts_concat (done : List Char) (c : Char) :
    lineStarts (done ++ [c]) =
      lineStarts done ++ if c = '\n' then [width done + c.utf8Size] else [] := by
  rw [lineStarts_eq, lineStarts_eq, furtherStarts_append, Nat.zero_add, List.cons_append]
  simp only [furtherStarts]

theorem furtherStarts_of_not_mem {as : List Char} (h : '\n' ∉ as) (offset : Nat) :
    furtherStarts offset as = [] := by
  induction as generalizing offset with
  | nil => rfl
  | cons a as ih =>
      rw [List.mem_cons, not_or] at h
      rw [furtherStarts, if_neg (Ne.symm h.1), ih h.2]

theorem mem_furtherStarts {cs : List Char} {offset n : Nat} (h : n ∈ furtherStarts offset cs) :
    offset < n ∧ n ≤ offset + width cs := by
  induction cs generalizing offset with
  | nil => simp [furtherStarts] at h
  | cons c cs ih =>
      have hsize := Char.utf8Size_pos c
      rw [furtherStarts] at h
      rw [width_cons]
      split at h
      · rcases List.mem_cons.mp h with rfl | h
        · omega
        · have := ih h
          omega
      · have := ih h
        omega

/-- The lines that begin up to an offset are those that begin in what stands before it. -/
theorem takeWhile_lineStarts (front rest : List Char) :
    (lineStarts (front ++ rest)).takeWhile (· ≤ width front) = lineStarts front := by
  rw [lineStarts_eq, lineStarts_eq, furtherStarts_append, Nat.zero_add, ← List.cons_append,
    List.takeWhile_append_of_pos]
  · have hnone : (furtherStarts (width front) rest).takeWhile (· ≤ width front) = [] := by
      cases h : furtherStarts (width front) rest with
      | nil => rfl
      | cons n ns =>
          have hn := mem_furtherStarts (h ▸ List.mem_cons_self : n ∈ furtherStarts (width front) rest)
          rw [List.takeWhile_cons_of_neg]
          simp only [decide_eq_true_eq]
          omega
    rw [hnone, List.append_nil]
  · intro n hn
    rcases List.mem_cons.mp hn with rfl | hn
    · simp
    · have := mem_furtherStarts hn
      simp only [decide_eq_true_eq]
      omega

/-- Where the line of an offset begins: all before it is whole lines. -/
theorem exists_line_start (front : List Char) :
    ∃ above start, front = above ++ start ∧ '\n' ∉ start ∧
      (above = [] ∨ ∃ as, above = as ++ ['\n']) := by
  induction front using List.reverseRecOn with
  | nil => exact ⟨[], [], rfl, by simp, .inl rfl⟩
  | append_singleton front c ih =>
      by_cases hc : c = '\n'
      · exact ⟨front ++ [c], [], by simp, by simp, .inr ⟨front, by rw [hc]⟩⟩
      · obtain ⟨above, start, rfl, hstart, habove⟩ := ih
        refine ⟨above, start ++ [c], by simp, ?_, habove⟩
        rw [List.mem_append, List.mem_singleton, not_or]
        exact ⟨hstart, Ne.symm hc⟩

theorem length_keepEnds (as : List Char) (offset : Nat) :
    (keepEnds (as ++ ['\n'])).length = (furtherStarts offset (as ++ ['\n'])).length := by
  induction as generalizing offset with
  | nil => rfl
  | cons a as ih =>
      rw [List.cons_append, keepEnds_cons, furtherStarts]
      split
      · rw [List.length_cons, List.length_cons, ih]
      · rw [← ih]
        cases h : keepEnds (as ++ ['\n']) with
        | nil =>
            have := flatten_keepEnds (as ++ ['\n'])
            rw [h] at this
            simp at this
        | cons line lines => rfl

/--
**The line and the column of an offset.** Above its line there are as many lines as the
number says, and the column is the width of what stands before the offset on the line.
-/
theorem place_eq (front rest : List Char) : ∃ above start, front = above ++ start ∧
    '\n' ∉ start ∧ keepEnds (front ++ rest) = keepEnds above ++ keepEnds (start ++ rest) ∧
    place (lineStarts (front ++ rest)) (width front) =
      ((keepEnds above).length + 1, width start) := by
  obtain ⟨above, start, rfl, hstart, habove⟩ := exists_line_start front
  refine ⟨above, start, rfl, hstart, ?_, ?_⟩
  · rcases habove with rfl | ⟨as, rfl⟩
    · simp
    · have hcut := keepEnds_append_cons as (start ++ rest)
      simpa using hcut
  · have hstarts : lineStarts (above ++ start) = 0 :: furtherStarts 0 above := by
      rw [lineStarts_eq, furtherStarts_append, furtherStarts_of_not_mem hstart, List.append_nil]
    unfold place
    dsimp only
    rw [takeWhile_lineStarts, hstarts]
    rcases habove with rfl | ⟨as, rfl⟩
    · simp [furtherStarts]
    · have hlast : (0 :: furtherStarts 0 (as ++ ['\n'])).getLast? = some (width (as ++ ['\n'])) := by
        rw [furtherStarts_append]
        have hone : furtherStarts (0 + width as) ['\n'] = [width (as ++ ['\n'])] := by
          simp [furtherStarts]
        rw [hone, ← List.cons_append, List.getLast?_append]
        rfl
      rw [hlast, List.length_cons, length_keepEnds as 0, Option.getD_some, width_append]
      rw [Nat.add_sub_cancel_left]

/-- Two offsets that are placed on one line are counted from one beginning. -/
theorem exists_line_offset {starts : List Nat} {a b : Nat}
    (h : (place starts a).1 = (place starts b).1) :
    ∃ start, a = start + (place starts a).2 ∧ b = start + (place starts b).2 := by
  have hle : ∀ offset, ((starts.takeWhile (· ≤ offset)).getLast?.getD 0) ≤ offset := by
    intro offset
    cases hlast : (starts.takeWhile (· ≤ offset)).getLast? with
    | none => exact Nat.zero_le _
    | some n =>
        have hmem := List.mem_of_getLast? hlast
        have := List.all_eq_true.mp List.all_takeWhile n hmem
        simpa using this
  -- both look at a beginning of the list, and beginnings of one length are the same
  have hsame : starts.takeWhile (· ≤ a) = starts.takeWhile (· ≤ b) := by
    have hlength : (starts.takeWhile (· ≤ a)).length = (starts.takeWhile (· ≤ b)).length := h
    rw [List.prefix_iff_eq_take.mp (List.takeWhile_prefix (l := starts) (· ≤ a)),
      List.prefix_iff_eq_take.mp (List.takeWhile_prefix (l := starts) (· ≤ b)), hlength]
  refine ⟨(starts.takeWhile (· ≤ a)).getLast?.getD 0, ?_, ?_⟩
  · have := hle a
    show a = _ + (a - _)
    omega
  · rw [hsame]
    have := hle b
    show b = _ + (b - _)
    omega

theorem takeWhile_le_of_le {m n : Nat} (h : m ≤ n) (starts : List Nat) :
    starts.takeWhile (· ≤ m) = (starts.takeWhile (· ≤ n)).takeWhile (· ≤ m) := by
  rw [List.takeWhile_takeWhile]
  congr 1
  funext k
  simp only [decide_eq_true_eq, decide_eq_decide]
  omega

/-- Further on in a text one is on no earlier line, and on the same line at a later column. -/
theorem place_lt {m n : Nat} (h : m < n) (starts : List Nat) :
    (place starts m).1 < (place starts n).1 ∨
      ((place starts m).1 = (place starts n).1 ∧ (place starts m).2 < (place starts n).2) := by
  have hline : (place starts m).1 ≤ (place starts n).1 := by
    unfold place
    dsimp only
    rw [takeWhile_le_of_le (Nat.le_of_lt h) starts]
    exact (List.takeWhile_prefix _).length_le
  rcases Nat.lt_or_eq_of_le hline with hlt | hsame
  · exact .inl hlt
  · obtain ⟨start, hm, hn⟩ := exists_line_offset hsame
    exact .inr ⟨hsame, by omega⟩

/-! ## Places before and behind a word -/

theorem furtherStarts_shift (n offset : Nat) (cs : List Char) :
    furtherStarts (n + offset) cs = (furtherStarts offset cs).map (n + ·) := by
  induction cs generalizing offset with
  | nil => rfl
  | cons c cs ih =>
      rw [furtherStarts, furtherStarts, Nat.add_assoc, ih]
      split <;> rfl

/-- A place depends on the text up to there. -/
theorem place_append {front : List Char} {offset : Nat} (h : offset ≤ width front) (rest : List Char) :
    place (lineStarts (front ++ rest)) offset = place (lineStarts front) offset := by
  rw [place, place, takeWhile_le_of_le h, takeWhile_lineStarts]

theorem le_of_mem_lineStarts {front : List Char} {n : Nat} (h : n ∈ lineStarts front) :
    n ≤ width front := by
  rw [lineStarts_eq] at h
  rcases List.mem_cons.mp h with rfl | h
  · exact Nat.zero_le _
  · have := mem_furtherStarts h
    omega

/-- The lines that begin up to a place behind something that ends no line. -/
theorem takeWhile_lineStarts_behind (front back : List Char) (k : Nat) {word : List Char}
    (h : '\n' ∉ word) :
    (lineStarts (front ++ (word ++ back))).takeWhile (· ≤ width front + width word + k) =
      lineStarts front ++ ((furtherStarts 0 back).takeWhile (· ≤ k)).map
        (width front + width word + ·) := by
  have hstarts : lineStarts (front ++ (word ++ back)) = lineStarts front ++
      (furtherStarts 0 back).map (width front + width word + ·) := by
    rw [lineStarts_eq, lineStarts_eq, furtherStarts_append, furtherStarts_append,
      furtherStarts_of_not_mem h, List.nil_append, Nat.zero_add, ← furtherStarts_shift, Nat.add_zero]
    rfl
  rw [hstarts, List.takeWhile_append_of_pos, List.takeWhile_map]
  · congr 3
    funext n
    simp
  · intro n hn
    have := le_of_mem_lineStarts hn
    simp only [decide_eq_true_eq]
    omega

/--
Behind something that ends no line a place is on the same line, and then as much further as this
is long, or it is on another line, at a column of its own.
-/
theorem place_behind (front back : List Char) (k : Nat) :
    (∀ word, '\n' ∉ word → place (lineStarts (front ++ (word ++ back))) (width front + width word + k) =
        ((place (lineStarts front) (width front)).1,
          (place (lineStarts front) (width front)).2 + width word + k)) ∨
      ∃ line column, line ≠ (place (lineStarts front) (width front)).1 ∧
        ∀ word, '\n' ∉ word → place (lineStarts (front ++ (word ++ back)))
          (width front + width word + k) = (line, column) := by
  have hfront := takeWhile_lineStarts front []
  rw [List.append_nil] at hfront
  have hlast : ∃ n ∈ lineStarts front, (lineStarts front).getLast? = some n := by
    have hne : lineStarts front ≠ [] := by
      rw [lineStarts_eq]
      simp
    exact ⟨_, List.getLast_mem hne, List.getLast?_eq_some_getLast hne⟩
  obtain ⟨last, hmem, hlast⟩ := hlast
  have hle := le_of_mem_lineStarts hmem
  rcases List.eq_nil_or_concat ((furtherStarts 0 back).takeWhile (· ≤ k)) with hnil | ⟨starts, n, hstarts⟩
  · left
    intro word hword
    rw [place, place, takeWhile_lineStarts_behind front back k hword, hnil, hfront]
    simp only [List.map_nil, List.append_nil, hlast, Option.getD_some, Prod.mk.injEq, true_and]
    omega
  · right
    refine ⟨(lineStarts front).length + starts.length + 1, k - n, ?_, fun word hword => ?_⟩
    · rw [place, hfront]
      dsimp only
      omega
    · rw [place, takeWhile_lineStarts_behind front back k hword, hstarts]
      simp only [List.concat_eq_append, List.map_append, List.map_cons, List.map_nil, List.length_append,
        List.length_map, List.length_cons, List.length_nil, ← List.append_assoc, List.getLast?_append,
        List.getLast?_singleton, Option.some_or, Option.getD_some, Prod.mk.injEq, true_and]
      omega

end LinkKeeper.Text
