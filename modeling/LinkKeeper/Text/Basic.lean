/-!
# Text measured in bytes

A place on a line is a number of UTF-8 bytes, while text is read here as a list
of characters. `width` is the bridge between the two, and `cut?` is its inverse:
it finds the place a byte count names, or says that no character starts there.

The small splitting functions at the end keep whatever they do not consume, so
each one comes with the law that its pieces give the text back.
-/

namespace LinkKeeper.Text

/-- Bytes that the characters take in UTF-8. -/
def width (cs : List Char) : Nat := cs.foldl (fun n c => n + c.utf8Size) 0

theorem foldl_utf8Size (cs : List Char) (n : Nat) :
    cs.foldl (fun n c => n + c.utf8Size) n = n + width cs := by
  induction cs generalizing n with
  | nil => simp [width]
  | cons c cs ih =>
      simp only [width, List.foldl_cons]
      rw [ih, ih (0 + c.utf8Size)]
      omega

@[simp] theorem width_nil : width [] = 0 := rfl

@[simp] theorem width_cons (c : Char) (cs : List Char) :
    width (c :: cs) = c.utf8Size + width cs := by
  rw [width, List.foldl_cons, foldl_utf8Size]; omega

@[simp] theorem width_append (as bs : List Char) : width (as ++ bs) = width as + width bs := by
  induction as with
  | nil => simp
  | cons a as ih => simp [ih]; omega

/--
Cuts the text after `n` bytes. A count that ends inside a character, or beyond
the last one, names no place, and then there is no cut.
-/
def cut? : List Char → Nat → Option (List Char × List Char)
  | cs, 0 => some ([], cs)
  | [], _ + 1 => none
  | c :: cs, n + 1 =>
      if c.utf8Size ≤ n + 1 then
        (cut? cs (n + 1 - c.utf8Size)).map fun (front, back) => (c :: front, back)
      else none

/-- A cut loses nothing. -/
theorem append_of_cut? {cs front back : List Char} {n : Nat}
    (h : cut? cs n = some (front, back)) : front ++ back = cs := by
  induction cs generalizing n front with
  | nil => cases n <;> simp_all [cut?]
  | cons c cs ih =>
      cases n with
      | zero => simp_all [cut?]
      | succ n =>
          simp only [cut?] at h
          split at h
          · obtain ⟨⟨f, b⟩, hf, heq⟩ := Option.map_eq_some_iff.1 h
            obtain ⟨rfl, rfl⟩ := Prod.mk.inj heq
            simpa using ih hf
          · simp at h

/-- The bytes `[start, stop)` of the text, when both ends fall between characters. -/
def slice? (cs : List Char) (start stop : Nat) : Option (List Char) :=
  if start ≤ stop then do
    let (_, rest) ← cut? cs start
    let (middle, _) ← cut? rest (stop - start)
    return middle
  else none

/-- The pieces between the characters that satisfy `p`; one more piece than such characters. -/
def splitWhere (p : Char → Bool) : List Char → List (List Char)
  | [] => [[]]
  | c :: cs =>
      if p c then [] :: splitWhere p cs
      else
        match splitWhere p cs with
        | [] => [[c]]
        | piece :: pieces => (c :: piece) :: pieces

/-- What stands before and after the first `c`. -/
def splitFirst? (c : Char) : List Char → Option (List Char × List Char)
  | [] => none
  | d :: ds =>
      if d = c then some ([], ds)
      else (splitFirst? c ds).map fun (front, back) => (d :: front, back)

/-- What stands before and after the last `c`. -/
def splitLast? (c : Char) : List Char → Option (List Char × List Char)
  | [] => none
  | d :: ds =>
      match splitLast? c ds with
      | some (front, back) => some (d :: front, back)
      | none => if d = c then some ([], ds) else none

theorem append_of_splitFirst? {c : Char} {cs front back : List Char}
    (h : splitFirst? c cs = some (front, back)) : front ++ c :: back = cs := by
  induction cs generalizing front with
  | nil => simp [splitFirst?] at h
  | cons d ds ih =>
      simp only [splitFirst?] at h
      split at h
      · simp_all
      · obtain ⟨⟨f, b⟩, hf, heq⟩ := Option.map_eq_some_iff.1 h
        obtain ⟨rfl, rfl⟩ := Prod.mk.inj heq
        simp [ih hf]

theorem append_of_splitLast? {c : Char} {cs front back : List Char}
    (h : splitLast? c cs = some (front, back)) : front ++ c :: back = cs := by
  induction cs generalizing front with
  | nil => simp [splitLast?] at h
  | cons d ds ih =>
      simp only [splitLast?] at h
      split at h
      · rename_i f b hf
        obtain ⟨rfl, rfl⟩ := Prod.mk.inj (Option.some.inj h)
        simp [ih hf]
      · split at h <;> simp_all

/-- Whether `part` stands somewhere in the text. -/
def contains (part : List Char) : List Char → Bool
  | [] => part.isEmpty
  | c :: cs => part.isPrefixOf (c :: cs) || contains part cs

/-- The text with `old` written as `new`, character by character. -/
def replaceChar (old : Char) (new : List Char) (cs : List Char) : List Char :=
  cs.flatMap fun c => if c = old then new else [c]

end LinkKeeper.Text
