import LinkKeeper.Text.Basic

/-!
# Lines

A text is cut into lines after each line feed. A revision keeps the line ends and
works on `keepEnds`; a reader wants the bodies and works on `bodies`, where a
carriage return before the line feed belongs to the ending. A carriage return with
no line feed behind it is an ordinary character.
-/

namespace LinkKeeper.Text

/-- The lines with their endings; the last one may lack its ending, and is never empty. -/
def keepEnds (cs : List Char) : List (List Char) :=
  let rec go (line : List Char) (done : List (List Char)) : List Char → List (List Char)
    | [] => (if line.isEmpty then done else line.reverse :: done).reverse
    | c :: cs =>
        if c = '\n' then go [] ((c :: line).reverse :: done) cs
        else go (c :: line) done cs
  go [] [] cs

/-- Cutting loses nothing, whatever has been gathered so far. -/
theorem flatten_keepEnds_go (cs line : List Char) (done : List (List Char)) :
    (keepEnds.go line done cs).flatten = done.reverse.flatten ++ line.reverse ++ cs := by
  induction cs generalizing line done with
  | nil =>
      simp only [keepEnds.go]
      split <;> simp_all
  | cons c cs ih =>
      simp only [keepEnds.go]
      split <;> simp [ih]

/-- Put together again, the lines are the text. -/
@[simp] theorem flatten_keepEnds (cs : List Char) : (keepEnds cs).flatten = cs := by
  simp [keepEnds, flatten_keepEnds_go]

/-- The part of a line before its ending, and the ending. -/
def splitEnding (line : List Char) : List Char × List Char :=
  match line.reverse with
  | '\n' :: '\r' :: body => (body.reverse, ['\r', '\n'])
  | '\n' :: body => (body.reverse, ['\n'])
  | _ => (line, [])

/-- A line is its body followed by its ending. -/
theorem splitEnding_append (line : List Char) :
    (splitEnding line).1 ++ (splitEnding line).2 = line := by
  unfold splitEnding
  split
  · rename_i body h
    have := congrArg List.reverse h
    simpa using this.symm
  · rename_i body _ h
    have := congrArg List.reverse h
    simpa using this.symm
  · simp

/-- The lines without their endings. -/
def bodies (cs : List Char) : List (List Char) := (keepEnds cs).map fun line => (splitEnding line).1

/-- The lines without their endings, numbered from one. -/
def numbered (cs : List Char) : List (Nat × List Char) :=
  (bodies cs).zipIdx.map fun (line, i) => (i + 1, line)

/-- The byte offset at which each line begins; there is a last, empty line after a final line feed. -/
def lineStarts (cs : List Char) : List Nat :=
  let rec go (offset : Nat) (done : List Nat) : List Char → List Nat
    | [] => done.reverse
    | c :: cs =>
        let next := offset + c.utf8Size
        go next (if c = '\n' then next :: done else done) cs
  go 0 [0] cs

/-- Line number and column of a byte offset, given where the lines begin. -/
def place (starts : List Nat) (offset : Nat) : Nat × Nat :=
  let before := starts.takeWhile (· ≤ offset)
  (before.length, offset - before.getLast?.getD 0)

end LinkKeeper.Text
