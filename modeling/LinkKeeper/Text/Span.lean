import LinkKeeper.Text.Basic
import LinkKeeper.Text.Blank

/-!
# Spans and matches on a line

A `Piece` is a part of a line together with the byte column where it starts.
`matchesOf` collects the parts that a recogniser finds: from the left, never
overlapping, and with the character before each place in view, because some
recognisers care what they follow.
-/

namespace LinkKeeper.Text

/-- The bytes from `start` up to but not including `stop`. -/
structure Span where
  start : Nat
  stop : Nat
  deriving DecidableEq, Repr

namespace Span

/-- Whether two spans share a byte. -/
def meets (a b : Span) : Bool := a.start < b.stop && b.start < a.stop

/-- Whether a span shares a byte with one already claimed. -/
def isClaimed (claimed : List Span) (s : Span) : Bool := claimed.any fun c => s.meets c

end Span

/-- Characters of a line and the byte column where they start. -/
structure Piece where
  start : Nat
  text : List Char
  deriving DecidableEq, Repr

namespace Piece

/-- The column after the last byte. -/
def stop (p : Piece) : Nat := p.start + width p.text

/-- The bytes the piece takes. -/
def span (p : Piece) : Span := ⟨p.start, p.stop⟩

/-- The piece of a longer line in which `n` bytes come first. -/
def shift (n : Nat) (p : Piece) : Piece := ⟨n + p.start, p.text⟩

end Piece

/-- The pieces that share no byte with a claimed span. -/
def unclaimed (claimed : List Span) (pieces : List Piece) : List Piece :=
  pieces.filter fun p => !p.span.isClaimed claimed

/--
A recogniser looks at the rest of a line and at the character before it. When it
finds something it says how many characters that takes, at least one.
-/
abbrev Recogniser (α : Type) := Option Char → List Char → Option (α × Nat)

/-- `matchesOf` with the place in the line and the characters still to be passed over. -/
def matchesFrom {α : Type} (find : Recogniser α) :
    Nat → Option Char → Nat → List Char → List (Nat × α)
  | _, _, _, [] => []
  | column, _, skip + 1, c :: cs => matchesFrom find (column + c.utf8Size) (some c) skip cs
  | column, before, 0, c :: cs =>
      match find before (c :: cs) with
      | some (found, length) =>
          (column, found) :: matchesFrom find (column + c.utf8Size) (some c) (length - 1) cs
      | none => matchesFrom find (column + c.utf8Size) (some c) 0 cs

/-- What a recogniser finds on a line, each with its column. -/
def matchesOf {α : Type} (find : Recogniser α) (line : List Char) : List (Nat × α) :=
  matchesFrom find 0 none 0 line

/-- Recognises a longest run of characters of a class. -/
def runOf (p : Char → Bool) : Recogniser (List Char) := fun _ cs =>
  match cs.takeWhile p with
  | [] => none
  | run => some (run, run.length)

/-- The longest runs of characters of a class. -/
def runs (p : Char → Bool) (line : List Char) : List Piece :=
  (matchesOf (runOf p) line).map fun (start, text) => ⟨start, text⟩

/-- The words of a line: what stands between blanks. -/
def words (line : List Char) : List Piece := runs (fun c => !isBlank c) line

/-- Takes characters of one class off the front and of another off the back. -/
def Piece.strip (front back : Char → Bool) (p : Piece) : Piece :=
  let lead := p.text.takeWhile front
  let rest := p.text.dropWhile front
  ⟨p.start + width lead, (rest.reverse.dropWhile back).reverse⟩

end LinkKeeper.Text
