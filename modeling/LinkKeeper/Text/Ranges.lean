/-!
# Tables of code points

The character classes of the Unicode standard are long lists of code points. A
table holds them as inclusive ranges, and is written as rows of hexadecimal text:
`41-5A` for a range, `5F` for a single point.
-/

namespace LinkKeeper.Text

/-- The value of a hexadecimal digit in upper case; other characters count as nothing. -/
def hexUpper (c : Char) : Nat :=
  if '0' ≤ c ∧ c ≤ '9' then c.toNat - '0'.toNat
  else if 'A' ≤ c ∧ c ≤ 'F' then c.toNat - 'A'.toNat + 10
  else 0

/-- Inclusive ranges of code points, in increasing order. -/
structure Ranges where
  rows : List (Nat × Nat)

namespace Ranges

/-- One pass over a row: the ranges read so far, the lower end of an open range, the number at hand. -/
private def step : List (Nat × Nat) × Option Nat × Nat → Char →
    List (Nat × Nat) × Option Nat × Nat
  | (done, low, n), ' ' => ((low.getD n, n) :: done, none, 0)
  | (done, _, n), '-' => (done, some n, 0)
  | (done, low, n), c => (done, low, 16 * n + hexUpper c)

/-- Reads the rows of a table. -/
def ofHex (rows : List String) : Ranges :=
  let (done, _, _) := rows.foldl (fun s row => step (row.toList.foldl step s) ' ') ([], none, 0)
  ⟨done.reverse⟩

/-- Whether the character lies in one of the ranges. -/
def contains (r : Ranges) (c : Char) : Bool :=
  r.rows.any fun (low, high) => low ≤ c.toNat && c.toNat ≤ high

end Ranges

end LinkKeeper.Text
