import TwistedEdwards.Digits.NonAdjacent
import TwistedEdwards.Multiscalar.Uniform

/-!
# Interleaved sums of multiples

Each term's scalar is expanded in non-adjacent form of width 5, and all terms
share one accumulator.  From the highest position where any term has a digit, the
accumulator is doubled once a position, and every term with a digit there adds
or subtracts an odd multiple from its table.

Main statement: `Interleaved.raise_eq`, the positions start where the longest
expansion does.
-/

namespace TwistedEdwards

/-- The width of the non-adjacent forms. -/
def nonAdjacentWidth : Nat := 5

namespace Interleaved

/-- A term made ready: its digits and its table. -/
structure Prepared where
  digits : ByteRow
  table : OddTable

/-- The form of a term, and the odd multiples of its point. -/
def prepare (term : Term) : Prepared :=
  ⟨ByteRow.ofDigits (Digits.nonAdjacent nonAdjacentWidth term.scalar), OddTable.ofPoint term.point⟩

/-- Raises a number of positions to what a row needs, looking at its places below `n`
from the top down and only at those above the number so far. -/
def raise (row : ByteRow) (top : Nat) : (n : Nat) → Nat
  | 0 => top
  | n + 1 => if n < top then top else if row.digit n = 0 then raise row top n else n + 1

/-- How many positions the longest expansion takes. -/
def positions (terms : List Prepared) : Nat :=
  terms.foldl (fun top term => raise term.digits top 256) 0

/-- Adds a term's multiple for its digit at a position. -/
def addDigit (pos : Nat) (acc : Point) (term : Prepared) : Point :=
  term.table.addDigit (term.digits.digit pos) acc

/-- One position: a doubling, then the digit of every term. -/
def position (terms : List Prepared) (pos : Nat) (acc : Point) : Point :=
  terms.foldl (addDigit pos) acc.double

/-- Runs through the positions, the highest first. -/
def evaluate (terms : List Prepared) : Point :=
  (positions terms).foldRev (fun pos _ acc => position terms pos acc) Point.identity

/-- The sum of the multiples. -/
def sum (terms : List Term) : Point := evaluate (terms.map prepare)

theorem sum_nil : sum [] = Point.identity := rfl

/-- Raising gives the larger of the number so far and what the row needs. -/
theorem raise_eq (row : ByteRow) (top n : Nat) :
    raise row top n = max top (row.significant n) := by
  induction n with
  | zero => exact (Nat.max_zero top).symm
  | succ n ih =>
    have hle := row.significant_le n
    simp only [raise, ByteRow.significant]
    split
    · split <;> omega
    · split
      · exact ih
      · omega

end Interleaved

end TwistedEdwards
