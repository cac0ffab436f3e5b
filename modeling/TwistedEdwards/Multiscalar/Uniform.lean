import TwistedEdwards.Digits.Radix16
import TwistedEdwards.Point.Table

/-!
# Sums of multiples with a fixed pattern of operations

Each term's scalar is expanded in centred radix 16.  From the top digit down the
accumulator is doubled four times and then every term adds its multiple for the
digit, a zero digit adding the neutral element.  Which operations are done
depends on the number of terms alone.
-/

namespace TwistedEdwards

/-- A scalar of 32 bytes, reduced or not, and the point that it multiplies. -/
structure Term where
  scalar : Octets 32
  point : Point

namespace Uniform

/-- A term made ready: its digits and its table. -/
structure Prepared where
  digits : ByteRow
  table : CentredTable

/-- The digits of a term, and the multiples of its point. -/
def prepare (term : Term) : Prepared :=
  ⟨ByteRow.ofDigits (Digits.radix16 term.scalar), CentredTable.ofPoint term.point⟩

/-- Adds the multiple for the digit at a position. -/
def addDigit (pos : Nat) (acc : Point) (term : Prepared) : Point :=
  (acc.addCached (term.table.select (term.digits.digit pos))).extended

/-- One position: four doublings except at the top, then a digit of every term. -/
def position (terms : List Prepared) (pos : Nat) (acc : Point) : Point :=
  terms.foldl (addDigit pos) (if pos = 63 then acc else acc.doubleTimes 4)

/-- Runs through the positions, the highest first. -/
def evaluate (terms : List Prepared) : Point :=
  Nat.foldRev 64 (fun pos _ acc => position terms pos acc) Point.identity

/-- The sum of the multiples; without terms the neutral element. -/
def sum (terms : List Term) : Point :=
  if terms.isEmpty then Point.identity else evaluate (terms.map prepare)

theorem sum_nil : sum [] = Point.identity := rfl

end Uniform

end TwistedEdwards
