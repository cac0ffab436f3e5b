import TwistedEdwards.Point.Addition

/-!
# Tables of multiples

A multiplication looks its digits up in a small table of cached multiples.  The
centred digits of radix 16 need the multiples from 1 to 8; a non-adjacent form of
width 5 needs the odd ones from 1 to 15.

Main statement: `OddTable.length_oddMultiples`, the table has as many entries as asked for.
-/

namespace TwistedEdwards

/-- The multiples from 1 to 8, in order. -/
abbrev CentredTable := List CachedPoint

namespace CentredTable

/-- Even multiples are doubled, odd ones are added. -/
def ofPoint (p : Point) : CentredTable :=
  let p2 := p.double
  let p3 := p2 + p
  let p4 := p2.double
  let p5 := p4 + p
  let p6 := p3.double
  let p7 := p6 + p
  let p8 := p4.double
  [p, p2, p3, p4, p5, p6, p7, p8].map Point.cached

/-- The entry with the given number, looking at every entry in turn; the neutral
element if there is none. -/
def entry (table : CentredTable) (number : Nat) : CachedPoint :=
  (table.zipIdx 1).foldl (fun found (candidate, i) => found.select candidate (number == i))
    CachedPoint.identity

/-- The multiple for a digit: the entry of its magnitude, negated for a negative
digit. -/
def select (table : CentredTable) (digit : Int) : CachedPoint :=
  (table.entry digit.natAbs).negateIf (digit < 0)

end CentredTable

/-- The odd multiples from 1 to 15, in order. -/
abbrev OddTable := Array CachedPoint

namespace OddTable

/-- The next `n` odd multiples from `p` on, `twice` apart. -/
def oddMultiples (twice : CachedPoint) : (n : Nat) → Point → List CachedPoint
  | 0, _ => []
  | n + 1, p => p.cached :: oddMultiples twice n (p.addCached twice).extended

/-- The first eight odd multiples. -/
def ofPoint (p : Point) : OddTable := (oddMultiples p.double.cached 8 p).toArray

/-- The place of the multiple for the magnitude of an odd digit. -/
def place (digit : Int) : Nat := digit.natAbs / 2

/-- The multiple for the magnitude of an odd digit. -/
def entry (table : OddTable) (digit : Int) : CachedPoint :=
  table.getD (place digit) CachedPoint.identity

theorem length_oddMultiples (twice : CachedPoint) (n : Nat) (p : Point) :
    (oddMultiples twice n p).length = n := by
  induction n generalizing p with
  | zero => rfl
  | succ n ih => simp [oddMultiples, ih]

/-- Adds the multiple for a digit: nothing for zero, and a difference for a negative
digit. -/
def addDigit (table : OddTable) (digit : Int) (acc : Point) : Point :=
  if 0 < digit then (acc.addCached (table.entry digit)).extended
  else if digit < 0 then (acc.subCached (table.entry digit)).extended
  else acc

theorem addDigit_zero (table : OddTable) (acc : Point) : table.addDigit 0 acc = acc := rfl

end OddTable

end TwistedEdwards
