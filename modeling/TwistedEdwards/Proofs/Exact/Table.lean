import TwistedEdwards.Proofs.Exact.Point
import TwistedEdwards.Proofs.Point.Table

/-!
# Tables on a machine

A table made from a small point has small entries, and selecting one, negated or not,
gives a small cached point.

Main statements: `CentredTable.ofPointOn_eq`, `CentredTable.Small.selectOn_eq`,
`OddTable.ofPointOn_eq` and `OddTable.Small.addDigitOn_eq`.
-/

namespace TwistedEdwards

section Definitions

variable (M : Machine)

/-- Eight multiples of a point, each the sum of the one before and the point. -/
def CentredTable.ofPointOn (p : Point) : Option CentredTable := do
  let p2 ← p.doubleOn M
  let p3 ← p2.addOn M p
  let p4 ← p2.doubleOn M
  let p5 ← p4.addOn M p
  let p6 ← p3.doubleOn M
  let p7 ← p6.addOn M p
  let p8 ← p4.doubleOn M
  [p, p2, p3, p4, p5, p6, p7, p8].mapM (Point.cachedOn M)

/-- The entry of the magnitude, negated for a negative digit. -/
def CentredTable.selectOn (table : CentredTable) (digit : Int) : Option CachedPoint :=
  (table.entry digit.natAbs).negateIfOn M (digit < 0)

/-- The odd multiples from a point on, by adding its double. -/
def OddTable.oddMultiplesOn (twice : CachedPoint) : (n : Nat) → Point → Option (List CachedPoint)
  | 0, _ => some []
  | n + 1, p => do
    return (← p.cachedOn M) :: (← oddMultiplesOn twice n (← p.plusOn M twice))

/-- The double of a point and its eight odd multiples. -/
def OddTable.ofPointOn (p : Point) : Option OddTable := do
  let twice ← (← p.doubleOn M).cachedOn M
  return (← oddMultiplesOn M twice 8 p).toArray

/-- Adds or subtracts the entry of a digit, if it is not zero. -/
def OddTable.addDigitOn (table : OddTable) (digit : Int) (acc : Point) : Option Point :=
  if 0 < digit then acc.plusOn M (table.entry digit)
  else if digit < 0 then acc.minusOn M (table.entry digit)
  else some acc

end Definitions

/-- Every entry is small. -/
def CentredTable.Small (table : CentredTable) : Prop := ∀ q ∈ table, q.Small

/-- Every entry is small. -/
def OddTable.Small (table : OddTable) : Prop := ∀ q ∈ table, q.Small

/-- An entry of a small table is small, and so is the neutral one before the first. -/
theorem CentredTable.Small.entry {table : CentredTable} (htable : table.Small) (number : Nat) :
    (table.entry number).Small := by
  have hentry := foldl_select table CachedPoint.identity number 1
  unfold CentredTable.entry
  rw [hentry]
  split
  · cases hfound : table[number - 1]? with
    | none => exact CachedPoint.identity_small
    | some q => exact htable q (List.mem_of_getElem? hfound)
  · exact CachedPoint.identity_small

theorem OddTable.Small.entry {table : OddTable} (htable : table.Small) (digit : Int) :
    (table.entry digit).Small := by
  unfold OddTable.entry
  rw [Array.getD_eq_getD_getElem?]
  cases hfound : table[place digit]? with
  | none => exact CachedPoint.identity_small
  | some q => exact htable q (Array.mem_of_getElem? hfound)

section Laws

variable {M : Machine} {p : Point} (hM : M.Faithful)
include hM

/-- The multiples of a small point are computed and are small. -/
theorem CentredTable.ofPointOn_eq (hp : p.Small) :
    ofPointOn M p = some (ofPoint p) ∧ (ofPoint p).Small := by
  obtain ⟨e2, b2⟩ := hp.doubleOn_eq hM
  obtain ⟨e3, b3⟩ := b2.addOn_eq hM hp
  obtain ⟨e4, b4⟩ := b2.doubleOn_eq hM
  obtain ⟨e5, b5⟩ := b4.addOn_eq hM hp
  obtain ⟨e6, b6⟩ := b3.doubleOn_eq hM
  obtain ⟨e7, b7⟩ := b6.addOn_eq hM hp
  obtain ⟨e8, b8⟩ := b4.doubleOn_eq hM
  have hmultiples : ∀ q ∈ [p, p.double, p.double + p, p.double.double, p.double.double + p,
      (p.double + p).double, (p.double + p).double + p, p.double.double.double], q.Small := by
    simp only [List.forall_mem_cons]
    exact ⟨hp, b2, b3, b4, b5, b6, b7, b8, List.forall_mem_nil _⟩
  simp only [ofPointOn, e2, e3, e4, e5, e6, e7, e8, Option.bind_eq_bind, Option.bind_some]
  exact Machine.mapM_eq_and_forall fun q hq => (hmultiples q hq).cachedOn_eq hM

/-- The entry for any digit is selected and is small. -/
theorem CentredTable.Small.selectOn_eq {table : CentredTable} (htable : table.Small)
    (digit : Int) :
    table.selectOn M digit = some (table.select digit) ∧ (table.select digit).Small :=
  (htable.entry digit.natAbs).negateIfOn_eq hM _

/-- However many odd multiples are asked for, they are computed and small. -/
theorem OddTable.oddMultiplesOn_eq {twice : CachedPoint} (htwice : twice.Small) (hp : p.Small)
    (n : Nat) :
    oddMultiplesOn M twice n p = some (oddMultiples twice n p) ∧
      ∀ q ∈ oddMultiples twice n p, q.Small := by
  induction n generalizing p with
  | zero => exact ⟨rfl, List.forall_mem_nil _⟩
  | succ n ih =>
    obtain ⟨hcached, hsmall⟩ := hp.cachedOn_eq hM
    obtain ⟨hnext, hnextSmall⟩ := hp.plusOn_eq hM htwice
    obtain ⟨hrest, hrestSmall⟩ := ih hnextSmall
    refine ⟨?_, List.forall_mem_cons.mpr ⟨hsmall, hrestSmall⟩⟩
    rw [oddMultiplesOn, hcached, Option.bind_eq_bind, Option.bind_some, hnext,
      Option.bind_eq_bind, Option.bind_some, hrest]
    rfl

/-- The table of a small point is computed and is small. -/
theorem OddTable.ofPointOn_eq (hp : p.Small) :
    ofPointOn M p = some (ofPoint p) ∧ (ofPoint p).Small := by
  obtain ⟨hdouble, hdoubleSmall⟩ := hp.doubleOn_eq hM
  obtain ⟨htwice, htwiceSmall⟩ := hdoubleSmall.cachedOn_eq hM
  obtain ⟨hrun, hsmall⟩ := oddMultiplesOn_eq hM htwiceSmall hp 8
  refine ⟨?_, fun q hq => hsmall q (List.mem_toArray.mp hq)⟩
  rw [ofPointOn, hdouble, Option.bind_eq_bind, Option.bind_some, htwice, Option.bind_eq_bind,
    Option.bind_some, hrun]
  rfl

theorem OddTable.Small.addDigitOn_eq {table : OddTable} (htable : table.Small) {acc : Point}
    (hacc : acc.Small) (digit : Int) :
    table.addDigitOn M digit acc = some (table.addDigit digit acc) ∧
      (table.addDigit digit acc).Small := by
  unfold OddTable.addDigitOn OddTable.addDigit
  split
  · exact hacc.plusOn_eq hM (htable.entry digit)
  · split
    · exact hacc.minusOn_eq hM (htable.entry digit)
    · exact ⟨rfl, hacc⟩

end Laws

end TwistedEdwards
