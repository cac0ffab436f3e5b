import TwistedEdwards.Point.Encoding
import TwistedEdwards.Point.Predicate
import TwistedEdwards.Proofs.Exact.Power
import TwistedEdwards.Proofs.Point.Decoding

/-!
# Point formulas on a machine

Whether a formula loses anything depends on the limbs alone, not on the curve.  Small
points, small cached points and small completed points have the limbs that the formulas
leave room for; each formula gives a small result from small operands and runs on every
faithful machine, and so do the tests, the writing and the reading of a point.

Main statements: `Point.Small.addOn_eq`, `Point.Small.subOn_eq`, `Point.Small.doubleOn_eq`,
`Point.Small.onCurveOn_eq`, `Point.Small.toOctetsOn_eq` and `Point.decodeOn_eq`.
-/

namespace TwistedEdwards

section Definitions

variable (M : Machine)

/-- The negative of a cached point: two coordinates change places and one is negated. -/
def CachedPoint.negOn (q : CachedPoint) : Option CachedPoint := do
  return ⟨q.yMinusX, q.yPlusX, q.z, ← q.t2d.negOn M⟩

/-- The negative is computed whether it is taken or not. -/
def CachedPoint.negateIfOn (q : CachedPoint) (bit : Bool) : Option CachedPoint := do
  return q.select (← q.negOn M) bit

/-- Four products give the coordinates of the quadruple. -/
def CompletedPoint.extendedOn (c : CompletedPoint) : Option Point := do
  return ⟨← c.x.mulOn M c.t, ← c.y.mulOn M c.z, ← c.z.mulOn M c.t, ← c.x.mulOn M c.y⟩

namespace Point

/-- The negative: the abscissa and the product change their signs. -/
def negOn (p : Point) : Option Point := do
  return ⟨← p.x.negOn M, p.y, p.z, ← p.t.negOn M⟩

/-- The sum and the difference of the coordinates, and the product with twice the constant. -/
def cachedOn (p : Point) : Option CachedPoint := do
  return ⟨← p.y.addOn M p.x, ← p.y.subOn M p.x, p.z, ← p.t.mulOn M Curve.twoD⟩

/-- The addition formula on a cached point. -/
def addCachedOn (p : Point) (q : CachedPoint) : Option CompletedPoint := do
  let pp ← (← p.y.addOn M p.x).mulOn M q.yPlusX
  let mm ← (← p.y.subOn M p.x).mulOn M q.yMinusX
  let tt ← p.t.mulOn M q.t2d
  let zz ← p.z.mulOn M q.z
  let zz2 ← zz.addOn M zz
  return ⟨← pp.subOn M mm, ← pp.addOn M mm, ← zz2.addOn M tt, ← zz2.subOn M tt⟩

/-- The addition formula with the coordinates of the cached point exchanged and its product
subtracted. -/
def subCachedOn (p : Point) (q : CachedPoint) : Option CompletedPoint := do
  let pm ← (← p.y.addOn M p.x).mulOn M q.yMinusX
  let mp ← (← p.y.subOn M p.x).mulOn M q.yPlusX
  let tt ← p.t.mulOn M q.t2d
  let zz ← p.z.mulOn M q.z
  let zz2 ← zz.addOn M zz
  return ⟨← pm.subOn M mp, ← pm.addOn M mp, ← zz2.subOn M tt, ← zz2.addOn M tt⟩

/-- The sum with a cached point, multiplied out. -/
def plusOn (p : Point) (q : CachedPoint) : Option Point := do
  (← p.addCachedOn M q).extendedOn M

/-- The difference from a cached point, multiplied out. -/
def minusOn (p : Point) (q : CachedPoint) : Option Point := do
  (← p.subCachedOn M q).extendedOn M

/-- The sum of two points; the second is cached first. -/
def addOn (p q : Point) : Option Point := do
  p.plusOn M (← q.cachedOn M)

/-- The difference of two points; the second is cached first. -/
def subOn (p q : Point) : Option Point := do
  p.minusOn M (← q.cachedOn M)

/-- The doubling formula, which takes squares only. -/
def doubleCompletedOn (p : Point) : Option CompletedPoint := do
  let xx ← p.x.squareOn M
  let yy ← p.y.squareOn M
  let zz2 ← p.z.doubleSquareOn M
  let s ← (← p.x.addOn M p.y).squareOn M
  let sum ← yy.addOn M xx
  let difference ← yy.subOn M xx
  return ⟨← s.subOn M sum, sum, difference, ← zz2.subOn M difference⟩

/-- The double, multiplied out. -/
def doubleOn (p : Point) : Option Point := do
  (← p.doubleCompletedOn M).extendedOn M

/-- Doubles `n` times. -/
def doubleTimesOn (n : Nat) (p : Point) : Option Point :=
  Machine.repeatOn (doubleOn M) n p

/-- The multiple by eight. -/
def mulCofactorOn (p : Point) : Option Point := doubleTimesOn M 3 p

/-- Both comparisons are made. -/
def sameOn (p q : Point) : Option Bool := do
  let abscissas ← (← p.x.mulOn M q.z).sameOn M (← q.x.mulOn M p.z)
  let ordinates ← (← p.y.mulOn M q.z).sameOn M (← q.y.mulOn M p.z)
  return abscissas && ordinates

/-- The two tests of a neutral point. -/
def isIdentityOn (p : Point) : Option Bool := do
  let nonzero ← p.x.isNonzeroOn M
  let equal ← p.y.sameOn M p.z
  return !nonzero && equal

/-- The two equations of a point of the curve and the test of its `Z`. -/
def onCurveOn (p : Point) : Option Bool := do
  let xx ← p.x.squareOn M
  let yy ← p.y.squareOn M
  let zz ← p.z.squareOn M
  let product ← (← p.x.mulOn M p.y).sameOn M (← p.z.mulOn M p.t)
  let left ← (← yy.subOn M xx).mulOn M zz
  let right ← (← zz.squareOn M).addOn M (← (← xx.mulOn M yy).mulOn M Curve.d)
  let equation ← left.sameOn M right
  let nonzero ← p.z.isNonzeroOn M
  return product && equation && nonzero

/-- The affine coordinates, then the ordinate with the parity of the abscissa. -/
def toOctetsOn (p : Point) : Option (Octets 32) := do
  let zInverse ← p.z.inverseOn M
  let x ← p.x.mulOn M zInverse
  let y ← p.y.mulOn M zInverse
  let octets ← y.toOctetsOn M
  return octets.xorTopBit (← x.isNegativeOn M)

/-- The machine may stop, and where it does not the string may have no ordinate. -/
def ordinateOn (bs : Octets 32) : Option (Option FieldElement) := do
  let y := FieldElement.ofOctets bs
  return if (← y.toOctetsOn M).difference bs.clearTopBit = 0 then some y else none

/-- The ratio of the two sides and its root. -/
def abscissaOn (y : FieldElement) : Option (Option FieldElement) := do
  let yy ← y.squareOn M
  let u ← yy.subOn M .one
  let v ← (← yy.mulOn M Curve.d).addOn M .one
  u.sqrtRatioOn M v

/-- Sets the coordinates in their order; only the sign and the product are computed. -/
def writeAffineOn (r : Point) (x y : FieldElement) (odd : Bool) : Option Point := do
  let r := { r with x := ← x.negateIfOn M odd }
  let r := { r with y := y }
  let r := { r with z := .one }
  return { r with t := ← r.x.mulOn M y }

/-- The test of an odd zero, then the coordinates. -/
def readAbscissaOn (r : Point) (odd : Bool) (y : FieldElement) :
    Option FieldElement → Option Reading
  | none => some ⟨r, DecodeError.notOnCurve.code⟩
  | some x => do
    if odd && !(← x.isNonzeroOn M) then some ⟨r, DecodeError.invalidEncoding.code⟩
    else return ⟨← r.writeAffineOn M x y odd, 0⟩

/-- The root for an ordinate that was accepted. -/
def readOrdinateOn (r : Point) (odd : Bool) : Option FieldElement → Option Reading
  | none => some ⟨r, DecodeError.invalidEncoding.code⟩
  | some y => do r.readAbscissaOn M odd y (← abscissaOn M y)

/-- Reads a string into the point that is handed in. -/
def readOctetsOn (r : Point) (bs : Octets 32) : Option Reading := do
  r.readOrdinateOn M bs.topBit (← ordinateOn M bs)

/-- Reads a string into a neutral point and turns the status into an error. -/
def decodeOn (bs : Octets 32) : Option (Except DecodeError Point) := do
  return (← identity.readOctetsOn M bs).result

end Point

end Definitions

/-- The limbs that the formulas have room for in a cached point. -/
structure CachedPoint.Small (q : CachedPoint) : Prop where
  yPlusX : q.yPlusX.Bounded (2 ^ 53)
  yMinusX : q.yMinusX.Bounded (2 ^ 53)
  z : q.z.Bounded (2 ^ 52)
  t2d : q.t2d.Bounded (2 ^ 52)

/-- The limbs that the formulas leave in a completed point. -/
structure CompletedPoint.Small (c : CompletedPoint) : Prop where
  x : c.x.Bounded (2 ^ 53)
  y : c.y.Bounded (2 ^ 53)
  z : c.z.Bounded (2 ^ 53)
  t : c.t.Bounded (2 ^ 53)

/-- The limbs that the formulas have room for in a point. -/
structure Point.Small (p : Point) : Prop where
  x : p.x.Bounded (2 ^ 52)
  y : p.y.Bounded (2 ^ 52)
  z : p.z.Bounded (2 ^ 52)
  t : p.t.Bounded (2 ^ 52)

theorem Point.Valid.small {p : Point} (hp : p.Valid) : p.Small := ⟨hp.x, hp.y, hp.z, hp.t⟩

theorem Point.identity_small : Point.identity.Small := identity_denotes.valid.small

theorem CachedPoint.identity_small : CachedPoint.identity.Small :=
  ⟨by decide, by decide, by decide, by decide⟩

/-- Twice the curve constant has limbs below the radix. -/
theorem Curve.bounded_twoD : Curve.twoD.Bounded (2 ^ 51) := by decide

/-- The curve constant has limbs below the radix. -/
theorem Curve.bounded_d : Curve.d.Bounded (2 ^ 51) := by decide

section Laws

variable {M : Machine} (hM : M.Faithful)
include hM

/-- The negative of a small cached point is computed and is small. -/
theorem CachedPoint.Small.negOn_eq {q : CachedPoint} (hq : q.Small) :
    q.negOn M = some (-q) ∧ (-q).Small := by
  obtain ⟨et, ht⟩ := hq.t2d.negOn_eq hM (by decide)
  refine ⟨?_, hq.yMinusX, hq.yPlusX, hq.z, ht.mono (by decide)⟩
  rw [CachedPoint.negOn, et]
  rfl

theorem CachedPoint.Small.negateIfOn_eq {q : CachedPoint} (hq : q.Small) (bit : Bool) :
    q.negateIfOn M bit = some (q.negateIf bit) ∧ (q.negateIf bit).Small := by
  obtain ⟨hrun, hneg⟩ := hq.negOn_eq hM
  refine ⟨?_, ?_⟩
  · rw [CachedPoint.negateIfOn, hrun]
    rfl
  · rw [CachedPoint.negateIf, CachedPoint.select_eq]
    split
    · exact hneg
    · exact hq

/-- Products are carried, so what is multiplied out is small. -/
theorem CompletedPoint.Small.extendedOn_eq {c : CompletedPoint} (hc : c.Small) :
    c.extendedOn M = some c.extended ∧ c.extended.Small := by
  obtain ⟨ex, hx⟩ := hc.x.mulOn_eq hM hc.t (by decide)
  obtain ⟨ey, hy⟩ := hc.y.mulOn_eq hM hc.z (by decide)
  obtain ⟨ez, hz⟩ := hc.z.mulOn_eq hM hc.t (by decide)
  obtain ⟨et, ht⟩ := hc.x.mulOn_eq hM hc.y (by decide)
  refine ⟨?_, hx.mono (by decide), hy.mono (by decide), hz.mono (by decide),
    ht.mono (by decide)⟩
  simp only [CompletedPoint.extendedOn, ex, ey, ez, et, Option.bind_eq_bind, Option.bind_some]
  rfl

namespace Point

variable {p q : Point}

theorem Small.negOn_eq (hp : p.Small) : p.negOn M = some (-p) ∧ (-p).Small := by
  obtain ⟨ex, hx⟩ := hp.x.negOn_eq hM (by decide)
  obtain ⟨et, ht⟩ := hp.t.negOn_eq hM (by decide)
  rw [neg_def, neg]
  refine ⟨?_, hx.mono (by decide), hp.y, hp.z, ht.mono (by decide)⟩
  simp only [negOn, ex, et, Option.bind_eq_bind, Option.bind_some]
  rfl

/-- Small coordinates leave room for their sum and their difference. -/
theorem Small.cachedOn_eq (hp : p.Small) : p.cachedOn M = some p.cached ∧ p.cached.Small := by
  obtain ⟨eplus, bplus⟩ := hp.y.addOn_eq hM hp.x (by decide)
  obtain ⟨eminus, bminus⟩ := hp.y.subOn_eq hM hp.x (by decide)
  obtain ⟨et, ht⟩ := hp.t.mulOn_eq hM Curve.bounded_twoD (by decide)
  refine ⟨?_, bplus.mono (by decide), bminus.mono (by decide), hp.z, ht.mono (by decide)⟩
  simp only [cachedOn, eplus, eminus, et, Option.bind_eq_bind, Option.bind_some]
  rfl

theorem Small.addCachedOn_eq {q : CachedPoint} (hp : p.Small) (hq : q.Small) :
    p.addCachedOn M q = some (p.addCached q) ∧ (p.addCached q).Small := by
  obtain ⟨eplus, bplus⟩ := hp.y.addOn_eq hM hp.x (by decide)
  obtain ⟨epp, bpp⟩ := bplus.mulOn_eq hM hq.yPlusX (by decide)
  obtain ⟨eminus, bminus⟩ := hp.y.subOn_eq hM hp.x (by decide)
  obtain ⟨emm, bmm⟩ := bminus.mulOn_eq hM hq.yMinusX (by decide)
  obtain ⟨ett, btt⟩ := hp.t.mulOn_eq hM hq.t2d (by decide)
  obtain ⟨ezz, bzz⟩ := hp.z.mulOn_eq hM hq.z (by decide)
  obtain ⟨ezz2, bzz2⟩ := bzz.addOn_eq hM bzz (by decide)
  obtain ⟨ex, hx⟩ := bpp.subOn_eq hM bmm (by decide)
  obtain ⟨ey, hy⟩ := bpp.addOn_eq hM bmm (by decide)
  obtain ⟨ez, hz⟩ := bzz2.addOn_eq hM btt (by decide)
  obtain ⟨et, ht⟩ := bzz2.subOn_eq hM btt (by decide)
  refine ⟨?_, hx.mono (by decide), hy.mono (by decide), hz.mono (by decide),
    ht.mono (by decide)⟩
  simp only [addCachedOn, eplus, epp, eminus, emm, ett, ezz, ezz2, ex, ey, ez, et,
    Option.bind_eq_bind, Option.bind_some]
  rfl

/-- The formula of the difference, product by product. -/
theorem Small.subCachedOn_eq {q : CachedPoint} (hp : p.Small) (hq : q.Small) :
    p.subCachedOn M q = some (p.subCached q) ∧ (p.subCached q).Small := by
  obtain ⟨eplus, bplus⟩ := hp.y.addOn_eq hM hp.x (by decide)
  obtain ⟨epm, bpm⟩ := bplus.mulOn_eq hM hq.yMinusX (by decide)
  obtain ⟨eminus, bminus⟩ := hp.y.subOn_eq hM hp.x (by decide)
  obtain ⟨emp, bmp⟩ := bminus.mulOn_eq hM hq.yPlusX (by decide)
  obtain ⟨ett, btt⟩ := hp.t.mulOn_eq hM hq.t2d (by decide)
  obtain ⟨ezz, bzz⟩ := hp.z.mulOn_eq hM hq.z (by decide)
  obtain ⟨ezz2, bzz2⟩ := bzz.addOn_eq hM bzz (by decide)
  obtain ⟨ex, hx⟩ := bpm.subOn_eq hM bmp (by decide)
  obtain ⟨ey, hy⟩ := bpm.addOn_eq hM bmp (by decide)
  obtain ⟨ez, hz⟩ := bzz2.subOn_eq hM btt (by decide)
  obtain ⟨et, ht⟩ := bzz2.addOn_eq hM btt (by decide)
  refine ⟨?_, hx.mono (by decide), hy.mono (by decide), hz.mono (by decide),
    ht.mono (by decide)⟩
  simp only [subCachedOn, eplus, epm, eminus, emp, ett, ezz, ezz2, ex, ey, ez, et,
    Option.bind_eq_bind, Option.bind_some]
  rfl

theorem Small.plusOn_eq {q : CachedPoint} (hp : p.Small) (hq : q.Small) :
    p.plusOn M q = some (p.addCached q).extended ∧ (p.addCached q).extended.Small := by
  obtain ⟨hrun, hsmall⟩ := hp.addCachedOn_eq hM hq
  rw [plusOn, hrun]
  exact hsmall.extendedOn_eq hM

theorem Small.minusOn_eq {q : CachedPoint} (hp : p.Small) (hq : q.Small) :
    p.minusOn M q = some (p.subCached q).extended ∧ (p.subCached q).extended.Small := by
  obtain ⟨hrun, hsmall⟩ := hp.subCachedOn_eq hM hq
  rw [minusOn, hrun]
  exact hsmall.extendedOn_eq hM

theorem Small.addOn_eq (hp : p.Small) (hq : q.Small) :
    p.addOn M q = some (p + q) ∧ (p + q).Small := by
  obtain ⟨hrun, hsmall⟩ := hq.cachedOn_eq hM
  rw [addOn, hrun]
  exact hp.plusOn_eq hM hsmall

/-- The difference of small points runs and is small. -/
theorem Small.subOn_eq (hp : p.Small) (hq : q.Small) :
    p.subOn M q = some (p - q) ∧ (p - q).Small := by
  obtain ⟨hrun, hsmall⟩ := hq.cachedOn_eq hM
  rw [subOn, hrun]
  exact hp.minusOn_eq hM hsmall

/-- The doubling formula; the square of a sum is the widest of its operands. -/
theorem Small.doubleCompletedOn_eq (hp : p.Small) :
    p.doubleCompletedOn M = some p.doubleCompleted ∧ p.doubleCompleted.Small := by
  obtain ⟨exx, bxx⟩ := hp.x.squareOn_eq hM (by decide)
  obtain ⟨eyy, byy⟩ := hp.y.squareOn_eq hM (by decide)
  obtain ⟨ezz2, bzz2⟩ := hp.z.doubleSquareOn_eq hM (by decide)
  obtain ⟨eplus, bplus⟩ := hp.x.addOn_eq hM hp.y (by decide)
  obtain ⟨es, bs⟩ := bplus.squareOn_eq hM (by decide)
  obtain ⟨esum, bsum⟩ := byy.addOn_eq hM bxx (by decide)
  obtain ⟨edifference, bdifference⟩ := byy.subOn_eq hM bxx (by decide)
  obtain ⟨ex, hx⟩ := bs.subOn_eq hM bsum (by decide)
  obtain ⟨et, ht⟩ := bzz2.subOn_eq hM bdifference (by decide)
  refine ⟨?_, hx.mono (by decide), bsum.mono (by decide), bdifference.mono (by decide),
    ht.mono (by decide)⟩
  simp only [doubleCompletedOn, exx, eyy, ezz2, eplus, es, esum, edifference, ex, et,
    Option.bind_eq_bind, Option.bind_some]
  rfl

/-- The double of a small point runs and is small. -/
theorem Small.doubleOn_eq (hp : p.Small) : p.doubleOn M = some p.double ∧ p.double.Small := by
  obtain ⟨hrun, hsmall⟩ := hp.doubleCompletedOn_eq hM
  rw [doubleOn, hrun]
  exact hsmall.extendedOn_eq hM

/-- Doubling keeps points small, so it can be repeated. -/
theorem Small.doubleTimesOn_eq (hp : p.Small) (n : Nat) :
    doubleTimesOn M n p = some (p.doubleTimes n) ∧ (p.doubleTimes n).Small := by
  have hstep : ∀ q : Point, q.Small → q.doubleOn M = some q.double ∧ q.double.Small :=
    fun _ hq => hq.doubleOn_eq hM
  exact Machine.repeatOn_eq hstep hp n

theorem Small.sameOn_eq (hp : p.Small) (hq : q.Small) : p.sameOn M q = some (p.same q) := by
  obtain ⟨exq, bxq⟩ := hp.x.mulOn_eq hM hq.z (by decide)
  obtain ⟨exp, bxp⟩ := hq.x.mulOn_eq hM hp.z (by decide)
  obtain ⟨eyq, byq⟩ := hp.y.mulOn_eq hM hq.z (by decide)
  obtain ⟨eyp, byp⟩ := hq.y.mulOn_eq hM hp.z (by decide)
  have ex := FieldElement.sameOn_eq hM bxq bxp (by decide) (by decide)
  have ey := FieldElement.sameOn_eq hM byq byp (by decide) (by decide)
  simp only [sameOn, exq, exp, eyq, eyp, ex, ey, Option.bind_eq_bind, Option.bind_some]
  rfl

theorem Small.isIdentityOn_eq (hp : p.Small) : p.isIdentityOn M = some p.isIdentity := by
  have ex := FieldElement.isNonzeroOn_eq hM hp.x (by decide)
  have ey := FieldElement.sameOn_eq hM hp.y hp.z (by decide) (by decide)
  simp only [isIdentityOn, ex, ey, Option.bind_eq_bind, Option.bind_some]
  rfl

/-- All three tests of a small point run, whether it is on the curve or not. -/
theorem Small.onCurveOn_eq (hp : p.Small) : p.onCurveOn M = some p.onCurve := by
  obtain ⟨exx, bxx⟩ := hp.x.squareOn_eq hM (by decide)
  obtain ⟨eyy, byy⟩ := hp.y.squareOn_eq hM (by decide)
  obtain ⟨ezz, bzz⟩ := hp.z.squareOn_eq hM (by decide)
  obtain ⟨exy, bxy⟩ := hp.x.mulOn_eq hM hp.y (by decide)
  obtain ⟨ezt, bzt⟩ := hp.z.mulOn_eq hM hp.t (by decide)
  have eproduct := FieldElement.sameOn_eq hM bxy bzt (by decide) (by decide)
  obtain ⟨edifference, bdifference⟩ := byy.subOn_eq hM bxx (by decide)
  obtain ⟨eleft, bleft⟩ := bdifference.mulOn_eq hM bzz (by decide)
  obtain ⟨ezz2, bzz2⟩ := bzz.squareOn_eq hM (by decide)
  obtain ⟨exxyy, bxxyy⟩ := bxx.mulOn_eq hM byy (by decide)
  obtain ⟨ed, bd⟩ := bxxyy.mulOn_eq hM Curve.bounded_d (by decide)
  obtain ⟨eright, bright⟩ := bzz2.addOn_eq hM bd (by decide)
  have eequation := FieldElement.sameOn_eq hM bleft bright (by decide) (by decide)
  have enonzero := FieldElement.isNonzeroOn_eq hM hp.z (by decide)
  simp only [onCurveOn, exx, eyy, ezz, exy, ezt, eproduct, edifference, eleft, ezz2, exxyy, ed,
    eright, eequation, enonzero, Option.bind_eq_bind, Option.bind_some]
  rfl

/-- A small point is written, whether it is on the curve or not. -/
theorem Small.toOctetsOn_eq (hp : p.Small) : p.toOctetsOn M = some p.toOctets := by
  have binverse := hp.z.inverse (by decide)
  have einverse := FieldElement.inverseOn_eq hM hp.z (by decide)
  obtain ⟨ex, hx⟩ := hp.x.mulOn_eq hM binverse (by decide)
  obtain ⟨ey, hy⟩ := hp.y.mulOn_eq hM binverse (by decide)
  have eoctets := FieldElement.toOctetsOn_eq hM hy (by decide)
  have eodd := FieldElement.isNegativeOn_eq hM hx (by decide)
  simp only [toOctetsOn, einverse, ex, ey, eoctets, eodd, Option.bind_eq_bind, Option.bind_some]
  rfl

/-- Every string has limbs below the radix, so its ordinate is tested. -/
theorem ordinateOn_eq (bs : Octets 32) : ordinateOn M bs = some (ordinate? bs) := by
  have hread : (FieldElement.ofOctets bs).Bounded (2 ^ 51) := FieldElement.bounded_ofWord256 _
  rw [ordinateOn, FieldElement.toOctetsOn_eq hM hread (by decide)]
  rfl

/-- The root is computed for every ordinate that was read. -/
theorem abscissaOn_eq {y : FieldElement} (hy : y.Bounded (2 ^ 51)) :
    abscissaOn M y = some (abscissa? y) := by
  have bone : FieldElement.one.Bounded (2 ^ 51) := FieldElement.one_denotes.bounded
  obtain ⟨eyy, byy⟩ := hy.squareOn_eq hM (by decide)
  obtain ⟨eu, bu⟩ := byy.subOn_eq hM bone (by decide)
  obtain ⟨ed, bd⟩ := byy.mulOn_eq hM Curve.bounded_d (by decide)
  obtain ⟨ev, bv⟩ := bd.addOn_eq hM bone (by decide)
  simp only [abscissaOn, eyy, eu, ed, ev, Option.bind_eq_bind, Option.bind_some]
  exact FieldElement.sqrtRatioOn_eq hM (bu.mono (by decide)) (bv.mono (by decide))

/-- The sign and the product of the coordinates that are set. -/
theorem writeAffineOn_eq {x y : FieldElement} (r : Point) (hx : x.Bounded (2 ^ 52))
    (hy : y.Bounded (2 ^ 52)) (odd : Bool) :
    r.writeAffineOn M x y odd = some (r.writeAffine x y odd) := by
  have esigned := FieldElement.negateIfOn_eq hM hx odd (by decide)
  have hsigned := (hx.denotes.negateIf odd).bounded
  have et := FieldElement.mulOn_eq hM hsigned hy (by decide) (by decide)
  simp only [writeAffineOn, esigned, et, Option.bind_eq_bind, Option.bind_some]
  rfl

theorem readAbscissaOn_eq {y : FieldElement} {x : Option FieldElement} (r : Point)
    (hy : y.Bounded (2 ^ 52)) (hx : ∀ f ∈ x, f.Bounded (2 ^ 52)) (odd : Bool) :
    r.readAbscissaOn M odd y x = some (r.readAbscissa odd y x) := by
  cases x with
  | none => rfl
  | some x =>
    have hbound := hx x rfl
    rw [readAbscissaOn, readAbscissa, FieldElement.isNonzeroOn_eq hM hbound (by decide),
      Option.bind_eq_bind, Option.bind_some, writeAffineOn_eq hM r hbound hy]
    split <;> rfl

omit hM in
/-- An ordinate that is accepted is the element that the string is read as. -/
theorem eq_ofOctets_of_ordinate? {bs : Octets 32} {y : FieldElement}
    (hy : ordinate? bs = some y) : y = FieldElement.ofOctets bs := by
  rw [ordinate?_eq] at hy
  exact (Option.some.inj (Option.ite_none_right_eq_some.mp hy).2).symm

/-- Every string is read or refused, into any point. -/
theorem readOctetsOn_eq (r : Point) (bs : Octets 32) :
    r.readOctetsOn M bs = some (r.readOctets bs) := by
  rw [readOctetsOn, readOctets, ordinateOn_eq hM, Option.bind_eq_bind, Option.bind_some]
  cases hy : ordinate? bs with
  | none => rfl
  | some y =>
    obtain rfl := eq_ofOctets_of_ordinate? hy
    have hstands := ofOctets_denotes bs
    rw [readOrdinateOn, readOrdinate, abscissaOn_eq hM hstands.bounded, Option.bind_eq_bind,
      Option.bind_some]
    apply readAbscissaOn_eq hM r (hstands.bounded.mono (by decide))
    intro x hx
    obtain ⟨root, hroot, -⟩ := abscissa?_eq_some hstands hx
    exact hroot.bounded

/-- Every string is decoded or refused. -/
theorem decodeOn_eq (bs : Octets 32) : decodeOn M bs = some (decode bs) := by
  rw [decodeOn, readOctetsOn_eq hM]
  rfl

end Point

end Laws

end TwistedEdwards
