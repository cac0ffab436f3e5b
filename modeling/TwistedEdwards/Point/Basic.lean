import TwistedEdwards.Field.Product

/-!
# Points of the curve

The curve is `-x ^ 2 + y ^ 2 = 1 + d x ^ 2 y ^ 2`.  A point has four coordinates
`(X : Y : Z : T)` with `x = X / Z`, `y = Y / Z` and `X Y = Z T`, so the identity
is `(0 : 1 : 1 : 0)`.  Two more forms serve the addition formulas: a cached
point holds what an addition needs of its second operand, and a completed point
is the raw result of a formula, four factors that are multiplied out in pairs.

Any four field elements are a `Point`; which of them lie on the curve is decided
in `TwistedEdwards.Point.Predicate`.
-/

namespace TwistedEdwards

namespace Curve

/-- The coefficient `d = -121665 / 121666`. -/
def d : FieldElement :=
  ⟨0x34dca135978a3, 0x1a8283b156ebd, 0x5e7a26001c029, 0x739c663a03cbb, 0x52036cee2b6ff⟩

/-- Twice the coefficient. -/
def twoD : FieldElement :=
  ⟨0x69b9426b2f159, 0x35050762add7a, 0x3cf44c0038052, 0x6738cc7407977, 0x2406d9dc56dff⟩

/-- The abscissa of the base point. -/
def baseX : FieldElement :=
  ⟨0x62d608f25d51a, 0x412a4b4f6592a, 0x75b7171a4b31d, 0x1ff60527118fe, 0x216936d3cd6e5⟩

/-- The ordinate of the base point, four fifths. -/
def baseY : FieldElement :=
  ⟨0x6666666666658, 0x4cccccccccccc, 0x1999999999999, 0x3333333333333, 0x6666666666666⟩

/-- The product of the coordinates of the base point. -/
def baseT : FieldElement :=
  ⟨0x68ab3a5b7dda3, 0xeea2a5eadbb, 0x2af8df483c27e, 0x332b375274732, 0x67875f0fd78b7⟩

end Curve

/-- Extended coordinates. -/
structure Point where
  x : FieldElement
  y : FieldElement
  z : FieldElement
  t : FieldElement
deriving DecidableEq

/-- The second operand of an addition: `Y + X`, `Y - X`, `Z` and `2 d T`. -/
structure CachedPoint where
  yPlusX : FieldElement
  yMinusX : FieldElement
  z : FieldElement
  t2d : FieldElement
deriving DecidableEq

/-- The factors of a point: `x = X / Z` and `y = Y / T`. -/
structure CompletedPoint where
  x : FieldElement
  y : FieldElement
  z : FieldElement
  t : FieldElement
deriving DecidableEq

namespace Point

/-- The neutral element. -/
def identity : Point := ⟨.zero, .one, .one, .zero⟩

instance : Inhabited Point := ⟨identity⟩

/-- The base point. -/
def base : Point := ⟨Curve.baseX, Curve.baseY, .one, Curve.baseT⟩

/-- The negative, `(-x, y)`. -/
def neg (p : Point) : Point := ⟨-p.x, p.y, p.z, -p.t⟩

instance : Neg Point := ⟨neg⟩

/-- `q` if the bit is set, else `p`. -/
def select (p q : Point) (bit : Bool) : Point :=
  ⟨p.x.select q.x bit, p.y.select q.y bit, p.z.select q.z bit, p.t.select q.t bit⟩

/-- The form that an addition takes as its second operand. -/
def cached (p : Point) : CachedPoint := ⟨p.y + p.x, p.y - p.x, p.z, p.t * Curve.twoD⟩

theorem neg_def (p : Point) : -p = neg p := rfl

/-- The choice of coordinates is the choice of a point. -/
theorem select_eq (p q : Point) (bit : Bool) : p.select q bit = if bit then q else p := by
  cases bit <;> rfl

end Point

namespace CompletedPoint

/-- Multiplies the factors out. -/
def extended (c : CompletedPoint) : Point := ⟨c.x * c.t, c.y * c.z, c.z * c.t, c.x * c.y⟩

end CompletedPoint

namespace CachedPoint

/-- The neutral element. -/
def identity : CachedPoint := ⟨.one, .one, .one, .zero⟩

/-- The negative swaps the sum and the difference. -/
def neg (q : CachedPoint) : CachedPoint := ⟨q.yMinusX, q.yPlusX, q.z, -q.t2d⟩

instance : Neg CachedPoint := ⟨neg⟩

/-- `q` if the bit is set, else `p`. -/
def select (p q : CachedPoint) (bit : Bool) : CachedPoint :=
  ⟨p.yPlusX.select q.yPlusX bit, p.yMinusX.select q.yMinusX bit, p.z.select q.z bit,
    p.t2d.select q.t2d bit⟩

/-- The negative if the bit is set. -/
def negateIf (q : CachedPoint) (bit : Bool) : CachedPoint := q.select (-q) bit

/-- The choice of coordinates is the choice of a cached point. -/
theorem select_eq (p q : CachedPoint) (bit : Bool) :
    p.select q bit = if bit then q else p := by
  cases bit <;> rfl

end CachedPoint

end TwistedEdwards
