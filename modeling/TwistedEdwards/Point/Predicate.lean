import TwistedEdwards.Field.Canonical
import TwistedEdwards.Point.Basic

/-!
# Tests on points

Two quadruples are the same point when their coordinates agree after each is
multiplied by the other's `Z`.  A quadruple lies on the curve when `Z` is not
zero, `X Y = Z T`, and the curve equation holds with its denominators cleared.
-/

namespace TwistedEdwards

namespace Point

/-- The same affine point. -/
def same (p q : Point) : Bool :=
  (p.x * q.z).same (q.x * p.z) && (p.y * q.z).same (q.y * p.z)

/-- The neutral element, in any representation. -/
def isIdentity (p : Point) : Bool := !p.x.isNonzero && p.y.same p.z

/-- The coordinates are those of a point of the curve. -/
def onCurve (p : Point) : Bool :=
  let xx := p.x.square
  let yy := p.y.square
  let zz := p.z.square
  (p.x * p.y).same (p.z * p.t) &&
    ((yy - xx) * zz).same (zz.square + xx * yy * Curve.d) &&
    p.z.isNonzero

end Point

end TwistedEdwards
