import TwistedEdwards.Point.Basic

/-!
# Addition and doubling

One formula adds any two points of the curve, equal, opposite and neutral ones
included, since its denominators never vanish when `d` is not a square.  The
difference uses the same products with the second operand's sum and difference
exchanged.  Doubling has a formula of its own with four squares.

Every formula gives a completed point, which is then multiplied out.
-/

namespace TwistedEdwards

namespace Point

/-- The sum with a cached point. -/
def addCached (p : Point) (q : CachedPoint) : CompletedPoint :=
  let pp := (p.y + p.x) * q.yPlusX
  let mm := (p.y - p.x) * q.yMinusX
  let tt := p.t * q.t2d
  let zz := p.z * q.z
  let zz2 := zz + zz
  ⟨pp - mm, pp + mm, zz2 + tt, zz2 - tt⟩

/-- The difference from a cached point. -/
def subCached (p : Point) (q : CachedPoint) : CompletedPoint :=
  let pm := (p.y + p.x) * q.yMinusX
  let mp := (p.y - p.x) * q.yPlusX
  let tt := p.t * q.t2d
  let zz := p.z * q.z
  let zz2 := zz + zz
  ⟨pm - mp, pm + mp, zz2 - tt, zz2 + tt⟩

/-- The sum of two points; the second is cached first. -/
def add (p q : Point) : Point := (p.addCached q.cached).extended

instance : Add Point := ⟨add⟩

/-- The difference of two points; the second is cached first. -/
def sub (p q : Point) : Point := (p.subCached q.cached).extended

instance : Sub Point := ⟨sub⟩

/-- Twice the point, not multiplied out. -/
def doubleCompleted (p : Point) : CompletedPoint :=
  let xx := p.x.square
  let yy := p.y.square
  let zz2 := p.z.doubleSquare
  let s := (p.x + p.y).square
  let sum := yy + xx
  let difference := yy - xx
  ⟨s - sum, sum, difference, zz2 - difference⟩

/-- Twice the point. -/
def double (p : Point) : Point := p.doubleCompleted.extended

/-- Doubles `n` times. -/
def doubleTimes (n : Nat) (p : Point) : Point := Nat.repeat double n p

/-- Eight times the point. -/
def mulCofactor (p : Point) : Point := doubleTimes 3 p

theorem doubleTimes_succ (n : Nat) (p : Point) :
    doubleTimes (n + 1) p = (doubleTimes n p).double := rfl

end Point

end TwistedEdwards
