import Mathlib.Algebra.Group.Defs
import TwistedEdwards.Proofs.Curve.Completeness

/-!
# The group of the curve

The points of the curve form an abelian group under the complete addition formula.
Associativity compares two quotients; once the inner sums are cleared of their
denominators it is one identity between polynomials, modulo the curve equations of the
three points.  The identity of the ordinates is that of the abscissas for three points
turned by a point of order four, which exchanges the coordinates.

Main statement: the instance `AddCommGroup AffinePoint`.
-/

namespace TwistedEdwards

open Curve

/-- A point of the curve in affine coordinates. -/
@[ext] structure AffinePoint where
  x : ZMod fieldOrder
  y : ZMod fieldOrder
  equation : Equation x y
deriving DecidableEq

namespace AffinePoint

/-- The product that both denominators of a sum are made of. -/
def cross (P Q : AffinePoint) : ZMod fieldOrder := coefficient * P.x * Q.x * P.y * Q.y

theorem one_add_cross_ne_zero (P Q : AffinePoint) : 1 + P.cross Q ≠ 0 :=
  (denominators_ne_zero P.equation Q.equation).1

theorem one_sub_cross_ne_zero (P Q : AffinePoint) : 1 - P.cross Q ≠ 0 :=
  (denominators_ne_zero P.equation Q.equation).2

/-- The formula stays on the curve. -/
theorem equation_sum (P Q : AffinePoint) :
    Equation ((P.x * Q.y + P.y * Q.x) / (1 + P.cross Q))
      ((P.y * Q.y + P.x * Q.x) / (1 - P.cross Q)) := by
  have hplus := one_add_cross_ne_zero P Q
  have hminus := one_sub_cross_ne_zero P Q
  have hP := P.equation
  have hQ := Q.equation
  unfold Equation at *
  field_simp
  unfold cross at *
  grind

/-- The sum of two points. -/
def add (P Q : AffinePoint) : AffinePoint where
  x := (P.x * Q.y + P.y * Q.x) / (1 + P.cross Q)
  y := (P.y * Q.y + P.x * Q.x) / (1 - P.cross Q)
  equation := equation_sum P Q

/-- The neutral point. -/
def zero : AffinePoint := ⟨0, 1, by unfold Equation; ring⟩

/-- The opposite point. -/
def neg (P : AffinePoint) : AffinePoint :=
  ⟨-P.x, P.y, by
    have hP := P.equation
    unfold Equation at *
    rw [neg_sq]
    exact hP⟩

/-- The abscissa of a sum, cleared of its denominator. -/
theorem x_add (P Q : AffinePoint) : (P.add Q).x * (1 + P.cross Q) = P.x * Q.y + P.y * Q.x :=
  div_mul_cancel₀ _ (one_add_cross_ne_zero P Q)

/-- The ordinate of a sum, cleared of its denominator. -/
theorem y_add (P Q : AffinePoint) : (P.add Q).y * (1 - P.cross Q) = P.y * Q.y + P.x * Q.x :=
  div_mul_cancel₀ _ (one_sub_cross_ne_zero P Q)

protected theorem add_comm (P Q : AffinePoint) : P.add Q = Q.add P := by
  have hcross : P.cross Q = Q.cross P := by
    unfold cross
    ring
  ext
  · change _ / (1 + P.cross Q) = _ / (1 + Q.cross P)
    rw [hcross, add_comm, mul_comm P.y, mul_comm P.x]
  · change _ / (1 - P.cross Q) = _ / (1 - Q.cross P)
    rw [hcross, mul_comm P.y, mul_comm P.x]

/-- Against the neutral element the cross product vanishes. -/
protected theorem add_zero (P : AffinePoint) : P.add zero = P := by
  have hcross : P.cross zero = 0 := by
    change coefficient * P.x * 0 * P.y * 1 = 0
    ring
  ext
  · change (P.x * 1 + P.y * 0) / (1 + P.cross zero) = P.x
    rw [hcross]
    ring
  · change (P.y * 1 + P.x * 0) / (1 - P.cross zero) = P.y
    rw [hcross]
    ring

/-- The sum of opposite points is neutral by the curve equation. -/
protected theorem neg_add_cancel (P : AffinePoint) : P.neg.add P = zero := by
  have hP := P.equation
  have hne := one_sub_cross_ne_zero P.neg P
  ext
  · change (-P.x * P.y + P.y * P.x) / (1 + P.neg.cross P) = 0
    rw [show -P.x * P.y + P.y * P.x = 0 by ring, zero_div]
  · change (P.y * P.y + -P.x * P.x) / (1 - P.neg.cross P) = 1
    rw [div_eq_one_iff_eq hne]
    change P.y * P.y + -P.x * P.x = 1 - coefficient * -P.x * P.x * P.y * P.y
    unfold Equation at hP
    linear_combination hP

/-- A root of minus one. -/
def root : ZMod fieldOrder := FieldElement.sqrtMinusOne.residue

/-- The constant of the square roots is a root of minus one. -/
theorem root_sq : root ^ 2 = -1 := FieldElement.sqrtMinusOne_sq

theorem root_ne_zero : root ≠ 0 := by
  intro hzero
  have hsq := root_sq
  rw [hzero] at hsq
  exact one_ne_zero (by linear_combination hsq : (1 : ZMod fieldOrder) = 0)

/-- The sum with the point `(root, 0)`, whose double is `(0, -1)`. -/
def turn (P : AffinePoint) : AffinePoint where
  x := root * P.y
  y := root * P.x
  equation := by
    have hP := P.equation
    unfold Equation at *
    linear_combination hP + (P.x ^ 2 - P.y ^ 2 -
      coefficient * P.x ^ 2 * P.y ^ 2 * (root ^ 2 - 1)) * root_sq

/-- A turn exchanges the coordinates up to the root: the abscissa. -/
theorem x_turn (P : AffinePoint) : P.turn.x = root * P.y := rfl

/-- A turn exchanges the coordinates up to the root: the ordinate. -/
theorem y_turn (P : AffinePoint) : P.turn.y = root * P.x := rfl

/-- Four factors of the root cancel in the cross product. -/
theorem cross_turn (P Q : AffinePoint) : P.turn.cross Q.turn = P.cross Q := by
  unfold cross
  rw [x_turn, x_turn, y_turn, y_turn]
  linear_combination (coefficient * P.x * Q.x * P.y * Q.y) * (root ^ 2 - 1) * root_sq

section Associativity

variable (P Q R : AffinePoint)

/-- Numerator and denominator of the abscissa of `(P + Q) + R`, cleared of the inner
denominators. -/
def abscissaNumerator : ZMod fieldOrder :=
  (P.x * Q.y + P.y * Q.x) * (1 - P.cross Q) * R.y +
    (P.y * Q.y + P.x * Q.x) * (1 + P.cross Q) * R.x

/-- What the inner sum adds to the denominators. -/
def outerCross : ZMod fieldOrder :=
  coefficient * (P.x * Q.y + P.y * Q.x) * (P.y * Q.y + P.x * Q.x) * R.x * R.y

/-- The numerator of the ordinate of a sum of three, over the common denominator. -/
def ordinateNumerator : ZMod fieldOrder :=
  (P.y * Q.y + P.x * Q.x) * (1 + P.cross Q) * R.y +
    (P.x * Q.y + P.y * Q.x) * (1 - P.cross Q) * R.x

/-- The outer cross product is that of the sum and the third point, cleared of the denominators of
the sum. -/
theorem outerCross_eq :
    P.outerCross Q R = (1 + P.cross Q) * (1 - P.cross Q) * (P.add Q).cross R := by
  have hx := x_add P Q
  have hy := y_add P Q
  unfold outerCross
  rw [← hx, ← hy, cross.eq_def (P.add Q)]
  ring

/-- The abscissa of a sum of three is one fraction. -/
theorem abscissa_cleared :
    ((P.add Q).add R).x * ((1 + P.cross Q) * (1 - P.cross Q) + P.outerCross Q R) =
      P.abscissaNumerator Q R := by
  have hx := x_add P Q
  have hy := y_add P Q
  have houter := x_add (P.add Q) R
  rw [outerCross_eq, abscissaNumerator, ← hx, ← hy]
  linear_combination (1 + P.cross Q) * (1 - P.cross Q) * houter

/-- The ordinate of a sum of three is one fraction. -/
theorem ordinate_cleared :
    ((P.add Q).add R).y * ((1 + P.cross Q) * (1 - P.cross Q) - P.outerCross Q R) =
      P.ordinateNumerator Q R := by
  have hx := x_add P Q
  have hy := y_add P Q
  have houter := y_add (P.add Q) R
  rw [outerCross_eq, ordinateNumerator, ← hx, ← hy]
  linear_combination (1 + P.cross Q) * (1 - P.cross Q) * houter

/-- Both common denominators are products of denominators of sums. -/
theorem cleared_ne_zero :
    (1 + P.cross Q) * (1 - P.cross Q) + P.outerCross Q R ≠ 0 ∧
      (1 + P.cross Q) * (1 - P.cross Q) - P.outerCross Q R ≠ 0 := by
  have hinner := mul_ne_zero (one_add_cross_ne_zero P Q) (one_sub_cross_ne_zero P Q)
  rw [outerCross_eq, ← mul_one_add, ← mul_one_sub]
  exact ⟨mul_ne_zero hinner (one_add_cross_ne_zero _ R),
    mul_ne_zero hinner (one_sub_cross_ne_zero _ R)⟩

/-- **Associativity**, cleared of all denominators.  The sides change places when `P` and `R` do, so
the equations of these two are counted alike, with opposite signs. -/
theorem abscissa_identity :
    P.abscissaNumerator Q R * ((1 + Q.cross R) * (1 - Q.cross R) + Q.outerCross R P) =
      Q.abscissaNumerator R P * ((1 + P.cross Q) * (1 - P.cross Q) + P.outerCross Q R) := by
  have hP := P.equation
  have hQ := Q.equation
  have hR := R.equation
  unfold Equation at hP hQ hR
  unfold abscissaNumerator outerCross cross
  linear_combination coefficient * Q.x * Q.y *
    ((Q.x * Q.y * (P.x ^ 2 - P.y ^ 2 + 1) *
          (P.x * (Q.y * R.y + Q.x * R.x) + P.y * (Q.x * R.y + Q.y * R.x)) +
        P.x * P.y * (P.x * (Q.y * R.y - Q.x * R.x) + P.y * (Q.x * R.y - Q.y * R.x))) * hR -
      (Q.x * Q.y * (R.x ^ 2 - R.y ^ 2 + 1) *
          (R.x * (Q.y * P.y + Q.x * P.x) + R.y * (Q.x * P.y + Q.y * P.x)) +
        R.x * R.y * (R.x * (Q.y * P.y - Q.x * P.x) + R.y * (Q.x * P.y - Q.y * P.x))) * hP +
      coefficient * P.x * P.y * R.x * R.y *
        ((P.x * P.y - R.x * R.y) * Q.x * (P.y * R.y - P.x * R.x) +
          (P.x * P.y + R.x * R.y) * Q.y * (P.y * R.x - P.x * R.y)) * hQ)

/-- Turning all three points changes the sign of the outer cross product. -/
theorem outerCross_turn : P.turn.outerCross Q.turn R.turn = -P.outerCross Q R := by
  unfold outerCross
  rw [x_turn, y_turn, x_turn, y_turn, x_turn, y_turn]
  linear_combination (coefficient * (P.x * Q.y + P.y * Q.x) * (P.y * Q.y + P.x * Q.x) * R.x * R.y) *
    (root ^ 4 - root ^ 2 + 1) * root_sq

/-- The turn makes the abscissa of a sum into the ordinate. -/
theorem abscissaNumerator_turn :
    P.turn.abscissaNumerator Q.turn R.turn = -(root * P.ordinateNumerator Q R) := by
  unfold abscissaNumerator ordinateNumerator
  rw [cross_turn, x_turn, y_turn, x_turn, y_turn, x_turn, y_turn]
  linear_combination root * ((P.x * Q.y + P.y * Q.x) * (1 - P.cross Q) * R.x +
    (P.y * Q.y + P.x * Q.x) * (1 + P.cross Q) * R.y) * root_sq

/-- The identity for the abscissas of the turned points. -/
theorem ordinate_identity :
    P.ordinateNumerator Q R * ((1 + Q.cross R) * (1 - Q.cross R) - Q.outerCross R P) =
      Q.ordinateNumerator R P * ((1 + P.cross Q) * (1 - P.cross Q) - P.outerCross Q R) := by
  have hturn := abscissa_identity P.turn Q.turn R.turn
  rw [abscissaNumerator_turn, abscissaNumerator_turn, outerCross_turn, outerCross_turn, cross_turn,
    cross_turn] at hturn
  apply mul_left_cancel₀ root_ne_zero
  linear_combination -hturn

/-- The two ways of adding three points have the same fractions. -/
protected theorem add_assoc : (P.add Q).add R = P.add (Q.add R) := by
  obtain ⟨hplus, hminus⟩ := cleared_ne_zero P Q R
  obtain ⟨hplus', hminus'⟩ := cleared_ne_zero Q R P
  rw [AffinePoint.add_comm P (Q.add R)]
  ext
  · apply mul_right_cancel₀ (mul_ne_zero hplus hplus')
    linear_combination ((1 + Q.cross R) * (1 - Q.cross R) + Q.outerCross R P) *
      abscissa_cleared P Q R - ((1 + P.cross Q) * (1 - P.cross Q) + P.outerCross Q R) *
      abscissa_cleared Q R P + abscissa_identity P Q R
  · apply mul_right_cancel₀ (mul_ne_zero hminus hminus')
    linear_combination ((1 + Q.cross R) * (1 - Q.cross R) - Q.outerCross R P) *
      ordinate_cleared P Q R - ((1 + P.cross Q) * (1 - P.cross Q) - P.outerCross Q R) *
      ordinate_cleared Q R P + ordinate_identity P Q R

end Associativity

/-- **The group law.** -/
instance : AddCommGroup AffinePoint where
  add := add
  zero := zero
  neg := neg
  add_assoc := AffinePoint.add_assoc
  zero_add P := (AffinePoint.add_comm zero P).trans (AffinePoint.add_zero P)
  add_zero := AffinePoint.add_zero
  neg_add_cancel := AffinePoint.neg_add_cancel
  add_comm := AffinePoint.add_comm
  nsmul := @nsmulRec _ ⟨zero⟩ ⟨add⟩
  zsmul := @zsmulRec _ ⟨zero⟩ ⟨add⟩ ⟨neg⟩ (@nsmulRec _ ⟨zero⟩ ⟨add⟩)

theorem add_def (P Q : AffinePoint) : P + Q = P.add Q := rfl

theorem zero_def : (0 : AffinePoint) = zero := rfl

theorem x_neg (P : AffinePoint) : (-P).x = -P.x := rfl

theorem y_neg (P : AffinePoint) : (-P).y = P.y := rfl

end AffinePoint

end TwistedEdwards
