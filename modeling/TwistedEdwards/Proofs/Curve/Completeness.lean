import TwistedEdwards.Point.Basic
import TwistedEdwards.Proofs.Field.SquareRoot

/-!
# The curve equation and its addition formula

The curve is `-x ^ 2 + y ^ 2 = 1 + d x ^ 2 y ^ 2` over the residues.  The coefficient
`d` is not a square while minus one is, and from this it follows that the denominators
of the addition formula vanish for no two points of the curve: if they did, `d` would be
the square of a quotient of the coordinates.

Main statements: `Curve.coefficient_not_square`, `Curve.denominators_ne_zero`, and
`Curve.ordinate_denominator_ne_zero`.
-/

namespace TwistedEdwards

namespace Curve

/-- The residue of the coefficient `d`. -/
def coefficient : ZMod fieldOrder := d.residue

/-- The curve equation. -/
def Equation (x y : ZMod fieldOrder) : Prop :=
  -x ^ 2 + y ^ 2 = 1 + coefficient * x ^ 2 * y ^ 2

/-- The limbs of the curve constant stand for the coefficient. -/
theorem coefficient_denotes : FieldElement.Denotes (2 ^ 51) d coefficient :=
  FieldElement.Bounded.denotes (by decide)

/-- Twice the coefficient is kept with reduced limbs of its own. -/
theorem twoD_denotes : FieldElement.Denotes (2 ^ 51) twoD (2 * coefficient) := by
  refine ⟨by decide, ?_⟩
  have hmod : twoD.toNat + fieldOrder = 2 * d.toNat := by decide
  have hcast := congrArg (Nat.cast (R := ZMod fieldOrder)) hmod
  rw [Nat.cast_add, ZMod.natCast_self, add_zero, Nat.cast_mul] at hcast
  exact hcast

theorem two_ne_zero : (2 : ZMod fieldOrder) ≠ 0 := by
  intro hzero
  have hcast : ((2 : Nat) : ZMod fieldOrder) = 0 := hzero
  rw [ZMod.natCast_eq_zero_iff] at hcast
  exact absurd hcast (by decide)

/-- Zero is a square, so the coefficient is not zero. -/
theorem coefficient_ne_zero : coefficient ≠ 0 := by
  intro hzero
  have hcast : ((d.toNat : Nat) : ZMod fieldOrder) = 0 := hzero
  rw [ZMod.natCast_eq_zero_iff] at hcast
  exact absurd hcast (by decide)

/-- By Euler's criterion. -/
theorem coefficient_not_square : ¬IsSquare coefficient := by
  rw [ZMod.euler_criterion fieldOrder coefficient_ne_zero]
  have hpower : powMod fieldOrder 256 d.toNat (fieldOrder / 2) ≠ 1 := by decide +kernel
  intro hone
  exact hpower ((natCast_pow_eq_one_iff (by decide) d.toNat (by decide)).mp hone)

variable {x y x₁ y₁ x₂ y₂ : ZMod fieldOrder}

/-- If `t` were a root of one, this square would give a root of `d` for each sign of `j`, a root
of minus one, for which the last factor is not zero. -/
theorem square_of_root_of_one (h₁ : Equation x₁ y₁) (h₂ : Equation x₂ y₂) {j t : ZMod fieldOrder}
    (hj : j ^ 2 = -1) (ht : t = coefficient * x₁ * x₂ * y₁ * y₂) (hone : t ^ 2 = 1) :
    (j * x₁ + t * y₁) ^ 2 = coefficient * (x₁ * y₁ * (y₂ + j * x₂)) ^ 2 := by
  unfold Equation at h₁ h₂
  linear_combination (x₁ ^ 2 - coefficient * x₁ ^ 2 * y₁ ^ 2 * x₂ ^ 2) * hj +
    (y₁ ^ 2 - 1) * hone + h₁ - coefficient * x₁ ^ 2 * y₁ ^ 2 * h₂ +
    (2 * j * x₁ * y₁ + t + coefficient * x₁ * x₂ * y₁ * y₂) * ht

/-- A square that is `d` times a square is zero. -/
theorem eq_zero_of_sq_eq {a b : ZMod fieldOrder} (h : a ^ 2 = coefficient * b ^ 2) : b = 0 := by
  by_contra hb
  apply coefficient_not_square
  refine ⟨a / b, ?_⟩
  field_simp
  rw [h]

/-- The product of the two denominators does not vanish. -/
theorem denominator_sq_ne_one (h₁ : Equation x₁ y₁) (h₂ : Equation x₂ y₂) :
    (coefficient * x₁ * x₂ * y₁ * y₂) ^ 2 ≠ 1 := by
  intro hone
  have hminus := FieldElement.sqrtMinusOne_sq
  generalize FieldElement.sqrtMinusOne.residue = i at hminus
  have hxy : x₁ * y₁ ≠ 0 := by
    intro hzero
    have hnull : (1 : ZMod fieldOrder) = 0 := by
      linear_combination -hone + coefficient ^ 2 * x₂ ^ 2 * y₂ ^ 2 * x₁ * y₁ * hzero
    exact one_ne_zero hnull
  have hneg : (-i) ^ 2 = -1 := by rw [neg_sq, hminus]
  have hplus := eq_zero_of_sq_eq (square_of_root_of_one h₁ h₂ hminus rfl hone)
  have hless := eq_zero_of_sq_eq (square_of_root_of_one h₁ h₂ hneg rfl hone)
  have hp : y₂ + i * x₂ = 0 := (mul_eq_zero.mp hplus).resolve_left hxy
  have hm : y₂ + -i * x₂ = 0 := (mul_eq_zero.mp hless).resolve_left hxy
  have hy : y₂ = 0 := by
    have hdouble : 2 * y₂ = 0 := by linear_combination hp + hm
    exact (mul_eq_zero.mp hdouble).resolve_left two_ne_zero
  have hnull : (1 : ZMod fieldOrder) = 0 := by
    rw [hy] at hone
    linear_combination -hone
  exact one_ne_zero hnull

/-- **Completeness.**  The denominators of the addition formula vanish for no two points of the
curve. -/
theorem denominators_ne_zero (h₁ : Equation x₁ y₁) (h₂ : Equation x₂ y₂) :
    1 + coefficient * x₁ * x₂ * y₁ * y₂ ≠ 0 ∧ 1 - coefficient * x₁ * x₂ * y₁ * y₂ ≠ 0 := by
  have hne := denominator_sq_ne_one h₁ h₂
  constructor
  · intro hzero
    apply hne
    linear_combination (coefficient * x₁ * x₂ * y₁ * y₂ - 1) * hzero
  · intro hzero
    apply hne
    linear_combination (-coefficient * x₁ * x₂ * y₁ * y₂ - 1) * hzero

/-- The denominator of the abscissa of an ordinate never vanishes: minus one is a square, so `d`
would be one. -/
theorem ordinate_denominator_ne_zero (y : ZMod fieldOrder) : coefficient * y ^ 2 + 1 ≠ 0 := by
  intro hzero
  have hsquare : FieldElement.sqrtMinusOne.residue ^ 2 = coefficient * y ^ 2 := by
    rw [FieldElement.sqrtMinusOne_sq]
    linear_combination -hzero
  have hy := eq_zero_of_sq_eq hsquare
  have hnull : (1 : ZMod fieldOrder) = 0 := by
    rw [hy] at hzero
    linear_combination hzero
  exact one_ne_zero hnull

/-- For each ordinate the curve equation asks for the square of the abscissa. -/
theorem equation_iff : Equation x y ↔ (coefficient * y ^ 2 + 1) * x ^ 2 = y ^ 2 - 1 := by
  unfold Equation
  constructor
  · intro h
    linear_combination -h
  · intro h
    linear_combination -h

end Curve

end TwistedEdwards
