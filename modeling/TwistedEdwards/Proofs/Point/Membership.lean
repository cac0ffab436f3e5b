import TwistedEdwards.Point.Predicate
import TwistedEdwards.Proofs.Field.Canonical
import TwistedEdwards.Proofs.Point.Validity

/-!
# Recognising the points of the curve

The test clears the denominators of the curve equation, so what it compares is the
equation times the fourth power of `Z`.  It decides membership for all limbs that squares
and products have room for, and valid points pass it.

Main statements: `Point.onCurve_iff` and `Point.Valid.onCurve`.
-/

namespace TwistedEdwards

open Curve

namespace Point

variable {p : Point}

/-- The curve equation with its denominators cleared. -/
theorem equation_affine_iff (hz : p.z.residue ≠ 0) :
    Equation p.affineX p.affineY ↔
      (p.y.residue ^ 2 - p.x.residue ^ 2) * p.z.residue ^ 2 =
        (p.z.residue ^ 2) ^ 2 + p.x.residue ^ 2 * p.y.residue ^ 2 * coefficient := by
  have hx : p.affineX * p.z.residue = p.x.residue := div_mul_cancel₀ _ hz
  have hy : p.affineY * p.z.residue = p.y.residue := div_mul_cancel₀ _ hz
  rw [← hx, ← hy]
  generalize p.affineX = x
  generalize p.affineY = y
  unfold Equation
  constructor
  · intro h
    linear_combination p.z.residue ^ 4 * h
  · intro h
    apply mul_left_cancel₀ (pow_ne_zero 4 hz)
    linear_combination h

/-- **Membership is decided** for any limbs below `2 ^ 54`. -/
theorem onCurve_iff (hx : p.x.Bounded (2 ^ 54)) (hy : p.y.Bounded (2 ^ 54))
    (hz : p.z.Bounded (2 ^ 54)) (ht : p.t.Bounded (2 ^ 54)) :
    p.onCurve = true ↔ p.z.residue ≠ 0 ∧
      p.x.residue * p.y.residue = p.z.residue * p.t.residue ∧
      Equation p.affineX p.affineY := by
  have hxx := hx.denotes.square
  have hyy := hy.denotes.square
  have hzz := hz.denotes.square
  have hproduct := (hx.denotes.mul hy.denotes).same_iff (hz.denotes.mul ht.denotes)
  have hequation := ((hyy.sub hxx).mul hzz).same_iff
    (hzz.square.add ((hxx.mul hyy).mul coefficient_denotes))
  have hnonzero := hz.denotes.isNonzero_iff
  unfold onCurve
  rw [Bool.and_eq_true, Bool.and_eq_true, hproduct, hequation, hnonzero]
  constructor
  · rintro ⟨⟨hproduct, hequation⟩, hnonzero⟩
    exact ⟨hnonzero, hproduct, (equation_affine_iff hnonzero).mpr hequation⟩
  · rintro ⟨hnonzero, hproduct, hequation⟩
    exact ⟨⟨hproduct, (equation_affine_iff hnonzero).mp hequation⟩, hnonzero⟩

/-- Valid points pass the test. -/
theorem Valid.onCurve (hp : p.Valid) : p.onCurve = true :=
  (onCurve_iff (hp.x.mono (by decide)) (hp.y.mono (by decide)) (hp.z.mono (by decide))
    (hp.t.mono (by decide))).mpr ⟨hp.z_ne_zero, hp.product, hp.equation⟩

end Point

end TwistedEdwards
