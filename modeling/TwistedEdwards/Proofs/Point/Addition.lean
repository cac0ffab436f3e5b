import TwistedEdwards.Point.Addition
import TwistedEdwards.Proofs.Curve.Group

/-!
# Addition and doubling as the group law

A quadruple stands for a point of the curve when its coordinates are those of the
point times a common `Z` that is not zero, and its limbs leave the room that the
formulas use.  Cached and completed points stand for points in the same way.  Each
formula then gives a completed point that stands for the sum, the difference or the
double in the group, whatever the operands are, and multiplying it out keeps the point.

The limb bounds are closed under all of it: coordinates stay below `2 ^ 52`, a sum of two
below `2 ^ 53`, and no subtrahend comes near four primes.

Main statements: `Point.Denotes.add`, `Point.Denotes.sub`, `Point.Denotes.double`,
`Point.Denotes.neg`, and `Point.complete_formulas`.
-/

namespace TwistedEdwards

open Curve

/-- The quadruple stands for the point. -/
structure Point.Denotes (p : Point) (P : AffinePoint) : Prop where
  x : FieldElement.Denotes (2 ^ 52) p.x (P.x * p.z.residue)
  y : FieldElement.Denotes (2 ^ 52) p.y (P.y * p.z.residue)
  z : p.z.Bounded (2 ^ 52)
  t : FieldElement.Denotes (2 ^ 52) p.t (P.x * P.y * p.z.residue)
  z_ne_zero : p.z.residue ≠ 0

/-- The cached form stands for the point.  The sum of the coordinates is not carried, and a
negated point has it in the place of their difference. -/
structure CachedPoint.Denotes (q : CachedPoint) (Q : AffinePoint) : Prop where
  yPlusX : FieldElement.Denotes (2 ^ 53) q.yPlusX ((Q.y + Q.x) * q.z.residue)
  yMinusX : FieldElement.Denotes (2 ^ 53) q.yMinusX ((Q.y - Q.x) * q.z.residue)
  z : q.z.Bounded (2 ^ 52)
  t2d : FieldElement.Denotes (2 ^ 52) q.t2d (2 * coefficient * Q.x * Q.y * q.z.residue)
  z_ne_zero : q.z.residue ≠ 0

/-- The factors stand for the point. -/
structure CompletedPoint.Denotes (c : CompletedPoint) (P : AffinePoint) : Prop where
  x : FieldElement.Denotes (2 ^ 53) c.x (P.x * c.z.residue)
  y : FieldElement.Denotes (2 ^ 53) c.y (P.y * c.t.residue)
  z : c.z.Bounded (2 ^ 53)
  t : c.t.Bounded (2 ^ 53)
  z_ne_zero : c.z.residue ≠ 0
  t_ne_zero : c.t.residue ≠ 0

namespace CompletedPoint

variable {c : CompletedPoint} {P Q : AffinePoint}

/-- Multiplying the factors out keeps the point. -/
theorem Denotes.extended (hc : c.Denotes P) : c.extended.Denotes P := by
  have hz := hc.z.denotes.mul hc.t.denotes
  rw [CompletedPoint.extended]
  refine ⟨?_, ?_, hz.bounded.mono (by decide), ?_, ?_⟩ <;> dsimp only
  · rw [hz.residue_eq, ← mul_assoc]
    exact (hc.x.mul hc.t.denotes).mono
  · rw [hz.residue_eq, mul_comm c.z.residue, ← mul_assoc]
    exact (hc.y.mul hc.z.denotes).mono
  · rw [hz.residue_eq]
    exact (hc.x.mul hc.y).mono.of_eq (by ring)
  · rw [hz.residue_eq]
    exact mul_ne_zero hc.z_ne_zero hc.t_ne_zero

/-- Numerators and denominators of the addition formula times a common factor make a sum. -/
theorem denotes_add {k : ZMod fieldOrder} (hk : k ≠ 0)
    (hx : FieldElement.Denotes (2 ^ 53) c.x (k * (P.x * Q.y + P.y * Q.x)))
    (hy : FieldElement.Denotes (2 ^ 53) c.y (k * (P.y * Q.y + P.x * Q.x)))
    (hz : FieldElement.Denotes (2 ^ 53) c.z (k * (1 + P.cross Q)))
    (ht : FieldElement.Denotes (2 ^ 53) c.t (k * (1 - P.cross Q))) : c.Denotes (P + Q) := by
  refine ⟨hx.of_eq ?_, hy.of_eq ?_, hz.bounded, ht.bounded, ?_, ?_⟩
  · rw [hz.residue_eq, AffinePoint.add_def]
    linear_combination -k * AffinePoint.x_add P Q
  · rw [ht.residue_eq, AffinePoint.add_def]
    linear_combination -k * AffinePoint.y_add P Q
  · rw [hz.residue_eq]
    exact mul_ne_zero hk (AffinePoint.one_add_cross_ne_zero P Q)
  · rw [ht.residue_eq]
    exact mul_ne_zero hk (AffinePoint.one_sub_cross_ne_zero P Q)

end CompletedPoint

namespace Point

variable {p q : Point} {P Q : AffinePoint}

/-- A cached point stands for the point that it was made of. -/
theorem Denotes.cached (hp : p.Denotes P) : p.cached.Denotes P := by
  rw [Point.cached]
  refine ⟨?_, ?_, hp.z, ?_, hp.z_ne_zero⟩
  · rw [add_mul]
    exact (hp.y.add hp.x).mono
  · rw [sub_mul]
    exact (hp.y.sub hp.x).mono
  · exact (hp.t.mul twoD_denotes).mono.of_eq (by ring)

/-- The formula gives the two fractions of the sum. -/
theorem Denotes.addCached {q : CachedPoint} (hp : p.Denotes P) (hq : q.Denotes Q) :
    (p.addCached q).Denotes (P + Q) := by
  have hpp := (hp.y.add hp.x).mul hq.yPlusX
  have hmm := (hp.y.sub hp.x).mul hq.yMinusX
  have htt := hp.t.mul hq.t2d
  have hzz := hp.z.denotes.mul hq.z.denotes
  have hk : 2 * (p.z.residue * q.z.residue) ≠ 0 :=
    mul_ne_zero two_ne_zero (mul_ne_zero hp.z_ne_zero hq.z_ne_zero)
  refine CompletedPoint.denotes_add hk ?_ ?_ ?_ ?_
  · exact (hpp.sub hmm).mono.of_eq (by ring)
  · exact (hpp.add hmm).mono.of_eq (by ring)
  · refine ((hzz.add hzz).add htt).mono.of_eq ?_
    rw [AffinePoint.cross]
    ring
  · refine ((hzz.add hzz).sub htt).mono.of_eq ?_
    rw [AffinePoint.cross]
    ring

/-- Exchanging the sum and the difference of the second operand negates it. -/
theorem Denotes.subCached {q : CachedPoint} (hp : p.Denotes P) (hq : q.Denotes Q) :
    (p.subCached q).Denotes (P - Q) := by
  have hpm := (hp.y.add hp.x).mul hq.yMinusX
  have hmp := (hp.y.sub hp.x).mul hq.yPlusX
  have htt := hp.t.mul hq.t2d
  have hzz := hp.z.denotes.mul hq.z.denotes
  have hk : 2 * (p.z.residue * q.z.residue) ≠ 0 :=
    mul_ne_zero two_ne_zero (mul_ne_zero hp.z_ne_zero hq.z_ne_zero)
  rw [sub_eq_add_neg]
  refine CompletedPoint.denotes_add hk ?_ ?_ ?_ ?_
  · exact (hpm.sub hmp).mono.of_eq (by rw [AffinePoint.x_neg, AffinePoint.y_neg]; ring)
  · exact (hpm.add hmp).mono.of_eq (by rw [AffinePoint.x_neg, AffinePoint.y_neg]; ring)
  · refine ((hzz.add hzz).sub htt).mono.of_eq ?_
    rw [AffinePoint.cross, AffinePoint.x_neg, AffinePoint.y_neg]
    ring
  · refine ((hzz.add hzz).add htt).mono.of_eq ?_
    rw [AffinePoint.cross, AffinePoint.x_neg, AffinePoint.y_neg]
    ring

/-- The formula for doubling has no product of four coordinates: the curve equation writes the
denominators of the sum with squares. -/
theorem Denotes.doubleCompleted (hp : p.Denotes P) : p.doubleCompleted.Denotes (P + P) := by
  have hxx := hp.x.square
  have hyy := hp.y.square
  have hzz := hp.z.denotes.doubleSquare
  have hs := (hp.x.add hp.y).square
  have hsum := hyy.add hxx
  have hdifference := hyy.sub hxx
  have hcurve := P.equation
  unfold Equation at hcurve
  refine CompletedPoint.denotes_add (pow_ne_zero 2 hp.z_ne_zero) ?_ ?_ ?_ ?_
  · exact (hs.sub hsum).mono.of_eq (by ring)
  · exact hsum.mono.of_eq (by ring)
  · refine hdifference.mono.of_eq ?_
    rw [AffinePoint.cross]
    linear_combination p.z.residue ^ 2 * hcurve
  · refine (hzz.sub hdifference).mono.of_eq ?_
    rw [AffinePoint.cross]
    linear_combination -p.z.residue ^ 2 * hcurve

/-- The sum of two quadruples stands for the sum of their points. -/
theorem Denotes.add (hp : p.Denotes P) (hq : q.Denotes Q) : (p + q).Denotes (P + Q) :=
  (hp.addCached hq.cached).extended

/-- The difference of two quadruples stands for the difference of their points. -/
theorem Denotes.sub (hp : p.Denotes P) (hq : q.Denotes Q) : (p - q).Denotes (P - Q) :=
  (hp.subCached hq.cached).extended

/-- The doubling formula gives the sum of a point with itself. -/
theorem Denotes.double (hp : p.Denotes P) : p.double.Denotes (P + P) :=
  hp.doubleCompleted.extended

theorem Denotes.neg (hp : p.Denotes P) : (-p).Denotes (-P) := by
  rw [neg_def, Point.neg]
  refine ⟨?_, hp.y, hp.z, ?_, hp.z_ne_zero⟩
  · rw [AffinePoint.x_neg, neg_mul]
    exact hp.x.neg.mono
  · rw [AffinePoint.x_neg, AffinePoint.y_neg, neg_mul, neg_mul]
    exact hp.t.neg.mono

/-- Doubling `n` times is the multiple by a power of two. -/
theorem Denotes.doubleTimes (hp : p.Denotes P) (n : Nat) :
    (doubleTimes n p).Denotes (2 ^ n • P) := by
  induction n with
  | zero => exact (one_nsmul P).symm ▸ hp
  | succ n ih =>
      rw [doubleTimes_succ, pow_succ, mul_nsmul, two_nsmul]
      exact ih.double

theorem Denotes.mulCofactor (hp : p.Denotes P) : p.mulCofactor.Denotes (8 • P) := by
  have hcofactor : 8 = 2 ^ 3 := rfl
  rw [hcofactor]
  exact hp.doubleTimes 3

end Point

end TwistedEdwards
