import TwistedEdwards.Proofs.Point.Addition

/-!
# Valid points

A quadruple is valid when its limbs are below `2 ^ 52`, `Z` is not zero, `X Y = Z T`, and
`(X / Z, Y / Z)` satisfies the curve equation.  These are the quadruples that stand for a
point of the curve, so the operations keep validity, and the affine coordinates that they
give are those of the addition formula.

Main statements: `Point.Valid.denotes`, `Point.Denotes.valid` and `Point.complete_formulas`.
-/

namespace TwistedEdwards

namespace Curve

/-- The coordinates of the base point satisfy the equation. -/
theorem base_equation : Equation baseX.residue baseY.residue := by
  have hmod : (baseX.toNat ^ 2 + 1 + d.toNat * baseX.toNat ^ 2 * baseY.toNat ^ 2) % fieldOrder =
      baseY.toNat ^ 2 % fieldOrder := by
    decide
  have hcast := (ZMod.natCast_eq_natCast_iff' _ _ fieldOrder).mpr hmod
  simp only [Nat.cast_add, Nat.cast_mul, Nat.cast_pow, Nat.cast_one] at hcast
  unfold Equation coefficient FieldElement.residue
  linear_combination -hcast

/-- The product of the coordinates of the base point is stored with them. -/
theorem base_product : baseT.residue = baseX.residue * baseY.residue := by
  have hmod : baseT.toNat % fieldOrder = baseX.toNat * baseY.toNat % fieldOrder := by
    decide
  rw [FieldElement.residue_eq_natCast_iff.mpr hmod, Nat.cast_mul]
  rfl

end Curve

open Curve

/-- The base point of the curve. -/
def AffinePoint.base : AffinePoint := ⟨baseX.residue, baseY.residue, base_equation⟩

namespace Point

/-- The abscissa that the quadruple stands for. -/
def affineX (p : Point) : ZMod fieldOrder := p.x.residue / p.z.residue

/-- The ordinate that the quadruple stands for. -/
def affineY (p : Point) : ZMod fieldOrder := p.y.residue / p.z.residue

/-- The coordinates of a point, in limbs that the formulas have room for. -/
structure Valid (p : Point) : Prop where
  x : p.x.Bounded (2 ^ 52)
  y : p.y.Bounded (2 ^ 52)
  z : p.z.Bounded (2 ^ 52)
  t : p.t.Bounded (2 ^ 52)
  z_ne_zero : p.z.residue ≠ 0
  product : p.x.residue * p.y.residue = p.z.residue * p.t.residue
  equation : Equation p.affineX p.affineY

/-- Two quadruples with the same affine coordinates. -/
def SameAffine (p q : Point) : Prop := p.affineX = q.affineX ∧ p.affineY = q.affineY

/-- The quadruple is valid and has the affine coordinates that the addition formula gives for
`(x₁, y₁)` and `(x₂, y₂)`, with denominators that are not zero. -/
structure IsSum (s : Point) (x₁ y₁ x₂ y₂ : ZMod fieldOrder) : Prop where
  valid : s.Valid
  denominatorX_ne_zero : 1 + coefficient * x₁ * x₂ * y₁ * y₂ ≠ 0
  denominatorY_ne_zero : 1 - coefficient * x₁ * x₂ * y₁ * y₂ ≠ 0
  affineX_eq : s.affineX = (x₁ * y₂ + y₁ * x₂) / (1 + coefficient * x₁ * x₂ * y₁ * y₂)
  affineY_eq : s.affineY = (y₁ * y₂ + x₁ * x₂) / (1 - coefficient * x₁ * x₂ * y₁ * y₂)

variable {p q : Point} {P Q : AffinePoint}

/-- The point of the curve that a valid quadruple stands for. -/
def Valid.affine (hp : p.Valid) : AffinePoint := ⟨p.affineX, p.affineY, hp.equation⟩

/-- A valid quadruple stands for its affine point. -/
theorem Valid.denotes (hp : p.Valid) : p.Denotes hp.affine := by
  have hne := hp.z_ne_zero
  have hx : p.affineX * p.z.residue = p.x.residue := div_mul_cancel₀ _ hne
  have hy : p.affineY * p.z.residue = p.y.residue := div_mul_cancel₀ _ hne
  refine ⟨hp.x.denotes.of_eq hx.symm, hp.y.denotes.of_eq hy.symm, hp.z, ?_, hne⟩
  refine hp.t.denotes.of_eq ?_
  change p.t.residue = p.affineX * p.affineY * p.z.residue
  apply mul_left_cancel₀ hne
  rw [← hp.product, ← hx, ← hy]
  ring

theorem Denotes.affineX_eq (hp : p.Denotes P) : p.affineX = P.x := by
  rw [affineX, hp.x.residue_eq, mul_div_assoc, div_self hp.z_ne_zero, mul_one]

theorem Denotes.affineY_eq (hp : p.Denotes P) : p.affineY = P.y := by
  rw [affineY, hp.y.residue_eq, mul_div_assoc, div_self hp.z_ne_zero, mul_one]

/-- What stands for a point of the curve is valid. -/
theorem Denotes.valid (hp : p.Denotes P) : p.Valid := by
  refine ⟨hp.x.bounded, hp.y.bounded, hp.z, hp.t.bounded, hp.z_ne_zero, ?_, ?_⟩
  · rw [hp.x.residue_eq, hp.y.residue_eq, hp.t.residue_eq]
    ring
  · rw [hp.affineX_eq, hp.affineY_eq]
    exact P.equation

/-- A quadruple stands for one point only. -/
theorem Denotes.unique (hp : p.Denotes P) (hp' : p.Denotes Q) : P = Q :=
  AffinePoint.ext (hp.affineX_eq.symm.trans hp'.affineX_eq)
    (hp.affineY_eq.symm.trans hp'.affineY_eq)

instance (p : Point) : Decidable p.Valid :=
  decidable_of_iff (p.x.Bounded (2 ^ 52) ∧ p.y.Bounded (2 ^ 52) ∧ p.z.Bounded (2 ^ 52) ∧
      p.t.Bounded (2 ^ 52) ∧ p.z.residue ≠ 0 ∧
      p.x.residue * p.y.residue = p.z.residue * p.t.residue ∧
      -p.affineX ^ 2 + p.affineY ^ 2 = 1 + coefficient * p.affineX ^ 2 * p.affineY ^ 2)
    ⟨fun ⟨hx, hy, hz, ht, hne, hproduct, hcurve⟩ => ⟨hx, hy, hz, ht, hne, hproduct, hcurve⟩,
      fun hp => ⟨hp.x, hp.y, hp.z, hp.t, hp.z_ne_zero, hp.product, hp.equation⟩⟩

/-- The point of the curve that a quadruple stands for; the neutral one if it is not valid. -/
def toAffine (p : Point) : AffinePoint := if hp : p.Valid then hp.affine else 0

/-- A valid quadruple stands for the point that it is mapped to. -/
theorem Valid.denotes_toAffine (hp : p.Valid) : p.Denotes p.toAffine := by
  rw [toAffine, dif_pos hp]
  exact hp.denotes

/-- A quadruple is mapped to the point that it stands for. -/
theorem Denotes.toAffine_eq (hp : p.Denotes P) : p.toAffine = P :=
  hp.valid.denotes_toAffine.unique hp

/-- The neutral quadruple stands for the neutral point. -/
theorem identity_denotes : identity.Denotes 0 := by
  have hzero := FieldElement.zero_denotes
  have hone := FieldElement.one_denotes
  rw [AffinePoint.zero_def]
  refine ⟨?_, ?_, hone.bounded.mono (by decide), ?_, ?_⟩
  · exact hzero.mono.of_eq (zero_mul _).symm
  · exact hone.mono.of_eq (by rw [identity, hone.residue_eq]; exact (one_mul 1).symm)
  · refine hzero.mono.of_eq ?_
    change 0 = 0 * 1 * identity.z.residue
    rw [zero_mul, zero_mul]
  · rw [identity, hone.residue_eq]
    exact one_ne_zero

/-- The base quadruple stands for the base point. -/
theorem base_denotes : base.Denotes AffinePoint.base := by
  have hone := FieldElement.one_denotes
  have hx : FieldElement.Denotes (2 ^ 52) baseX baseX.residue :=
    FieldElement.Bounded.denotes (by decide)
  have hy : FieldElement.Denotes (2 ^ 52) baseY baseY.residue :=
    FieldElement.Bounded.denotes (by decide)
  have ht : FieldElement.Denotes (2 ^ 52) baseT baseT.residue :=
    FieldElement.Bounded.denotes (by decide)
  rw [base]
  refine ⟨?_, ?_, hone.bounded.mono (by decide), ?_, ?_⟩ <;> dsimp only <;> rw [hone.residue_eq]
  · exact hx.of_eq (mul_one _).symm
  · exact hy.of_eq (mul_one _).symm
  · rw [mul_one]
    exact ht.of_eq base_product
  · exact one_ne_zero

/-- Whatever stands for a sum in the group has the coordinates of the addition formula. -/
theorem Denotes.isSum (hp : p.Denotes (P + Q)) : p.IsSum P.x P.y Q.x Q.y := by
  refine ⟨hp.valid, AffinePoint.one_add_cross_ne_zero P Q, AffinePoint.one_sub_cross_ne_zero P Q,
    ?_, ?_⟩
  · rw [hp.affineX_eq]
    rfl
  · rw [hp.affineY_eq]
    rfl

/-- Quadruples of one point have the same affine coordinates. -/
theorem Denotes.sameAffine (hp : p.Denotes P) (hq : q.Denotes P) : p.SameAffine q :=
  ⟨hp.affineX_eq.trans hq.affineX_eq.symm, hp.affineY_eq.trans hq.affineY_eq.symm⟩

/-- Valid quadruples with the same affine coordinates stand for the same point. -/
theorem SameAffine.denotes (h : p.SameAffine q) (hp : p.Denotes P) (hq : q.Valid) :
    q.Denotes P := by
  have hP : hq.affine = P := by
    ext
    · exact h.1.symm.trans hp.affineX_eq
    · exact h.2.symm.trans hp.affineY_eq
  exact hP ▸ hq.denotes

/-- **Completeness of the formulas.**  Equal, opposite and neutral points and points of small order
are no exceptions. -/
theorem complete_formulas (hp : p.Valid) (hq : q.Valid) :
    (p + q).IsSum p.affineX p.affineY q.affineX q.affineY ∧
      (p - q).IsSum p.affineX p.affineY (-q.affineX) q.affineY ∧
      p.double.IsSum p.affineX p.affineY p.affineX p.affineY ∧
      ((-p).Valid ∧ (-p).affineX = -p.affineX ∧ (-p).affineY = p.affineY) ∧
      p.double.SameAffine (p + p) ∧
      ∀ p' q' : Point, p'.Valid → q'.Valid → p.SameAffine p' → q.SameAffine q' →
        (p + q).SameAffine (p' + q') ∧ (p - q).SameAffine (p' - q') ∧
          p.double.SameAffine p'.double ∧ (-p).SameAffine (-p') := by
  have hP := hp.denotes
  have hQ := hq.denotes
  have hsub := hP.sub hQ
  rw [sub_eq_add_neg] at hsub
  refine ⟨(hP.add hQ).isSum, hsub.isSum, hP.double.isSum, ?_, ?_, ?_⟩
  · exact ⟨hP.neg.valid, hP.neg.affineX_eq, hP.neg.affineY_eq⟩
  · exact hP.double.sameAffine (hP.add hP)
  · intro p' q' hp' hq' hpp hqq
    have hP' := hpp.denotes hP hp'
    have hQ' := hqq.denotes hQ hq'
    exact ⟨(hP.add hQ).sameAffine (hP'.add hQ'), (hP.sub hQ).sameAffine (hP'.sub hQ'),
      hP.double.sameAffine hP'.double, hP.neg.sameAffine hP'.neg⟩

/-- The formulas double the base point and cancel it. -/
theorem complete_formulas_base :
    base.Valid ∧ (base + base).IsSum base.affineX base.affineY base.affineX base.affineY ∧
      (base - base).IsSum base.affineX base.affineY (-base.affineX) base.affineY := by
  have hbase := base_denotes.valid
  obtain ⟨hadd, hsub, -⟩ := complete_formulas hbase hbase
  exact ⟨hbase, hadd, hsub⟩

end Point

end TwistedEdwards
