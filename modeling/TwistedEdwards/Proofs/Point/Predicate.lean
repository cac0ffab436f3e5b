import TwistedEdwards.Proofs.Point.Codec
import TwistedEdwards.Proofs.Point.Membership

/-!
# What the tests on points decide

Membership is decided on any limbs that squares and products have room for.  On valid
quadruples there are two notions of equality, the cross-multiplied coordinates and the
strings written, and both are equality of the points of the curve: the string keeps the
ordinate and the parity of the abscissa, and an ordinate has one abscissa of each parity.
The neutral element is the point with the string of the number one.

Main statements: `AffinePoint.toOctets_injective`, `Point.Denotes.same_iff_toOctets_eq`,
`Point.Denotes.isIdentity_iff_toOctets` and `Point.predicates_exact`.
-/

namespace TwistedEdwards

open Curve

namespace AffinePoint

/-- What a point writes is read as that point, so the string tells the point. -/
theorem toOctets_injective : Function.Injective toOctets := by
  intro P Q hbytes
  obtain ⟨p, hok, hp⟩ := Point.decode_toOctets P
  obtain ⟨q, hok', hq⟩ := Point.decode_toOctets Q
  rw [← hbytes, hok] at hok'
  obtain rfl : p = q := Except.ok.inj hok'
  exact hp.unique hq

/-- The neutral element is written as the number one. -/
theorem toList_toOctets_zero : (0 : AffinePoint).toOctets.toList = 1 :: List.replicate 31 0 := by
  have hvalue := (0 : AffinePoint).value_toOctets
  have hx : (0 : AffinePoint).x.val = 0 := ZMod.val_zero
  have hy : (0 : AffinePoint).y.val = 1 := rfl
  rw [hx, hy] at hvalue
  rw [Octets.toList_eq_bytes, hvalue]
  decide

end AffinePoint

namespace Point

variable {c p q : Point} {P Q : AffinePoint}

/-- Quadruples are written the same exactly where they stand for the same point. -/
theorem Denotes.toOctets_eq_iff (hp : p.Denotes P) (hq : q.Denotes Q) :
    p.toOctets = q.toOctets ↔ P = Q := by
  rw [hp.toOctets_eq, hq.toOctets_eq]
  exact AffinePoint.toOctets_injective.eq_iff

/-- The two notions of equality are one. -/
theorem Denotes.same_iff_toOctets_eq (hp : p.Denotes P) (hq : q.Denotes Q) :
    p.same q = true ↔ p.toOctets = q.toOctets := by
  rw [hp.same_iff hq, hp.toOctets_eq_iff hq]

/-- The neutral element is what equals its usual quadruple. -/
theorem Denotes.isIdentity_iff_same (hp : p.Denotes P) :
    p.isIdentity = true ↔ p.same identity = true := by
  rw [hp.isIdentity_iff, hp.same_iff identity_denotes]

/-- The neutral element is what is written as one and zeros. -/
theorem Denotes.isIdentity_iff_toOctets (hp : p.Denotes P) :
    p.isIdentity = true ↔ p.toOctets.toList = 1 :: List.replicate 31 0 := by
  rw [hp.isIdentity_iff_same, hp.same_iff_toOctets_eq identity_denotes,
    identity_denotes.toOctets_eq, ← Vector.toList_inj, AffinePoint.toList_toOctets_zero]

/-- **What the tests decide.**  Membership is decided for any limbs below `2 ^ 54`.  For valid
quadruples, whatever their `Z`, the test of equality, equality of the affine coordinates and
equality of the strings are the same, and the test for the neutral element is equality to it, in
coordinates as well as in the string. -/
theorem predicates_exact (hx : c.x.Bounded (2 ^ 54)) (hy : c.y.Bounded (2 ^ 54))
    (hz : c.z.Bounded (2 ^ 54)) (ht : c.t.Bounded (2 ^ 54)) (hp : p.Valid) (hq : q.Valid) :
    (c.onCurve = true ↔ c.z.residue ≠ 0 ∧
        c.x.residue * c.y.residue = c.z.residue * c.t.residue ∧ Equation c.affineX c.affineY) ∧
      (p.same q = true ↔ p.SameAffine q) ∧ (p.same q = true ↔ p.toOctets = q.toOctets) ∧
      (p.isIdentity = true ↔ p.same identity = true) ∧
      (p.isIdentity = true ↔ p.toOctets.toList = 1 :: List.replicate 31 0) :=
  ⟨onCurve_iff hx hy hz ht, hp.same_iff hq, hp.denotes.same_iff_toOctets_eq hq.denotes,
    hp.denotes.isIdentity_iff_same, hp.denotes.isIdentity_iff_toOctets⟩

/-- An ordinate over a `Z` with the largest limbs, which is the neutral element, and a difference
that cancels. -/
theorem predicates_exact_cancelled :
    let largest : FieldElement :=
      ⟨0x3fffffffffffff, 0x3fffffffffffff, 0x3fffffffffffff, 0x3fffffffffffff, 0x3fffffffffffff⟩
    FieldElement.zero.Bounded (2 ^ 54) ∧ largest.Bounded (2 ^ 54) ∧ (base - base).Valid ∧
      identity.Valid ∧ onCurve ⟨.zero, largest, largest, .zero⟩ = true ∧
      (base - base).same identity = true ∧ (base - base).toOctets = identity.toOctets ∧
      (base - base).toOctets.toList = 1 :: List.replicate 31 0 := by
  intro largest
  have hzero : FieldElement.zero.Bounded (2 ^ 54) := by decide
  have hlargest : largest.Bounded (2 ^ 54) := by decide
  have hcancelled := base_denotes.sub base_denotes
  have hneutral : (base - base).isIdentity = true := by
    rw [hcancelled.isIdentity_iff]
    exact sub_self _
  have hne : largest.residue ≠ 0 := by
    rw [Ne, FieldElement.residue_eq_zero_iff]
    decide
  obtain ⟨hmember, -, hbytes, hsame, hlist⟩ :=
    predicates_exact (c := ⟨.zero, largest, largest, .zero⟩) hzero hlargest hlargest hzero
      hcancelled.valid identity_denotes.valid
  refine ⟨hzero, hlargest, hcancelled.valid, identity_denotes.valid, ?_, hsame.mp hneutral,
    hbytes.mp (hsame.mp hneutral), hlist.mp hneutral⟩
  rw [hmember]
  refine ⟨hne, ?_, ?_⟩
  · rw [mul_comm]
  · rw [affineX, affineY, FieldElement.zero_denotes.residue_eq, zero_div, div_self hne]
    unfold Equation
    ring

end Point

end TwistedEdwards
