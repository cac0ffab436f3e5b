import TwistedEdwards.Point.Predicate
import TwistedEdwards.Proofs.Field.Canonical
import TwistedEdwards.Proofs.Point.Validity

/-!
# Equality of points and the group laws

Comparing each coordinate after multiplying it by the other's `Z` decides whether two
quadruples stand for the same point.  So the test is an equivalence relation on the valid
quadruples, every operation respects it, and up to it they form an abelian group.

Main statements: `Point.Denotes.same_iff`, `Point.Denotes.isIdentity_iff`, and
`Point.group_laws`.
-/

namespace TwistedEdwards

namespace Point

variable {p q r : Point} {P Q : AffinePoint}

/-- Two quadruples are the same exactly when they stand for the same point. -/
theorem Denotes.same_iff (hp : p.Denotes P) (hq : q.Denotes Q) : p.same q = true ↔ P = Q := by
  have hscale : p.z.residue * q.z.residue ≠ 0 := mul_ne_zero hp.z_ne_zero hq.z_ne_zero
  have hx := (hp.x.mul hq.z.denotes).same_iff (hq.x.mul hp.z.denotes)
  have hy := (hp.y.mul hq.z.denotes).same_iff (hq.y.mul hp.z.denotes)
  rw [same, Bool.and_eq_true, hx, hy]
  constructor
  · rintro ⟨hx, hy⟩
    ext
    · apply mul_right_cancel₀ hscale
      linear_combination hx
    · apply mul_right_cancel₀ hscale
      linear_combination hy
  · rintro rfl
    constructor <;> ring

/-- The neutral element is recognised in every representation. -/
theorem Denotes.isIdentity_iff (hp : p.Denotes P) : p.isIdentity = true ↔ P = 0 := by
  have hx := hp.x.isNonzero_iff
  have hy := hp.y.same_iff hp.z.denotes
  rw [isIdentity, Bool.and_eq_true, Bool.not_eq_true', ← Bool.not_eq_true, hx, hy, not_not,
    AffinePoint.zero_def]
  constructor
  · rintro ⟨hx, hy⟩
    ext
    · exact (mul_eq_zero.mp hx).resolve_right hp.z_ne_zero
    · apply mul_right_cancel₀ hp.z_ne_zero
      rw [hy]
      exact (one_mul _).symm
  · rintro rfl
    exact ⟨zero_mul _, one_mul _⟩

/-- Valid quadruples are the same exactly when their affine coordinates agree. -/
theorem Valid.same_iff (hp : p.Valid) (hq : q.Valid) : p.same q = true ↔ p.SameAffine q := by
  rw [hp.denotes.same_iff hq.denotes, AffinePoint.ext_iff]
  exact Iff.rfl

/-- **The group laws.**  The sums, the differences and the negatives of valid quadruples are valid;
up to equality they form an abelian group; and equality is an equivalence relation that the
operations respect, in every representation of the operands. -/
theorem group_laws (hp : p.Valid) (hq : q.Valid) (hr : r.Valid) :
    ((p + q).Valid ∧ (p - q).Valid ∧ (-p).Valid ∧ identity.Valid) ∧
      (p + q + r).same (p + (q + r)) ∧ (p + q).same (q + p) ∧ (p + identity).same p ∧
      (p + -p).isIdentity ∧ (p + -p).same identity ∧ (p - q).same (p + -q) ∧
      p.same p ∧ (p.same q → q.same p) ∧ (p.same q → q.same r → p.same r) ∧
      ∀ p' q' : Point, p'.Valid → q'.Valid → p.same p' → q.same q' →
        (p + q).same (p' + q') ∧ (p - q).same (p' - q') ∧ (-p).same (-p') ∧
          p.double.same p'.double ∧ p.isIdentity = p'.isIdentity := by
  have hP := hp.denotes
  have hQ := hq.denotes
  have hR := hr.denotes
  refine ⟨⟨(hP.add hQ).valid, (hP.sub hQ).valid, hP.neg.valid, identity_denotes.valid⟩,
    ?_, ?_, ?_, ?_, ?_, ?_, ?_, ?_, ?_, ?_⟩
  · rw [((hP.add hQ).add hR).same_iff (hP.add (hQ.add hR))]
    exact add_assoc _ _ _
  · rw [(hP.add hQ).same_iff (hQ.add hP)]
    exact add_comm _ _
  · rw [(hP.add identity_denotes).same_iff hP]
    exact add_zero _
  · rw [(hP.add hP.neg).isIdentity_iff]
    exact add_neg_cancel _
  · rw [(hP.add hP.neg).same_iff identity_denotes]
    exact add_neg_cancel _
  · rw [(hP.sub hQ).same_iff (hP.add hQ.neg)]
    exact sub_eq_add_neg _ _
  · rw [hP.same_iff hP]
  · rw [hP.same_iff hQ, hQ.same_iff hP]
    exact Eq.symm
  · rw [hP.same_iff hQ, hQ.same_iff hR, hP.same_iff hR]
    exact Eq.trans
  · intro p' q' hp' hq' hpp hqq
    have hP' := ((hp.same_iff hp').mp hpp).denotes hP hp'
    have hQ' := ((hq.same_iff hq').mp hqq).denotes hQ hq'
    refine ⟨?_, ?_, ?_, ?_, ?_⟩
    · exact ((hP.add hQ).same_iff (hP'.add hQ')).mpr rfl
    · exact ((hP.sub hQ).same_iff (hP'.sub hQ')).mpr rfl
    · exact (hP.neg.same_iff hP'.neg).mpr rfl
    · exact (hP.double.same_iff hP'.double).mpr rfl
    · rw [Bool.eq_iff_iff, hP.isIdentity_iff, hP'.isIdentity_iff]

/-- The base point and the neutral element are operands of these laws. -/
theorem group_laws_base :
    base.Valid ∧ identity.Valid ∧ (base + identity).same (identity + base) ∧
      (base + -base).isIdentity ∧ (base + -base).same identity := by
  have hbase := base_denotes.valid
  have hidentity := identity_denotes.valid
  obtain ⟨-, -, hcomm, -, hcancel, hinverse, -⟩ := group_laws hbase hidentity hbase
  exact ⟨hbase, hidentity, hcomm, hcancel, hinverse⟩

end Point

end TwistedEdwards
