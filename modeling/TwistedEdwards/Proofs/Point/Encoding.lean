import TwistedEdwards.Point.Encoding
import TwistedEdwards.Proofs.Field.Canonical
import TwistedEdwards.Proofs.Field.Power
import TwistedEdwards.Proofs.Point.Validity

/-!
# What a point writes

The string of a quadruple is that of the point of the curve that it stands for, whatever
its `Z` is: the least number of the ordinate, and bit 255 for an odd abscissa.

Main statement: `Point.Denotes.toOctets_eq`.
-/

namespace TwistedEdwards

/-- The compressed form of a point of the curve. -/
def AffinePoint.toOctets (P : AffinePoint) : Octets 32 :=
  ⟨(LittleEndian.bytes 32 (P.y.val + 2 ^ 255 * (P.x.val % 2))).toArray, by simp⟩

/-- The least number of an ordinate leaves bit 255 free. -/
theorem AffinePoint.y_val_lt (P : AffinePoint) : P.y.val < 2 ^ 255 :=
  (ZMod.val_lt P.y).trans (by decide)

/-- The number of the string of a point. -/
theorem AffinePoint.value_toOctets (P : AffinePoint) :
    LittleEndian.value P.toOctets.toList = P.y.val + 2 ^ 255 * (P.x.val % 2) := by
  have hy := P.y_val_lt
  have hlist : P.toOctets.toList =
      LittleEndian.bytes 32 (P.y.val + 2 ^ 255 * (P.x.val % 2)) := rfl
  rw [hlist, LittleEndian.value_bytes]
  omega

namespace Point

variable {p : Point} {P : AffinePoint}

/-- Dividing by `Z` gives the affine coordinates back. -/
theorem Denotes.affine_denotes (hp : p.Denotes P) :
    FieldElement.Denotes (2 ^ 52) (p.x * p.z.inverse) P.x ∧
      FieldElement.Denotes (2 ^ 52) (p.y * p.z.inverse) P.y := by
  have hinverse := hp.z.denotes.inverse
  constructor
  · exact (hp.x.mul hinverse).mono.of_eq (mul_inv_cancel_right₀ hp.z_ne_zero _)
  · exact (hp.y.mul hinverse).mono.of_eq (mul_inv_cancel_right₀ hp.z_ne_zero _)

/-- A point is written the same in every representation. -/
theorem Denotes.toOctets_eq (hp : p.Denotes P) : p.toOctets = P.toOctets := by
  obtain ⟨hx, hy⟩ := hp.affine_denotes
  have hodd := hx.isNegative_iff
  have hvalue := hy.value_toOctets
  have hroom : LittleEndian.value (p.y * p.z.inverse).toOctets.toList < 2 ^ 255 := by
    rw [hvalue]
    exact P.y_val_lt
  apply Octets.value_inj
  rw [P.value_toOctets, Point.toOctets, Octets.value_xorTopBit hroom, hvalue]
  cases hbit : (p.x * p.z.inverse).isNegative with
  | false =>
      have heven : ¬P.x.val % 2 = 1 := by
        rw [← hodd, hbit]
        exact Bool.false_ne_true
      simp only [Bool.false_eq_true, if_false]
      omega
  | true =>
      have hone := hodd.mp hbit
      simp only [if_true]
      omega

end Point

end TwistedEdwards
