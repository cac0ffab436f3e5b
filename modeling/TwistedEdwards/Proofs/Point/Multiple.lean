import TwistedEdwards.Proofs.Curve.Order
import TwistedEdwards.Proofs.Multiscalar.Batch
import TwistedEdwards.Proofs.Point.Equality
import TwistedEdwards.Proofs.Point.Membership
import TwistedEdwards.Proofs.Scalar.Montgomery

/-!
# Multiples of a point by a scalar

Scalars are added, multiplied and negated modulo the order, but what multiplies a point is
the number of a reduced scalar.  Both are the same on the points that the order kills, and
only there: the multiple by minus one is the negative on no other point.  The base point is
one of them, and on its multiples equality is equality of the scalars.

Main statements: `Point.Denotes.mul`, `Point.Denotes.mulVartime`,
`Point.isModuleAction_iff` and `Point.base_order`.
-/

namespace TwistedEdwards

namespace Point

variable {p : Point} {P : AffinePoint} {s : Scalar}

/-- The `n`-fold sum of a point. -/
def multiple (n : Nat) (p : Point) : Point := Nat.repeat (· + p) n identity

/-- Adding a point again and again gives its multiples. -/
theorem Denotes.multiple (hp : p.Denotes P) (n : Nat) : (multiple n p).Denotes (n • P) := by
  induction n with
  | zero =>
      rw [zero_nsmul]
      exact identity_denotes
  | succ n ih =>
      rw [succ_nsmul]
      exact ih.add hp

/-- The batch of a single term is admissible. -/
theorem Denotes.admissible (hp : p.Denotes P) (hs : s.Reduced) : Batch.Admissible [s] [p] := by
  refine ⟨rfl, by simp only [List.length_singleton]; decide, ?_, ?_⟩
  · intro t ht
    rwa [List.mem_singleton.mp ht]
  · intro q hq
    rw [List.mem_singleton.mp hq]
    exact hp.valid

/-- The sum of a batch of one term is a multiple. -/
theorem Denotes.groupSum_singleton (hp : p.Denotes P) (s : Scalar) :
    Batch.groupSum [s] [p] = s.toNat • P := by
  rw [Batch.groupSum, List.zip_cons_cons, List.zip_nil_left, List.map_singleton, List.sum_singleton]
  exact congrArg (s.toNat • ·) hp.toAffine_eq

/-- The constant-time multiple stands for the multiple by the number of the scalar. -/
theorem Denotes.mul (hp : p.Denotes P) (hs : s.Reduced) : (p.mul s).Denotes (s.toNat • P) := by
  rw [← hp.groupSum_singleton]
  exact (hp.admissible hs).uniform_denotes

/-- The variable-time multiple stands for the same. -/
theorem Denotes.mulVartime (hp : p.Denotes P) (hs : s.Reduced) :
    (p.mulVartime s).Denotes (s.toNat • P) := by
  rw [← hp.groupSum_singleton, Point.mulVartime, mulOctetsVartime_eq_sum]
  exact (hp.admissible hs).algorithm_denotes .straus

end Point

namespace AffinePoint

variable {P : AffinePoint} {s t : Scalar} (hP : groupOrder • P = 0)

include hP in
/-- On a point that the order kills the multiple depends on the residue only. -/
theorem nsmul_eq_of_cast_eq {m n : Nat} (h : (m : ZMod groupOrder) = n) : m • P = n • P := by
  rw [ZMod.natCast_eq_natCast_iff] at h
  exact nsmul_eq_nsmul_iff_modEq.mpr (h.of_dvd (addOrderOf_dvd_of_nsmul_eq_zero hP))

include hP in
/-- The sum of scalars multiplies as the sum of their numbers. -/
theorem toNat_add_nsmul (hs : s.Reduced) (ht : t.Reduced) :
    (s + t).toNat • P = s.toNat • P + t.toNat • P := by
  rw [← add_nsmul]
  apply nsmul_eq_of_cast_eq hP
  rw [Nat.cast_add]
  exact (hs.denotes.add ht.denotes).residue_eq

include hP in
/-- The product of scalars multiplies as one after the other. -/
theorem toNat_mul_nsmul (hs : s.Reduced) (ht : t.Reduced) :
    (s * t).toNat • P = s.toNat • t.toNat • P := by
  rw [← mul_nsmul']
  apply nsmul_eq_of_cast_eq hP
  rw [Nat.cast_mul]
  exact (hs.denotes.mul ht.denotes).residue_eq

include hP in
/-- The negative of a scalar multiplies as the negative. -/
theorem toNat_neg_nsmul (hs : s.Reduced) : (-s).toNat • P = -(s.toNat • P) := by
  rw [eq_neg_iff_add_eq_zero, ← add_nsmul, ← zero_nsmul P]
  apply nsmul_eq_of_cast_eq hP
  rw [Nat.cast_add, Nat.cast_zero]
  exact eq_neg_iff_add_eq_zero.mp hs.denotes.neg.residue_eq

end AffinePoint

namespace Point

/-- Sums, products and negatives of scalars act as sums, compositions and negatives of multiples. -/
structure IsModuleAction (multiply : Point → Scalar → Point) (p : Point) : Prop where
  add : ∀ a b : Scalar, a.Reduced → b.Reduced →
    (multiply p (a + b)).same (multiply p a + multiply p b) = true
  mul : ∀ a b : Scalar, a.Reduced → b.Reduced →
    (multiply p (a * b)).same (multiply (multiply p b) a) = true
  neg : ∀ a : Scalar, a.Reduced → (multiply p (-a)).same (-multiply p a) = true

variable {multiply : Point → Scalar → Point} {p : Point} {P : AffinePoint}

/-- A way of multiplying that takes the multiple by the number of a reduced scalar is an action of
the residues exactly on the points that the order kills. -/
theorem isModuleAction_iff_nsmul_eq_zero
    (hmultiply : ∀ {q : Point} {Q : AffinePoint} {s : Scalar}, q.Denotes Q → s.Reduced →
      (multiply q s).Denotes (s.toNat • Q))
    (hp : p.Denotes P) : IsModuleAction multiply p ↔ groupOrder • P = 0 := by
  constructor
  · intro haction
    -- minus one is the number one less than the order
    have hone := Scalar.one_denotes
    have hneg := haction.neg Scalar.one hone.reduced
    rw [(hmultiply hp hone.neg.reduced).same_iff (hmultiply hp hone.reduced).neg] at hneg
    have hnumber : (-Scalar.one).toNat + Scalar.one.toNat = groupOrder := by decide
    rw [← hnumber, add_nsmul, hneg, neg_add_cancel]
  · intro hP
    refine ⟨?_, ?_, ?_⟩
    · intro a b ha hb
      have hsum := hmultiply hp (ha.denotes.add hb.denotes).reduced
      rw [hsum.same_iff ((hmultiply hp ha).add (hmultiply hp hb))]
      exact AffinePoint.toNat_add_nsmul hP ha hb
    · intro a b ha hb
      have hproduct := hmultiply hp (ha.denotes.mul hb.denotes).reduced
      rw [hproduct.same_iff (hmultiply (hmultiply hp hb) ha)]
      exact AffinePoint.toNat_mul_nsmul hP ha hb
    · intro a ha
      have hnegative := hmultiply hp ha.denotes.neg.reduced
      rw [hnegative.same_iff (hmultiply hp ha).neg]
      exact AffinePoint.toNat_neg_nsmul hP ha

/-- **Multiplication by scalars is an action** of the residues modulo the order exactly on the
points that the order kills, in constant time and in variable time. -/
theorem isModuleAction_iff (hp : p.Valid) :
    ((multiple groupOrder p).isIdentity = true ↔ IsModuleAction mul p) ∧
      ((multiple groupOrder p).isIdentity = true ↔ IsModuleAction mulVartime p) := by
  have hmultiple := (hp.denotes.multiple groupOrder).isIdentity_iff
  have hmul := isModuleAction_iff_nsmul_eq_zero (fun hq hs => hq.mul hs) hp.denotes
  have hvartime := isModuleAction_iff_nsmul_eq_zero (fun hq hs => hq.mulVartime hs) hp.denotes
  exact ⟨hmultiple.trans hmul.symm, hmultiple.trans hvartime.symm⟩

/-- The base point is killed by the order, so its multiples are such an action. -/
theorem isModuleAction_iff_base :
    base.Valid ∧ (multiple groupOrder base).isIdentity = true ∧ IsModuleAction mul base ∧
      IsModuleAction mulVartime base := by
  have hbase := base_denotes.valid
  have hkilled : (multiple groupOrder base).isIdentity = true := by
    rw [(base_denotes.multiple groupOrder).isIdentity_iff]
    exact AffinePoint.groupOrder_nsmul_base
  obtain ⟨hmul, hvartime⟩ := isModuleAction_iff hbase
  exact ⟨hbase, hkilled, hmul.mp hkilled, hvartime.mp hkilled⟩

/-- **The base point has the order** that scalars are reduced by, a prime, so its multiples are
told apart by the scalar. -/
theorem base_order :
    base.onCurve = true ∧ base.isIdentity = false ∧ groupOrder.Prime ∧
      Nat.card (AddSubgroup.zmultiples AffinePoint.base) = groupOrder ∧
      (multiple groupOrder base).isIdentity = true ∧
      ∀ a b : Scalar, a.Reduced → b.Reduced →
        ((base.mul a).same (base.mul b) = true ↔ a = b) ∧
          ((base.mulVartime a).same (base.mulVartime b) = true ↔ a = b) := by
  have hkilled := (base_denotes.multiple groupOrder).isIdentity_iff
  have hidentity := base_denotes.isIdentity_iff
  refine ⟨base_denotes.valid.onCurve, ?_, groupOrder_prime, ?_, ?_, ?_⟩
  · rw [Bool.eq_false_iff, Ne, hidentity]
    exact AffinePoint.base_ne_zero
  · rw [Nat.card_zmultiples, AffinePoint.addOrderOf_base]
  · rw [hkilled]
    exact AffinePoint.groupOrder_nsmul_base
  · intro a b ha hb
    have hscalar : a.toNat • AffinePoint.base = b.toNat • AffinePoint.base ↔ a = b :=
      (AffinePoint.nsmul_base_eq_iff _ _).trans (ha.denotes.eq_iff hb.denotes).symm
    rw [(base_denotes.mul ha).same_iff (base_denotes.mul hb),
      (base_denotes.mulVartime ha).same_iff (base_denotes.mulVartime hb)]
    exact ⟨hscalar, hscalar⟩

/-- The multiples by one and by zero differ. -/
theorem base_order_one :
    Scalar.one.Reduced ∧ Scalar.zero.Reduced ∧
      (base.mul Scalar.one).same (base.mul Scalar.zero) = false ∧
      (base.mulVartime Scalar.one).same (base.mulVartime Scalar.zero) = false := by
  obtain ⟨-, -, -, -, -, hinjective⟩ := base_order
  have hone := Scalar.one_denotes.reduced
  have hzero := Scalar.zero_denotes.reduced
  have hne : Scalar.one ≠ Scalar.zero := by decide
  obtain ⟨hmul, hvartime⟩ := hinjective _ _ hone hzero
  refine ⟨hone, hzero, ?_, ?_⟩
  · rw [Bool.eq_false_iff, Ne, hmul]
    exact hne
  · rw [Bool.eq_false_iff, Ne, hvartime]
    exact hne

end Point

end TwistedEdwards
