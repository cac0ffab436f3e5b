import Mathlib.GroupTheory.OrderOfElement
import TwistedEdwards.Proofs.Point.Validity

/-!
# The order of the base point

The multiple of the base point by the order is taken by doubling and adding, on numbers below
the prime, with the coordinates kept over a common denominator so that nothing is inverted.
It comes out neutral.  The order is prime and the base point is not neutral, so no smaller
multiple is neutral, and multiples by two numbers are the same exactly if the numbers agree
modulo the order.

Main statements: `Coordinates.Denotes.multiple`, `AffinePoint.groupOrder_nsmul_base`, and
`AffinePoint.nsmul_base_eq_iff`.
-/

namespace TwistedEdwards

open Curve

/-- The coordinates of a point, and their product, over a common denominator. -/
structure Coordinates where
  x : Nat
  y : Nat
  z : Nat
  t : Nat

namespace Coordinates

/-- The sum, with every product reduced. -/
def sum (a b : Coordinates) : Coordinates :=
  let abscissa := (a.x * b.y + a.y * b.x) % fieldOrder
  let ordinate := (a.y * b.y + a.x * b.x) % fieldOrder
  let product := a.t * b.t % fieldOrder
  let plus := (a.z * b.z + d.toNat * product) % fieldOrder
  let minus := (a.z * b.z + (fieldOrder - d.toNat) * product) % fieldOrder
  ⟨abscissa * minus % fieldOrder, ordinate * plus % fieldOrder, plus * minus % fieldOrder,
    abscissa * ordinate % fieldOrder⟩

/-- The multiple by the number of the `bits` low bits. -/
def multiple : (bits : Nat) → Coordinates → (n : Nat) → Coordinates
  | 0, _, _ => ⟨0, 1, 1, 0⟩
  | bits + 1, c, n =>
    let rest := multiple bits (c.sum c) (n / 2)
    if n % 2 = 1 then rest.sum c else rest

/-- The coordinates of the base point. -/
def base : Coordinates := ⟨baseX.toNat, baseY.toNat, 1, baseT.toNat⟩

/-- The numbers stand for the point. -/
structure Denotes (c : Coordinates) (P : AffinePoint) : Prop where
  x : (c.x : ZMod fieldOrder) = P.x * c.z
  y : (c.y : ZMod fieldOrder) = P.y * c.z
  t : (c.t : ZMod fieldOrder) = P.x * P.y * c.z
  z_ne_zero : (c.z : ZMod fieldOrder) ≠ 0

variable {a b c : Coordinates} {P Q : AffinePoint}

/-- Numerators and denominators of the addition formula times a common factor make a sum. -/
theorem denotes_add {k : ZMod fieldOrder} (hk : k ≠ 0) {abscissa ordinate plus minus : Nat}
    (habscissa : (abscissa : ZMod fieldOrder) = k * (P.x * Q.y + P.y * Q.x))
    (hordinate : (ordinate : ZMod fieldOrder) = k * (P.y * Q.y + P.x * Q.x))
    (hplus : (plus : ZMod fieldOrder) = k * (1 + P.cross Q))
    (hminus : (minus : ZMod fieldOrder) = k * (1 - P.cross Q)) :
    (⟨abscissa * minus % fieldOrder, ordinate * plus % fieldOrder, plus * minus % fieldOrder,
      abscissa * ordinate % fieldOrder⟩ : Coordinates).Denotes (P + Q) := by
  have hx := AffinePoint.x_add P Q
  have hy := AffinePoint.y_add P Q
  rw [← AffinePoint.add_def] at hx hy
  refine ⟨?_, ?_, ?_, ?_⟩ <;> dsimp only <;>
    simp only [ZMod.natCast_mod, Nat.cast_mul, habscissa, hordinate, hplus, hminus]
  · linear_combination -(k ^ 2 * (1 - P.cross Q)) * hx
  · linear_combination -(k ^ 2 * (1 + P.cross Q)) * hy
  · linear_combination -(k ^ 2 * (P + Q).y * (1 - P.cross Q)) * hx -
      (k ^ 2 * (P.x * Q.y + P.y * Q.x)) * hy
  · exact mul_ne_zero (mul_ne_zero hk (AffinePoint.one_add_cross_ne_zero P Q))
      (mul_ne_zero hk (AffinePoint.one_sub_cross_ne_zero P Q))

theorem Denotes.sum (ha : a.Denotes P) (hb : b.Denotes Q) : (a.sum b).Denotes (P + Q) := by
  have hd : ((d.toNat : Nat) : ZMod fieldOrder) = coefficient := rfl
  have hnegated : ((fieldOrder - d.toNat : Nat) : ZMod fieldOrder) = -coefficient := by
    rw [Nat.cast_sub (by decide), ZMod.natCast_self, zero_sub, hd]
  refine denotes_add (mul_ne_zero ha.z_ne_zero hb.z_ne_zero) ?_ ?_ ?_ ?_ <;>
    simp only [AffinePoint.cross, ZMod.natCast_mod, Nat.cast_add, Nat.cast_mul, hd, hnegated, ha.x,
      ha.y, ha.t, hb.x, hb.y, hb.t] <;>
    ring

/-- Doubling and adding takes the multiple once every bit is looked at. -/
theorem Denotes.multiple (hc : c.Denotes P) {bits n : Nat} (hn : n < 2 ^ bits) :
    (multiple bits c n).Denotes (n • P) := by
  induction bits generalizing c P n with
  | zero =>
      have hzero : n = 0 := by simpa using hn
      rw [hzero, zero_nsmul, AffinePoint.zero_def]
      refine ⟨?_, ?_, ?_, ?_⟩ <;> simp [Coordinates.multiple, AffinePoint.zero]
  | succ bits ih =>
      have hhalf : n / 2 < 2 ^ bits := by
        rw [Nat.pow_succ] at hn
        omega
      have hrest := ih (hc.sum hc) hhalf
      rw [← two_nsmul, ← mul_nsmul'] at hrest
      rw [Coordinates.multiple]
      split
      · next hodd =>
        have hsum := hrest.sum hc
        rwa [← succ_nsmul, show n / 2 * 2 + 1 = n by omega] at hsum
      · next heven =>
        rwa [show n / 2 * 2 = n by omega] at hrest

theorem base_denotes : base.Denotes AffinePoint.base := by
  have hone : ((1 : Nat) : ZMod fieldOrder) = 1 := Nat.cast_one
  have hz : base.z = 1 := rfl
  have ht : ((baseT.toNat : Nat) : ZMod fieldOrder) = baseX.residue * baseY.residue := base_product
  refine ⟨?_, ?_, ?_, ?_⟩ <;> rw [hz, hone]
  · rw [mul_one]
    rfl
  · rw [mul_one]
    rfl
  · rw [mul_one]
    exact ht
  · exact one_ne_zero

/-- The kernel doubles and adds. -/
theorem multiple_groupOrder : (multiple 253 base groupOrder).x = 0 ∧
    (multiple 253 base groupOrder).y = (multiple 253 base groupOrder).z := by
  decide +kernel

end Coordinates

namespace AffinePoint

/-- The ordinate of the base point is not one. -/
theorem base_ne_zero : base ≠ 0 := by
  intro hzero
  have hx := congrArg AffinePoint.x hzero
  rw [zero_def] at hx
  change ((baseX.toNat : Nat) : ZMod fieldOrder) = 0 at hx
  rw [ZMod.natCast_eq_zero_iff] at hx
  exact absurd hx (by decide)

/-- **The multiple by the order is neutral.** -/
theorem groupOrder_nsmul_base : groupOrder • base = 0 := by
  obtain ⟨hx, hy⟩ := Coordinates.multiple_groupOrder
  have hmultiple := Coordinates.base_denotes.multiple (by decide : groupOrder < 2 ^ 253)
  generalize groupOrder • base = P at hmultiple
  obtain ⟨habscissa, hordinate, -, hz⟩ := hmultiple
  rw [hx, Nat.cast_zero, zero_eq_mul] at habscissa
  rw [hy, eq_comm, mul_eq_right₀ hz] at hordinate
  exact AffinePoint.ext (habscissa.resolve_right hz) hordinate

/-- The order is prime and kills a point that is not neutral. -/
theorem addOrderOf_base : addOrderOf base = groupOrder :=
  addOrderOf_eq_prime groupOrder_nsmul_base base_ne_zero

/-- Multiples of the base point are told apart by their numbers modulo the order. -/
theorem nsmul_base_eq_iff (m n : Nat) : m • base = n • base ↔ (m : ZMod groupOrder) = n := by
  rw [nsmul_eq_nsmul_iff_modEq, addOrderOf_base, ZMod.natCast_eq_natCast_iff]

end AffinePoint

end TwistedEdwards
