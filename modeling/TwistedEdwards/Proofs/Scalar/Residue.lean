import Mathlib.Data.ZMod.Basic
import Mathlib.Tactic.LinearCombination
import TwistedEdwards.Proofs.Prime
import TwistedEdwards.Proofs.Scalar.Octets

/-!
# Scalars as residues

A reduced scalar stands for its residue modulo the order, and one residue has one reduced
scalar, so comparing limbs decides equality.

A difference borrows from limb to limb on words that wrap; the number that comes out is
short by `2 ^ 260` exactly if the top limb borrowed, and then the order is added back.  So
the difference of two numbers less than the order apart is reduced.  A sum is the
difference of a number below twice the order from the order.

Main statements: `Scalar.sub_spec`, `Scalar.Denotes.add`, `Scalar.Denotes.sub`,
`Scalar.Denotes.neg` and `Scalar.Denotes.eq_iff`.
-/

namespace TwistedEdwards

namespace Scalar

/-- The residue that the limbs stand for. -/
def residue (s : Scalar) : ZMod groupOrder := s.toNat

/-- `s` is reduced and stands for `x`. -/
structure Denotes (s : Scalar) (x : ZMod groupOrder) : Prop where
  reduced : s.Reduced
  residue_eq : s.residue = x

variable {f g s t : Scalar} {x y : ZMod groupOrder}

theorem Denotes.of_eq (h : s.Denotes x) (hxy : x = y) : s.Denotes y := hxy ▸ h

theorem Reduced.denotes (h : s.Reduced) : s.Denotes s.residue := ⟨h, rfl⟩

theorem toNat_and_mask (a : UInt64) : (a &&& mask).toNat = a.toNat % 2 ^ 52 :=
  Bits.toNat_and_ones (by decide)

theorem toNat_and_mask_lt (a : UInt64) : (a &&& mask).toNat < 2 ^ 52 := by
  rw [toNat_and_mask]
  exact Nat.mod_lt _ (by decide)

theorem toNat_shiftRight_52 (a : UInt64) : (a >>> 52).toNat = a.toNat / 2 ^ 52 :=
  Bits.toNat_shiftRight (by decide)

/-- Limbs below the radix are determined by their number. -/
theorem Bounded.eq_of_toNat_eq (hf : f.Bounded (2 ^ 52)) (hg : g.Bounded (2 ^ 52))
    (h : f.toNat = g.toNat) : f = g := by
  obtain ⟨f0, f1, f2, f3, f4⟩ := f
  obtain ⟨g0, g1, g2, g3, g4⟩ := g
  obtain ⟨hf0, hf1, hf2, hf3, hf4⟩ := hf
  obtain ⟨hg0, hg1, hg2, hg3, hg4⟩ := hg
  simp only [toNat] at *
  simp only [Scalar.mk.injEq, ← UInt64.toNat_inj]
  omega

theorem Bounded.toNat_lt (hf : f.Bounded (2 ^ 52)) : f.toNat < 2 ^ 260 := by
  obtain ⟨h0, h1, h2, h3, h4⟩ := hf
  simp only [toNat]
  omega

/-- Whatever the other limbs are, the number bounds the top limb. -/
theorem top_lt (h : f.toNat < 2 ^ 260) : f.l4.toNat < 2 ^ 52 := by
  simp only [toNat] at h
  omega

/-- The number of a reduced scalar is the least one of its residue. -/
theorem Denotes.toNat_eq (h : s.Denotes x) : s.toNat = x.val := by
  rw [← h.residue_eq, residue, ZMod.val_natCast, Nat.mod_eq_of_lt h.reduced.2]

/-- Standing for the residue of a number is being its remainder. -/
theorem Denotes.toNat_eq_mod {n : Nat} (h : s.Denotes n) : s.toNat = n % groupOrder := by
  rw [h.toNat_eq, ZMod.val_natCast]

/-- One residue has one reduced scalar. -/
theorem Denotes.eq_iff (hs : s.Denotes x) (ht : t.Denotes y) : s = t ↔ x = y := by
  constructor
  · rintro rfl
    exact hs.residue_eq.symm.trans ht.residue_eq
  · rintro rfl
    exact hs.reduced.1.eq_of_toNat_eq ht.reduced.1 (hs.toNat_eq.trans ht.toNat_eq.symm)

/-- Carrying limbs below twice the radix drops what leaves the top. -/
theorem toNat_addCarry (hf : f.Bounded (2 ^ 52)) (hg : g.Bounded (2 ^ 52)) :
    (addCarry f g).toNat = (f.toNat + g.toNat) % 2 ^ 260 ∧ (addCarry f g).Bounded (2 ^ 52) := by
  obtain ⟨f0, f1, f2, f3, f4⟩ := hf
  obtain ⟨g0, g1, g2, g3, g4⟩ := hg
  have hcarry : ∀ {a b c : UInt64}, a.toNat < 2 ^ 52 → b.toNat < 2 ^ 52 → c.toNat < 2 ^ 54 →
      (a + b + (c >>> 52)).toNat = a.toNat + b.toNat + c.toNat / 2 ^ 52 ∧
        (a + b + (c >>> 52)).toNat < 2 ^ 54 := by
    intro a b c ha hb hc
    rw [UInt64.toNat_add, UInt64.toNat_add, toNat_shiftRight_52]
    omega
  have e0 : (f.l0 + g.l0).toNat = f.l0.toNat + g.l0.toNat := by
    rw [UInt64.toNat_add]
    omega
  obtain ⟨e1, b1⟩ := hcarry f1 g1 (c := f.l0 + g.l0) (by omega)
  obtain ⟨e2, b2⟩ := hcarry f2 g2 b1
  obtain ⟨e3, b3⟩ := hcarry f3 g3 b2
  obtain ⟨e4, b4⟩ := hcarry f4 g4 b3
  refine ⟨?_, toNat_and_mask_lt _, toNat_and_mask_lt _, toNat_and_mask_lt _,
    toNat_and_mask_lt _, toNat_and_mask_lt _⟩
  simp only [addCarry, toNat, toNat_and_mask]
  omega

/-- One limb of a difference on a word that wraps: bit 63 is the borrow. -/
theorem limb_borrow {a b : UInt64} (ha : a.toNat < 2 ^ 52) (hb : b.toNat ≤ 2 ^ 52) :
    ((a - b) &&& mask).toNat + b.toNat = a.toNat + ((a - b) >>> 63).toNat * 2 ^ 52 ∧
      ((a - b) >>> 63).toNat ≤ 1 := by
  have hbit : ((a - b) >>> 63).toNat = (a - b).toNat / 2 ^ 63 := Bits.toNat_shiftRight (by decide)
  rw [toNat_and_mask, hbit, UInt64.toNat_sub]
  omega

/-- A difference is exact but for `2 ^ 260` if the top limb borrowed. -/
theorem toNat_subBorrow (hf : f.Bounded (2 ^ 52)) (hg : g.Bounded (2 ^ 52)) :
    (subBorrow f g).1.toNat + g.toNat =
        f.toNat + (if (subBorrow f g).2 >>> 63 = 1 then 2 ^ 260 else 0) ∧
      (subBorrow f g).1.Bounded (2 ^ 52) := by
  obtain ⟨f0, f1, f2, f3, f4⟩ := hf
  obtain ⟨g0, g1, g2, g3, g4⟩ := hg
  have hsubtrahend : ∀ {b c : UInt64}, b.toNat < 2 ^ 52 → (c >>> 63).toNat ≤ 1 →
      (b + (c >>> 63)).toNat = b.toNat + (c >>> 63).toNat ∧ (b + (c >>> 63)).toNat ≤ 2 ^ 52 := by
    intro b c hb hc
    rw [UInt64.toNat_add]
    omega
  obtain ⟨e0, b0⟩ := limb_borrow f0 (Nat.le_of_lt g0)
  obtain ⟨s1, t1⟩ := hsubtrahend g1 b0
  obtain ⟨e1, b1⟩ := limb_borrow f1 t1
  obtain ⟨s2, t2⟩ := hsubtrahend g2 b1
  obtain ⟨e2, b2⟩ := limb_borrow f2 t2
  obtain ⟨s3, t3⟩ := hsubtrahend g3 b2
  obtain ⟨e3, b3⟩ := limb_borrow f3 t3
  obtain ⟨s4, t4⟩ := hsubtrahend g4 b3
  obtain ⟨e4, b4⟩ := limb_borrow f4 t4
  refine ⟨?_, toNat_and_mask_lt _, toNat_and_mask_lt _, toNat_and_mask_lt _,
    toNat_and_mask_lt _, toNat_and_mask_lt _⟩
  simp only [subBorrow, toNat, ← UInt64.toNat_inj, UInt64.toNat_one]
  split <;> omega

/-- A difference of numbers less than the order apart is reduced: the order is added back exactly
if the subtrahend is larger. -/
theorem sub_spec (hf : f.Bounded (2 ^ 52)) (hg : g.Bounded (2 ^ 52))
    (hlt : f.toNat < g.toNat + groupOrder) (hle : g.toNat ≤ f.toNat + groupOrder) :
    (f - g).Denotes (f.residue - g.residue) := by
  obtain ⟨hnumber, hlimbs⟩ := toNat_subBorrow hf hg
  have hsmall := hlimbs.toNat_lt
  have horder : groupOrder < 2 ^ 253 := by decide
  -- what is added back, with the borrow that asks for it
  let back : Scalar := order.masked (underflowMask (subBorrow f g).2)
  have hback : back.Bounded (2 ^ 52) ∧
      back.toNat = if (subBorrow f g).2 >>> 63 = 1 then groupOrder else 0 := by
    simp only [back, masked_underflowMask]
    split
    · exact ⟨by decide, toNat_order⟩
    · exact ⟨by decide, by decide⟩
  obtain ⟨hsum, hreduced⟩ := toNat_addCarry hlimbs hback.1
  have hdef : f - g = addCarry (subBorrow f g).1 back := rfl
  have hdiff : (f - g).toNat + g.toNat =
      f.toNat + (if (subBorrow f g).2 >>> 63 = 1 then groupOrder else 0) ∧
        (f - g).toNat < groupOrder := by
    rw [hdef, hsum, hback.2]
    generalize groupOrder = order at *
    by_cases hborrowed : (subBorrow f g).2 >>> 63 = 1
    · simp only [hborrowed, if_true] at hnumber ⊢
      omega
    · simp only [hborrowed, if_false] at hnumber ⊢
      omega
  refine ⟨⟨hdef ▸ hreduced, hdiff.2⟩, ?_⟩
  have hcast := congrArg (fun n : Nat => (n : ZMod groupOrder)) hdiff.1
  have hzero :
      ((if (subBorrow f g).2 >>> 63 = 1 then groupOrder else 0 : Nat) : ZMod groupOrder) = 0 := by
    split <;> simp
  simp only [Nat.cast_add, hzero, add_zero] at hcast
  exact eq_sub_of_add_eq hcast

theorem zero_denotes : zero.Denotes 0 := ⟨by decide, by simp [residue, toNat, zero]⟩

theorem one_denotes : one.Denotes 1 := ⟨by decide, by simp [residue, toNat, one]⟩

theorem residue_order : order.residue = 0 := by
  rw [residue, toNat_order, ZMod.natCast_self]

/-- The order is added back where the difference fell below zero, so it stays reduced. -/
theorem Denotes.sub (hs : s.Denotes x) (ht : t.Denotes y) : (s - t).Denotes (x - y) := by
  have hslt := hs.reduced.2
  have htlt := ht.reduced.2
  rw [← hs.residue_eq, ← ht.residue_eq]
  exact sub_spec hs.reduced.1 ht.reduced.1 (by omega) (by omega)

/-- A sum is below twice the order, so one subtraction of the order is enough. -/
theorem Denotes.add (hs : s.Denotes x) (ht : t.Denotes y) : (s + t).Denotes (x + y) := by
  have hslt := hs.reduced.2
  have htlt := ht.reduced.2
  have horder : groupOrder < 2 ^ 253 := by decide
  obtain ⟨hsum, hlimbs⟩ := toNat_addCarry hs.reduced.1 ht.reduced.1
  rw [Nat.mod_eq_of_lt (by omega)] at hsum
  have hresidue : (addCarry s t).residue = x + y := by
    rw [residue, hsum, Nat.cast_add, ← hs.residue_eq, ← ht.residue_eq, residue, residue]
  have hdef : s + t = addCarry s t - order := rfl
  rw [hdef]
  refine (sub_spec hlimbs (by decide) ?_ ?_).of_eq ?_
  · rw [toNat_order]
    omega
  · rw [toNat_order]
    omega
  · rw [hresidue, residue_order, sub_zero]

theorem Denotes.neg (hs : s.Denotes x) : (-s).Denotes (-x) := by
  rw [neg_eq_zero_sub, ← zero_sub x]
  exact zero_denotes.sub hs

/-- Reduced scalars are equal limb by limb where their residues are. -/
theorem Denotes.beq_iff (hs : s.Denotes x) (ht : t.Denotes y) : (s == t) = true ↔ x = y := by
  rw [beq_iff_eq, hs.eq_iff ht]

/-- They differ in a limb where their residues differ. -/
theorem Denotes.bne_iff (hs : s.Denotes x) (ht : t.Denotes y) : (s != t) = true ↔ x ≠ y := by
  rw [bne_iff_ne, Ne, hs.eq_iff ht]

theorem Denotes.isZero_iff (hs : s.Denotes x) : s.isZero = true ↔ x = 0 :=
  (Scalar.isZero_iff s).trans (hs.eq_iff zero_denotes)

end Scalar

end TwistedEdwards
