import Mathlib.Data.ZMod.Basic
import Mathlib.Tactic.LinearCombination
import TwistedEdwards.Field.Basic

/-!
# Limbs as residues

The limbs of a field element stand for a residue modulo the prime.  An operation
is correct while no limb runs past its word, so every law comes with a bound on
the limbs that go in and a bound on the limbs that come out; `Denotes b f x` says
both at once, that `f` stands for `x` and that its limbs are below `b`.

A carry round reads off the digits of a number in radix `2 ^ 51` and puts what
lies above bit 255 back nineteenfold, which is what `CarriedFrom` states.

Main statements: `FieldElement.Denotes.add`, `FieldElement.Denotes.sub` and
`FieldElement.Denotes.neg`.
-/

namespace TwistedEdwards

namespace FieldElement

/-- The residue that the limbs stand for. -/
def residue (f : FieldElement) : ZMod fieldOrder := f.toNat

theorem residue_eq_natCast_iff {f : FieldElement} {n : Nat} :
    f.residue = n ↔ f.toNat % fieldOrder = n % fieldOrder :=
  ZMod.natCast_eq_natCast_iff' f.toNat n fieldOrder

/-- A residue vanishes where the prime divides the number. -/
theorem residue_eq_zero_iff {f : FieldElement} : f.residue = 0 ↔ f.toNat % fieldOrder = 0 := by
  rw [← Nat.cast_zero, residue_eq_natCast_iff, Nat.zero_mod]

/-- `f` stands for `x`, and every limb of it is below `b`. -/
structure Denotes (b : Nat) (f : FieldElement) (x : ZMod fieldOrder) : Prop where
  bounded : f.Bounded b
  residue_eq : f.residue = x

theorem Denotes.mono {b c : Nat} {f : FieldElement} {x : ZMod fieldOrder} (h : Denotes b f x)
    (hbc : b ≤ c := by decide) : Denotes c f x :=
  ⟨h.bounded.mono hbc, h.residue_eq⟩

theorem Denotes.of_eq {b : Nat} {f : FieldElement} {x y : ZMod fieldOrder} (h : Denotes b f x)
    (hxy : x = y) : Denotes b f y :=
  hxy ▸ h

/-- Bounded limbs stand for their residue. -/
theorem Bounded.denotes {b : Nat} {f : FieldElement} (h : f.Bounded b) :
    Denotes b f f.residue :=
  ⟨h, rfl⟩

theorem toNat_and_mask (a : UInt64) : (a &&& mask).toNat = a.toNat % 2 ^ 51 :=
  Bits.toNat_and_ones (by decide)

theorem toNat_shiftRight_51 (a : UInt64) : (a >>> 51).toNat = a.toNat / 2 ^ 51 :=
  Bits.toNat_shiftRight (by decide)

/-- In the residues, `2 ^ 255` is nineteen. -/
theorem natCast_two_pow_255 : ((2 ^ 255 : Nat) : ZMod fieldOrder) = 19 := by
  have hsplit : 2 ^ 255 = fieldOrder + 19 := by decide
  rw [hsplit, Nat.cast_add, ZMod.natCast_self, zero_add]
  rfl

/-- `f` has the digits of `n` in radix `2 ^ 51`, with what lies above bit 255 put back
nineteenfold in limb 0. -/
structure CarriedFrom (n : Nat) (f : FieldElement) : Prop where
  l0 : f.l0.toNat = n % 2 ^ 51 + 19 * (n / 2 ^ 255)
  l1 : f.l1.toNat = n / 2 ^ 51 % 2 ^ 51
  l2 : f.l2.toNat = n / 2 ^ 102 % 2 ^ 51
  l3 : f.l3.toNat = n / 2 ^ 153 % 2 ^ 51
  l4 : f.l4.toNat = n / 2 ^ 204 % 2 ^ 51

/-- Carrying numbers of any size from place to place gives the digits of their sum. -/
theorem digits_of_carries (a0 a1 a2 a3 a4 : Nat) :
    let n := a0 + a1 * 2 ^ 51 + a2 * 2 ^ 102 + a3 * 2 ^ 153 + a4 * 2 ^ 204
    let h1 := a1 + a0 / 2 ^ 51
    let h2 := a2 + h1 / 2 ^ 51
    let h3 := a3 + h2 / 2 ^ 51
    let h4 := a4 + h3 / 2 ^ 51
    a0 % 2 ^ 51 = n % 2 ^ 51 ∧ h1 % 2 ^ 51 = n / 2 ^ 51 % 2 ^ 51 ∧
      h2 % 2 ^ 51 = n / 2 ^ 102 % 2 ^ 51 ∧ h3 % 2 ^ 51 = n / 2 ^ 153 % 2 ^ 51 ∧
      h4 % 2 ^ 51 = n / 2 ^ 204 % 2 ^ 51 ∧ h4 / 2 ^ 51 = n / 2 ^ 255 := by
  intro n h1 h2 h3 h4
  refine ⟨by omega, by omega, by omega, by omega, by omega, by omega⟩

/-- What carrying leaves is the number with its top bits folded back. -/
theorem CarriedFrom.toNat_eq {n : Nat} {f : FieldElement} (h : CarriedFrom n f) :
    f.toNat = n % 2 ^ 255 + 19 * (n / 2 ^ 255) := by
  obtain ⟨h0, h1, h2, h3, h4⟩ := h
  have hdiv : ∀ k, n / 2 ^ (k + 51) = n / 2 ^ k / 2 ^ 51 := by
    intro k
    rw [Nat.div_div_eq_div_mul, ← Nat.pow_add]
  have d2 := hdiv 51
  have d3 := hdiv 102
  have d4 := hdiv 153
  have d5 := hdiv 204
  simp only [toNat, h0, h1, h2, h3, h4]
  omega

/-- Folding the top bits back keeps the residue. -/
theorem CarriedFrom.residue_eq {n : Nat} {f : FieldElement} (h : CarriedFrom n f) :
    f.residue = n := by
  have hsplit : (n : ZMod fieldOrder) = (n % 2 ^ 255 + 2 ^ 255 * (n / 2 ^ 255) : Nat) := by
    rw [Nat.mod_add_div]
  rw [residue, h.toNat_eq, hsplit, Nat.cast_add, Nat.cast_add, Nat.cast_mul, Nat.cast_mul,
    natCast_two_pow_255]
  rfl

/-- Only limb 0 can be above the radix, and by no more than is put back. -/
theorem CarriedFrom.bounded {n c : Nat} {f : FieldElement} (h : CarriedFrom n f)
    (hn : 19 * (n / 2 ^ 255) ≤ c) : f.Bounded (2 ^ 51 + c) := by
  obtain ⟨h0, h1, h2, h3, h4⟩ := h
  simp only [Bounded, h0, h1, h2, h3, h4]
  refine ⟨by omega, by omega, by omega, by omega, by omega⟩

/-- Every limb but the lowest is below `b`. -/
def UpperBounded (b : Nat) (f : FieldElement) : Prop :=
  f.l1.toNat < b ∧ f.l2.toNat < b ∧ f.l3.toNat < b ∧ f.l4.toNat < b

/-- A bound of all limbs is one of the upper four. -/
theorem Bounded.upper {b : Nat} {f : FieldElement} (h : f.Bounded b) : f.UpperBounded b := h.2

theorem UpperBounded.mono {b c : Nat} {f : FieldElement} (h : f.UpperBounded b) (hbc : b ≤ c) :
    f.UpperBounded c := by
  obtain ⟨h1, h2, h3, h4⟩ := h
  exact ⟨by omega, by omega, by omega, by omega⟩

/-- A carry round reads off the digits of the number.  Nothing is carried into limb 0 before it is
cut, and the top carry of 64-bit limbs is small, so only the carries between the limbs need room. -/
theorem UpperBounded.carriedFrom {f : FieldElement} (hf : f.UpperBounded (2 ^ 64 - 2 ^ 13 + 1)) :
    CarriedFrom f.toNat (carryRound f) := by
  have f0 := f.l0.toNat_lt
  obtain ⟨f1, f2, f3, f4⟩ := hf
  have e1 : (f.l1 + f.l0 >>> 51).toNat = f.l1.toNat + f.l0.toNat / 2 ^ 51 := by
    rw [UInt64.toNat_add, toNat_shiftRight_51]
    omega
  have e2 : (f.l2 + (f.l1 + f.l0 >>> 51) >>> 51).toNat =
      f.l2.toNat + (f.l1.toNat + f.l0.toNat / 2 ^ 51) / 2 ^ 51 := by
    rw [UInt64.toNat_add, toNat_shiftRight_51, e1]
    omega
  have e3 : (f.l3 + (f.l2 + (f.l1 + f.l0 >>> 51) >>> 51) >>> 51).toNat =
      f.l3.toNat + (f.l2.toNat + (f.l1.toNat + f.l0.toNat / 2 ^ 51) / 2 ^ 51) / 2 ^ 51 := by
    rw [UInt64.toNat_add, toNat_shiftRight_51, e2]
    omega
  have e4 : (f.l4 + (f.l3 + (f.l2 + (f.l1 + f.l0 >>> 51) >>> 51) >>> 51) >>> 51).toNat =
      f.l4.toNat + (f.l3.toNat + (f.l2.toNat + (f.l1.toNat + f.l0.toNat / 2 ^ 51) / 2 ^ 51) /
        2 ^ 51) / 2 ^ 51 := by
    rw [UInt64.toNat_add, toNat_shiftRight_51, e3]
    omega
  obtain ⟨d0, d1, d2, d3, d4, d5⟩ :=
    digits_of_carries f.l0.toNat f.l1.toNat f.l2.toNat f.l3.toNat f.l4.toNat
  have hnineteen : (19 : UInt64).toNat = 19 := rfl
  refine ⟨?_, ?_, ?_, ?_, ?_⟩
  · simp only [carryRound]
    rw [UInt64.toNat_add, UInt64.toNat_mul, toNat_and_mask, toNat_shiftRight_51, e4, hnineteen,
      d0, d5, toNat]
    omega
  · simp only [carryRound]
    rw [toNat_and_mask, e1]
    exact d1
  · simp only [carryRound]
    rw [toNat_and_mask, e2]
    exact d2
  · simp only [carryRound]
    rw [toNat_and_mask, e3]
    exact d3
  · simp only [carryRound]
    rw [toNat_and_mask, e4]
    exact d4

/-- A round of limbs with room for it gives every limb its low bits and the carry into it. -/
theorem carryRound_carriedFrom {f : FieldElement} (hf : f.Bounded (2 ^ 64 - 2 ^ 13 + 1)) :
    CarriedFrom f.toNat (carryRound f) :=
  hf.upper.carriedFrom

/-- Carrying limb 0 into limb 1 keeps the number. -/
theorem toNat_carryLow {f : FieldElement} (hf : f.l1.toNat < 2 ^ 64 - 2 ^ 13) :
    (carryLow f).toNat = f.toNat := by
  have h0 := f.l0.toNat_lt
  have h1 : (f.l1 + f.l0 >>> 51).toNat = f.l1.toNat + f.l0.toNat / 2 ^ 51 := by
    rw [UInt64.toNat_add, toNat_shiftRight_51]
    omega
  simp only [carryLow, toNat, toNat_and_mask, h1]
  omega

theorem zero_denotes : Denotes (2 ^ 51) zero 0 :=
  ⟨by decide, by simp [residue, toNat, zero]⟩

theorem one_denotes : Denotes (2 ^ 51) one 1 :=
  ⟨by decide, by simp [residue, toNat, one]⟩

/-- Sums are taken limb by limb, so the bounds add up. -/
theorem Denotes.add {b c : Nat} {f g : FieldElement} {x y : ZMod fieldOrder}
    (hf : Denotes b f x) (hg : Denotes c g y) (hb : b ≤ 2 ^ 63 := by decide)
    (hc : c ≤ 2 ^ 63 := by decide) : Denotes (b + c) (f + g) (x + y) := by
  refine ⟨hf.bounded.add hg.bounded, ?_⟩
  rw [residue, toNat_add (hf.bounded.mono hb) (hg.bounded.mono hc), Nat.cast_add]
  exact congrArg₂ (· + ·) hf.residue_eq hg.residue_eq

/-- A lifted difference is exact, or it runs below zero and wraps to `2 ^ 64` more. -/
theorem toNat_lifted_add {a c b : UInt64} (ha : a.toNat < 2 ^ 54) (hc : c.toNat < 2 ^ 53)
    (hb : b.toNat < 2 ^ 54) :
    (a + c - b).toNat + b.toNat =
      a.toNat + c.toNat + if b.toNat ≤ a.toNat + c.toNat then 0 else 2 ^ 64 := by
  rw [UInt64.toNat_sub, UInt64.toNat_add]
  split <;> omega

/-- A difference lifted by a multiple of the prime never runs below zero. -/
theorem toNat_lifted {a c b : UInt64} (ha : a.toNat < 2 ^ 54) (hc : c.toNat < 2 ^ 53)
    (hb : b.toNat ≤ c.toNat) : (a + c - b).toNat + b.toNat = a.toNat + c.toNat := by
  rw [toNat_lifted_add ha hc (by omega), if_pos (by omega), Nat.add_zero]

/-- Four primes limb by limb. -/
theorem toNat_fourPrimes_limbs :
    fourPrimes.l0.toNat = 2 ^ 53 - 76 ∧ fourPrimes.l1.toNat = 2 ^ 53 - 4 ∧
      fourPrimes.l2.toNat = 2 ^ 53 - 4 ∧ fourPrimes.l3.toNat = 2 ^ 53 - 4 ∧
      fourPrimes.l4.toNat = 2 ^ 53 - 4 := by
  decide

/-- What limb 0 of a difference is too large by: it wraps if four primes do not cover it. -/
def lowBorrow (f g : FieldElement) : Nat :=
  if g.l0.toNat ≤ f.l0.toNat + (2 ^ 53 - 76) then 0 else 2 ^ 64

/-- Four primes taken limb by limb cover the upper limbs of a subtrahend below `2 ^ 53 - 3`, so the
difference is the carry round of a number that is short of `f` by `g`, up to those four primes and
to what limb 0 borrows. -/
theorem exists_sub_eq_carryRound {f g : FieldElement} (hf : f.Bounded (2 ^ 54))
    (hlow : g.l0.toNat < 2 ^ 54) (hg : g.UpperBounded (2 ^ 53 - 3)) :
    ∃ h : FieldElement, f - g = carryRound h ∧ h.UpperBounded (2 ^ 55) ∧
      h.toNat + g.toNat = f.toNat + 4 * fieldOrder + lowBorrow f g := by
  obtain ⟨f0, f1, f2, f3, f4⟩ := hf
  obtain ⟨g1, g2, g3, g4⟩ := hg
  obtain ⟨p0, p1, p2, p3, p4⟩ := toNat_fourPrimes_limbs
  have e0 := toNat_lifted_add (b := g.l0) (c := fourPrimes.l0) f0 (by omega) hlow
  rw [p0, ← lowBorrow] at e0
  have e1 := toNat_lifted (b := g.l1) (c := fourPrimes.l1) f1 (by omega) (by omega)
  have e2 := toNat_lifted (b := g.l2) (c := fourPrimes.l2) f2 (by omega) (by omega)
  have e3 := toNat_lifted (b := g.l3) (c := fourPrimes.l3) f3 (by omega) (by omega)
  have e4 := toNat_lifted (b := g.l4) (c := fourPrimes.l4) f4 (by omega) (by omega)
  refine ⟨_, rfl, ?_, ?_⟩
  · simp only [UpperBounded]
    omega
  · rw [← toNat_fourPrimes]
    simp only [toNat]
    omega

/-- A difference is carried but for a little in limb 0, and stands for the difference and what limb
0 borrows. -/
theorem sub_denotes {f g : FieldElement} (hf : f.Bounded (2 ^ 54)) (hlow : g.l0.toNat < 2 ^ 54)
    (hg : g.UpperBounded (2 ^ 53 - 3)) :
    Denotes (2 ^ 51 + 2 ^ 9) (f - g) (f.residue - g.residue + lowBorrow f g) := by
  obtain ⟨h, heq, hbound, hsum⟩ := exists_sub_eq_carryRound hf hlow hg
  have hcarried := (hbound.mono (by decide)).carriedFrom
  rw [heq]
  refine ⟨hcarried.bounded ?_, ?_⟩
  · have h0 := h.l0.toNat_lt
    obtain ⟨h1, h2, h3, h4⟩ := hbound
    simp only [toNat]
    omega
  · have hcast : (h.toNat : ZMod fieldOrder) + g.residue = f.residue + lowBorrow f g := by
      have hnat := congrArg (Nat.cast (R := ZMod fieldOrder)) hsum
      rw [Nat.cast_add, Nat.cast_add, Nat.cast_add, Nat.cast_mul, ZMod.natCast_self, mul_zero,
        add_zero] at hnat
      exact hnat
    rw [hcarried.residue_eq]
    linear_combination hcast

/-- A difference stands for the difference, and is carried but for a little in limb 0. -/
theorem Denotes.sub {b c : Nat} {f g : FieldElement} {x y : ZMod fieldOrder}
    (hf : Denotes b f x) (hg : Denotes c g y) (hb : b ≤ 2 ^ 54 := by decide)
    (hc : c ≤ 2 ^ 53 - 75 := by decide) : Denotes (2 ^ 51 + 2 ^ 9) (f - g) (x - y) := by
  have hsmall := hg.bounded.mono hc
  have hlow := hsmall.1
  have hcovered : lowBorrow f g = 0 := if_pos (by omega)
  have hdiff := sub_denotes (hf.bounded.mono hb) (by omega) (hsmall.upper.mono (by decide))
  rw [hcovered, Nat.cast_zero, add_zero, hf.residue_eq, hg.residue_eq] at hdiff
  exact hdiff

/-- A negative is carried, so its bound is that of a difference. -/
theorem Denotes.neg {b : Nat} {f : FieldElement} {x : ZMod fieldOrder} (hf : Denotes b f x)
    (hb : b ≤ 2 ^ 53 - 75 := by decide) : Denotes (2 ^ 51 + 2 ^ 9) (-f) (-x) := by
  rw [neg_eq_zero_sub, ← zero_sub x]
  exact zero_denotes.sub hf (by decide) hb

/-- The bit chooses between a residue and its negative. -/
theorem Denotes.negateIf {f : FieldElement} {x : ZMod fieldOrder} (hf : Denotes (2 ^ 52) f x)
    (bit : Bool) : Denotes (2 ^ 52) (f.negateIf bit) (if bit then -x else x) := by
  cases bit with
  | false => exact hf
  | true => exact hf.neg.mono

theorem Denotes.select {b : Nat} {f g : FieldElement} {x y : ZMod fieldOrder}
    (hf : Denotes b f x) (hg : Denotes b g y) (bit : Bool) :
    Denotes b (f.select g bit) (if bit then y else x) := by
  cases bit with
  | false => exact hf
  | true => exact hg

end FieldElement

end TwistedEdwards
