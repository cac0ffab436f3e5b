import TwistedEdwards.Field.Canonical
import TwistedEdwards.Proofs.Prime
import TwistedEdwards.Proofs.Field.Residue

/-!
# Canonical limbs

Two carry passes bring limbs of almost any size below `2 ^ 255` with every limb below
the radix, adding nineteen then tells whether the prime still fits, and what is left
is the least number of the residue.  The byte form of an element therefore depends on its
residue alone, and comparing bytes decides equality of residues.

Main statements: `FieldElement.toNat_canonical`, `FieldElement.value_toOctets` and
`FieldElement.toNat_ofOctets`.
-/

namespace TwistedEdwards

namespace FieldElement

/-- A carry pass folds the top bits back, and leaves limb 1 at the radix at most. -/
theorem carry_limbs {f : FieldElement} (hf : f.Bounded (2 ^ 64 - 2 ^ 13 + 1)) :
    (carry f).toNat = f.toNat % 2 ^ 255 + 19 * (f.toNat / 2 ^ 255) ∧
      (carry f).l0.toNat < 2 ^ 51 ∧ (carry f).l1.toNat ≤ 2 ^ 51 ∧ (carry f).l2.toNat < 2 ^ 51 ∧
      (carry f).l3.toNat < 2 ^ 51 ∧ (carry f).l4.toNat < 2 ^ 51 := by
  have hround := carryRound_carriedFrom hf
  have htop : 19 * (f.toNat / 2 ^ 255) ≤ 2 ^ 18 := by
    obtain ⟨f0, f1, f2, f3, f4⟩ := hf
    rw [toNat]
    omega
  obtain ⟨b0, -, -, -, -⟩ := hround.bounded htop
  have hnat := hround.toNat_eq
  have b1 : (carryRound f).l1.toNat < 2 ^ 51 := hround.l1 ▸ Nat.mod_lt _ (by decide)
  have b2 : (carryRound f).l2.toNat < 2 ^ 51 := hround.l2 ▸ Nat.mod_lt _ (by decide)
  have b3 : (carryRound f).l3.toNat < 2 ^ 51 := hround.l3 ▸ Nat.mod_lt _ (by decide)
  have b4 : (carryRound f).l4.toNat < 2 ^ 51 := hround.l4 ▸ Nat.mod_lt _ (by decide)
  refine ⟨(toNat_carryLow (by omega)).trans hnat, ?_⟩
  simp only [carry, carryLow, UInt64.toNat_add, toNat_and_mask, toNat_shiftRight_51]
  omega

/-- Folding the top bits back keeps the number modulo the prime. -/
theorem mod_fieldOrder_of_fold {m n : Nat} (h : m = n % 2 ^ 255 + 19 * (n / 2 ^ 255)) :
    m % fieldOrder = n % fieldOrder := by
  have hsplit : n = m + fieldOrder * (n / 2 ^ 255) := by
    simp only [fieldOrder]
    omega
  rw [hsplit, Nat.add_mul_mod_self_left]

/-- Two carry passes leave every limb below the radix. -/
theorem bounded_carry_carry {f : FieldElement} (hf : f.Bounded (2 ^ 64 - 2 ^ 13 + 1)) :
    (carry (carry f)).Bounded (2 ^ 51) ∧
      (carry (carry f)).toNat % fieldOrder = f.toNat % fieldOrder := by
  obtain ⟨hnat, h0, h1, h2, h3, h4⟩ := carry_limbs hf
  have hbound : (carry f).Bounded (2 ^ 64 - 2 ^ 13 + 1) :=
    ⟨by omega, by omega, by omega, by omega, by omega⟩
  obtain ⟨knat, k0, k1, k2, k3, k4⟩ := carry_limbs hbound
  refine ⟨⟨k0, ?_, k2, k3, k4⟩, ?_⟩
  · -- the second pass carries out of the top only if limb 1 was full, and then clears it
    have hsize : (carry f).toNat < 2 ^ 255 + 2 ^ 51 := by
      simp only [toNat]
      omega
    have hround := carryRound_carriedFrom hbound
    have hlimb : (carry (carry f)).l1.toNat =
        ((carryRound (carry f)).l1.toNat + (carryRound (carry f)).l0.toNat / 2 ^ 51) % 2 ^ 64 := by
      rw [carry, carryLow, UInt64.toNat_add, toNat_shiftRight_51]
    rw [hlimb, hround.l0, hround.l1]
    generalize (carry f).toNat = n at hsize
    by_cases hn : n < 2 ^ 255
    · omega
    · have hclear : n / 2 ^ 51 % 2 ^ 51 = 0 := by omega
      have hout : n / 2 ^ 255 = 1 := by omega
      rw [hclear, hout]
      omega
  · rw [mod_fieldOrder_of_fold knat, mod_fieldOrder_of_fold hnat]

/-- Limbs below the radix make a number of 255 bits. -/
theorem Bounded.toNat_lt {f : FieldElement} (hf : f.Bounded (2 ^ 51)) : f.toNat < 2 ^ 255 := by
  obtain ⟨h0, h1, h2, h3, h4⟩ := hf
  simp only [toNat]
  omega

/-- Adding nineteen carries out of the top limb exactly from the prime up. -/
theorem toNat_excess {f : FieldElement} (hf : f.Bounded (2 ^ 51)) :
    (excess f).toNat = (f.toNat + 19) / 2 ^ 255 := by
  obtain ⟨h0, h1, h2, h3, h4⟩ := hf
  have hnineteen : (19 : UInt64).toNat = 19 := rfl
  obtain ⟨-, -, -, -, -, hout⟩ := digits_of_carries (f.l0.toNat + 19) f.l1.toNat f.l2.toNat
    f.l3.toNat f.l4.toNat
  simp only [excess, UInt64.toNat_add, toNat_shiftRight_51, hnineteen]
  rw [show f.toNat + 19 = f.l0.toNat + 19 + f.l1.toNat * 2 ^ 51 + f.l2.toNat * 2 ^ 102 +
    f.l3.toNat * 2 ^ 153 + f.l4.toNat * 2 ^ 204 by simp only [toNat]; omega, ← hout]
  omega

/-- Dropping what leaves the top limb takes the number modulo `2 ^ 255`. -/
theorem toNat_carryDrop {f : FieldElement} (hf : f.Bounded (2 ^ 64 - 2 ^ 13 + 1)) :
    (carryDrop f).toNat = f.toNat % 2 ^ 255 := by
  have hround := carryRound_carriedFrom hf
  have hnat := hround.toNat_eq
  have h0 : (carryRound f).l0.toNat = (carryDrop f).l0.toNat + 19 * (f.toNat / 2 ^ 255) := by
    rw [hround.l0, carryDrop, toNat_and_mask, toNat]
    omega
  have e1 : (carryRound f).l1 = (carryDrop f).l1 := rfl
  have e2 : (carryRound f).l2 = (carryDrop f).l2 := rfl
  have e3 : (carryRound f).l3 = (carryDrop f).l3 := rfl
  have e4 : (carryRound f).l4 = (carryDrop f).l4 := rfl
  have hsum : (carryRound f).toNat = (carryDrop f).toNat + 19 * (f.toNat / 2 ^ 255) := by
    generalize f.toNat / 2 ^ 255 = k at h0
    simp only [toNat, h0, e1, e2, e3, e4]
    omega
  omega

/-- Adding nineteen on trial takes the prime away exactly where it fits. -/
theorem trial_mod {n : Nat} (hn : n < 2 ^ 255) :
    (n + 19 * ((n + 19) / 2 ^ 255)) % 2 ^ 255 = n % fieldOrder := by
  have hp : fieldOrder = 2 ^ 255 - 19 := rfl
  by_cases hfit : n < fieldOrder
  · have hzero : (n + 19) / 2 ^ 255 = 0 := by omega
    rw [hzero, Nat.mod_eq_of_lt hfit]
    omega
  · have hone : (n + 19) / 2 ^ 255 = 1 := by omega
    have hmod : n % fieldOrder = n - fieldOrder := by
      rw [Nat.mod_eq_sub_mod (by omega), Nat.mod_eq_of_lt (by omega)]
    rw [hone, hmod]
    omega

/-- **Canonical limbs** stand for the least number of the residue. -/
theorem toNat_canonical {f : FieldElement} (hf : f.Bounded (2 ^ 64 - 2 ^ 13 + 1)) :
    f.canonical.toNat = f.toNat % fieldOrder := by
  obtain ⟨hbound, hmod⟩ := bounded_carry_carry hf
  rw [← hmod, canonical]
  generalize carry (carry f) = t at hbound
  have hlt := hbound.toNat_lt
  have hexcess := toNat_excess hbound
  obtain ⟨h0, h1, h2, h3, h4⟩ := hbound
  have hlow : (t.l0 + 19 * excess t).toNat = t.l0.toNat + 19 * ((t.toNat + 19) / 2 ^ 255) := by
    rw [UInt64.toNat_add, UInt64.toNat_mul, hexcess, show (19 : UInt64).toNat = 19 from rfl]
    omega
  have hsum : (⟨t.l0 + 19 * excess t, t.l1, t.l2, t.l3, t.l4⟩ : FieldElement).toNat =
      t.toNat + 19 * ((t.toNat + 19) / 2 ^ 255) := by
    generalize (t.toNat + 19) / 2 ^ 255 = k at hlow
    simp only [toNat, hlow]
    omega
  rw [toNat_carryDrop ⟨by simp only [hlow]; omega, by simp only; omega, by simp only; omega,
    by simp only; omega, by simp only; omega⟩, hsum, trial_mod hlt]

/-- The canonical limbs are those of the least number of the residue. -/
theorem Denotes.toNat_canonical {b : Nat} {f : FieldElement} {x : ZMod fieldOrder}
    (hf : Denotes b f x) (hb : b ≤ 2 ^ 64 - 2 ^ 13 + 1 := by decide) :
    f.canonical.toNat = x.val := by
  rw [FieldElement.toNat_canonical (hf.bounded.mono hb), ← hf.residue_eq, residue,
    ZMod.val_natCast]

/-- Limbs below the radix are packed without a loss. -/
theorem toNat_pack {f : FieldElement} (hf : f.Bounded (2 ^ 51)) : f.pack.toNat = f.toNat := by
  obtain ⟨h0, h1, h2, h3, h4⟩ := hf
  have w0 : (f.l0 ||| f.l1 <<< 51).toNat = f.l0.toNat + f.l1.toNat % 2 ^ 13 * 2 ^ 51 :=
    Bits.toNat_or_shiftLeft_mod (by decide) h0
  have w1 : (f.l1 >>> 13 ||| f.l2 <<< 38).toNat =
      f.l1.toNat / 2 ^ 13 + f.l2.toNat % 2 ^ 26 * 2 ^ 38 :=
    Bits.toNat_shiftRight_or_shiftLeft (by decide) (by decide) h1
  have w2 : (f.l2 >>> 26 ||| f.l3 <<< 25).toNat =
      f.l2.toNat / 2 ^ 26 + f.l3.toNat % 2 ^ 39 * 2 ^ 25 :=
    Bits.toNat_shiftRight_or_shiftLeft (by decide) (by decide) h2
  have w3 : (f.l3 >>> 39 ||| f.l4 <<< 12).toNat =
      f.l3.toNat / 2 ^ 39 + f.l4.toNat % 2 ^ 52 * 2 ^ 12 :=
    Bits.toNat_shiftRight_or_shiftLeft (by decide) (by decide) h3
  simp only [pack, Word256.toNat, w0, w1, w2, w3, toNat]
  omega

/-- What is read is the number of the low 255 bits. -/
theorem toNat_ofWord256 (x : Word256) : (ofWord256 x).toNat = x.toNat % 2 ^ 255 := by
  have h0 := x.w0.toNat_lt
  have h1 := x.w1.toNat_lt
  have h2 := x.w2.toNat_lt
  have h3 := x.w3.toNat_lt
  have w1 : (x.w0 >>> 51 ||| x.w1 <<< 13).toNat =
      x.w0.toNat / 2 ^ 51 + x.w1.toNat % 2 ^ 51 * 2 ^ 13 :=
    Bits.toNat_shiftRight_or_shiftLeft (by decide) (by decide) h0
  have w2 : (x.w1 >>> 38 ||| x.w2 <<< 26).toNat =
      x.w1.toNat / 2 ^ 38 + x.w2.toNat % 2 ^ 38 * 2 ^ 26 :=
    Bits.toNat_shiftRight_or_shiftLeft (by decide) (by decide) h1
  have w3 : (x.w2 >>> 25 ||| x.w3 <<< 39).toNat =
      x.w2.toNat / 2 ^ 25 + x.w3.toNat % 2 ^ 25 * 2 ^ 39 :=
    Bits.toNat_shiftRight_or_shiftLeft (by decide) (by decide) h2
  have w4 : (x.w3 >>> 12).toNat = x.w3.toNat / 2 ^ 12 := Bits.toNat_shiftRight (by decide)
  simp only [ofWord256, toNat, toNat_and_mask, w1, w2, w3, w4, Word256.toNat]
  omega

/-- The string of an element stands for its canonical limbs. -/
theorem value_toOctets (f : FieldElement) :
    LittleEndian.value f.toOctets.toList = f.canonical.toNat := by
  rw [toOctets, Word256.value_toOctets, toNat_pack (bounded_canonical f)]

/-- Equal strings are equal canonical numbers. -/
theorem same_iff_toNat (f g : FieldElement) :
    f.same g = true ↔ f.canonical.toNat = g.canonical.toNat := by
  rw [same_iff_toOctets_eq, ← value_toOctets, ← value_toOctets]
  constructor
  · intro hbytes
    rw [hbytes]
  · exact Octets.value_inj

/-- The bytes are all zero exactly if the canonical number is. -/
theorem isNonzero_iff (f : FieldElement) : f.isNonzero = true ↔ f.canonical.toNat ≠ 0 := by
  rw [isNonzero_iff_exists_octet, ← value_toOctets, Ne, LittleEndian.value_eq_zero_iff]
  push Not
  rfl

/-- The lowest bit of the first byte is that of the canonical number. -/
theorem isNegative_iff (f : FieldElement) :
    f.isNegative = true ↔ f.canonical.toNat % 2 = 1 := by
  rw [isNegative, Octets.lowBit_iff, value_toOctets]

/-- Elements are the same exactly for the same residue. -/
theorem Denotes.same_iff {b c : Nat} {f g : FieldElement} {x y : ZMod fieldOrder}
    (hf : Denotes b f x) (hg : Denotes c g y) (hb : b ≤ 2 ^ 64 - 2 ^ 13 + 1 := by decide)
    (hc : c ≤ 2 ^ 64 - 2 ^ 13 + 1 := by decide) : f.same g = true ↔ x = y := by
  rw [same_iff_toNat, hf.toNat_canonical hb, hg.toNat_canonical hc]
  exact (ZMod.val_injective fieldOrder).eq_iff

/-- The test for zero is that of the residue, for all limbs that can be written. -/
theorem Denotes.isNonzero_iff {b : Nat} {f : FieldElement} {x : ZMod fieldOrder}
    (hf : Denotes b f x) (hb : b ≤ 2 ^ 64 - 2 ^ 13 + 1 := by decide) :
    f.isNonzero = true ↔ x ≠ 0 := by
  rw [FieldElement.isNonzero_iff, hf.toNat_canonical hb, Ne, ZMod.val_eq_zero]

/-- The test of the lowest bit is that of the least number of the residue. -/
theorem Denotes.isNegative_iff {b : Nat} {f : FieldElement} {x : ZMod fieldOrder}
    (hf : Denotes b f x) (hb : b ≤ 2 ^ 64 - 2 ^ 13 + 1 := by decide) :
    f.isNegative = true ↔ x.val % 2 = 1 := by
  rw [FieldElement.isNegative_iff, hf.toNat_canonical hb]

/-- An element is written as the least number of its residue. -/
theorem Denotes.value_toOctets {b : Nat} {f : FieldElement} {x : ZMod fieldOrder}
    (hf : Denotes b f x) (hb : b ≤ 2 ^ 64 - 2 ^ 13 + 1 := by decide) :
    LittleEndian.value f.toOctets.toList = x.val := by
  rw [FieldElement.value_toOctets, hf.toNat_canonical hb]

/-- A string is read as the number of its low 255 bits, in limbs below the radix. -/
theorem toNat_ofOctets (bs : Octets 32) :
    (ofOctets bs).toNat = LittleEndian.value bs.toList % 2 ^ 255 := by
  rw [ofOctets, toNat_ofWord256, Word256.toNat_ofOctets]

end FieldElement

end TwistedEdwards
