import TwistedEdwards.Scalar.Inverse
import TwistedEdwards.Proofs.Scalar.Montgomery

/-!
# Inverses of scalars as residues

The powers are kept multiplied by the radix, which is what a Montgomery product of two of them
keeps too.  Reading the exponent from the top bit down, the power so far is the one whose exponent
are the bits read so far.  The order is prime, so by Fermat's theorem the power with exponent two
less than the order is the inverse.

Main statements: `Scalar.Denotes.power`, `Scalar.Denotes.inverse?_eq` and `Scalar.inverse_exact`.
-/

namespace TwistedEdwards

open LittleEndian (value)

namespace Scalar

variable {base acc s : Scalar} {x : ZMod groupOrder}

/-- One step doubles the exponent and takes the bit in. -/
theorem powerStep_denotes (hbase : base.Denotes (x * radix.residue)) {k : Nat}
    (hacc : acc.Denotes (x ^ k * radix.residue)) (bit : Bool) :
    (powerStep base acc bit).Denotes (x ^ (2 * k + bit.toNat) * radix.residue) := by
  have hsquare : (montgomeryMul acc acc).Denotes (x ^ (2 * k) * radix.residue) := by
    refine montgomeryMul_denotes hacc.reduced.1 hacc.reduced ?_
    rw [hacc.residue_eq]
    ring
  cases bit with
  | false => exact hsquare
  | true =>
    refine montgomeryMul_denotes hsquare.reduced.1 hbase.reduced ?_
    rw [hsquare.residue_eq, hbase.residue_eq, Bool.toNat_true]
    ring

/-- The bits that are left are taken in one after the other. -/
theorem foldRev_powerStep_denotes (hbase : base.Denotes (x * radix.residue))
    (exponent : Octets 32) (n : Nat) {k : Nat} (hacc : acc.Denotes (x ^ k * radix.residue)) :
    (n.foldRev (fun i _ acc => powerStep base acc (exponent.bit i)) acc).Denotes
      (x ^ (k * 2 ^ n + value exponent.toList % 2 ^ n) * radix.residue) := by
  induction n generalizing acc k with
  | zero =>
      simpa [Nat.mod_one] using hacc
  | succ n ih =>
      have hexponent : k * 2 ^ (n + 1) + value exponent.toList % 2 ^ (n + 1) =
          (2 * k + (exponent.bit n).toNat) * 2 ^ n + value exponent.toList % 2 ^ n := by
        rw [Nat.mod_pow_succ, ← Nat.toNat_testBit, exponent.bit_eq_testBit]
        ring
      rw [Nat.foldRev_succ, hexponent]
      exact ih (powerStep_denotes hbase hacc _)

/-- All bits of the exponent are taken in. -/
theorem powerBits_denotes (hbase : base.Denotes (x * radix.residue)) {exponent : Octets 32}
    {n : Nat} (hn : value exponent.toList < 2 ^ n) :
    (powerBits base exponent n).Denotes (x ^ value exponent.toList * radix.residue) := by
  have hone : radix.Denotes (x ^ 0 * radix.residue) :=
    ⟨by decide, by rw [pow_zero, one_mul]⟩
  have hfold := foldRev_powerStep_denotes hbase exponent n hone
  rwa [Nat.zero_mul, Nat.zero_add, Nat.mod_eq_of_lt hn] at hfold

/-- The power with exponent two less than the order. -/
theorem Denotes.power (hs : s.Denotes x) : s.power.Denotes (x ^ (groupOrder - 2)) := by
  have hbase : (montgomeryMul s radixSquare).Denotes (x * radix.residue) :=
    (montgomeryMul_radixSquare_denotes hs.reduced.1).of_eq (by rw [hs.residue_eq])
  have hbits : value inverseExponent.toList < 2 ^ 253 := by
    rw [value_inverseExponent]
    decide
  have hpower := powerBits_denotes hbase hbits
  refine montgomeryMul_denotes hpower.reduced.1 one_denotes.reduced ?_
  rw [hpower.residue_eq, one_denotes.residue_eq, mul_one, value_inverseExponent]

/-- That power is the inverse, and zero for zero. -/
theorem Denotes.power_inv (hs : s.Denotes x) : s.power.Denotes x⁻¹ :=
  hs.power.of_eq (pow_sub_two (by decide) x)

/-- Only zero stands for zero. -/
theorem Denotes.ne_zero (hs : s.Denotes x) (hne : s ≠ zero) : x ≠ 0 := by
  rintro rfl
  exact hne ((hs.eq_iff zero_denotes).mpr rfl)

/-- Inversion refuses zero only, and inverts everything else. -/
theorem Denotes.inverse?_eq (hs : s.Denotes x) :
    s.inverse? = none ∧ x = 0 ∨ ∃ t, s.inverse? = some t ∧ x ≠ 0 ∧ t.Denotes x⁻¹ := by
  by_cases hzero : s = zero
  · exact .inl ⟨(inverse?_eq_none_iff s).mpr hzero, (hs.eq_iff zero_denotes).mp hzero⟩
  · exact .inr ⟨s.power, inverse?_of_ne_zero hzero, hs.ne_zero hzero, hs.power_inv⟩

/-- The power as a number. -/
theorem Reduced.toNat_power (hs : s.Reduced) :
    s.power.toNat = s.toNat ^ (groupOrder - 2) % groupOrder := by
  have hpower := hs.denotes.power
  rw [residue, ← Nat.cast_pow] at hpower
  exact hpower.toNat_eq_mod

theorem zero_power : zero.power = zero :=
  (zero_denotes.power_inv.eq_iff zero_denotes).mpr inv_zero

/-- Other than zero, a scalar times its power is one. -/
theorem Reduced.residue_mul_power (hs : s.Reduced) (hne : s ≠ zero) :
    s.residue * s.power.residue = 1 := by
  rw [hs.denotes.power_inv.residue_eq, mul_inv_cancel₀ (hs.denotes.ne_zero hne)]

/-- The power is the inverse of every scalar but zero. -/
theorem Reduced.mul_power (hs : s.Reduced) (hne : s ≠ zero) : s * s.power = one := by
  have hpower := hs.denotes.power_inv.reduced.denotes
  rw [(hs.denotes.mul hpower).eq_iff one_denotes]
  exact hs.residue_mul_power hne

/-- What multiplies a scalar to one is the power. -/
theorem Reduced.eq_power {t : Scalar} (hs : s.Reduced) (ht : t.Reduced)
    (hone : s.residue * t.residue = 1) : t = s.power :=
  (ht.denotes.eq_iff hs.denotes.power_inv).mpr (eq_inv_of_mul_eq_one_right hone)

/-- **Inversion is exact.**  The power with exponent two less than the order is reduced; it inverts
every scalar but zero and is zero for zero.  Zero alone is refused, and every other scalar is given
the only reduced scalar that multiplies it to one. -/
theorem inverse_exact (hs : s.Reduced) :
    s.power.Reduced ∧ s.power.toNat = s.toNat ^ (groupOrder - 2) % groupOrder ∧
      (s ≠ zero → s.residue * s.power.residue = 1 ∧ s * s.power = one) ∧ zero.power = zero ∧
      (s.inverse? = none ↔ s = zero) ∧
      (s ≠ zero → ∃ t, s.inverse? = some t ∧ t.Reduced ∧ s.residue * t.residue = 1 ∧
        ∀ u : Scalar, u.Reduced → s.residue * u.residue = 1 → u = t) := by
  have hreduced := hs.denotes.power_inv.reduced
  refine ⟨hreduced, hs.toNat_power, ?_, zero_power, inverse?_eq_none_iff s, ?_⟩
  · intro hne
    exact ⟨hs.residue_mul_power hne, hs.mul_power hne⟩
  · intro hne
    refine ⟨s.power, inverse?_of_ne_zero hne, hreduced, hs.residue_mul_power hne, ?_⟩
    intro u hu hone
    exact hs.eq_power hu hone

/-- The inverse of two is half of one more than the order. -/
theorem inverse_exact_two :
    let two : Scalar := ⟨2, 0, 0, 0, 0⟩
    let half : Scalar := ⟨0x9318d2e7ae9f7, 0xef517bce6b2c0, 0xa6f7c, 0x0, 0x80000000000⟩
    two.Reduced ∧ two ≠ zero ∧ two * two.power = one ∧ two.inverse? = some half := by
  intro two half
  have htwo : two.Reduced := by decide
  have hne : two ≠ zero := by decide
  have hhalf : half.Reduced := by decide
  have hone : two.residue * half.residue = 1 := by
    have hmod : two.toNat * half.toNat % groupOrder = 1 % groupOrder := by decide +kernel
    rw [residue, residue, ← Nat.cast_mul, (ZMod.natCast_eq_natCast_iff' _ _ groupOrder).mpr hmod,
      Nat.cast_one]
  obtain ⟨-, -, hmul, -, -, hinverse⟩ := inverse_exact htwo
  obtain ⟨t, hsome, -, -, hunique⟩ := hinverse hne
  refine ⟨htwo, hne, (hmul hne).2, ?_⟩
  rw [hsome, hunique half hhalf hone]

end Scalar

end TwistedEdwards
