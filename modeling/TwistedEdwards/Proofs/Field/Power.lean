import TwistedEdwards.Field.Power
import TwistedEdwards.Proofs.Prime
import TwistedEdwards.Proofs.Field.Product

/-!
# Fixed powers as residues

A run of `m` ones shifted by `k` bits and joined to a run of `k` ones is a run of
`m + k` ones, so both chains reach the exponent they are built for, and by Fermat's
theorem the power `p - 2` is the inverse.

Main statements: `FieldElement.Denotes.inverse` and `FieldElement.Denotes.rootPower`.
-/

namespace TwistedEdwards

namespace FieldElement

/-- Squaring `n` times doubles the exponent as often. -/
theorem Denotes.squareTimes {f : FieldElement} {x : ZMod fieldOrder} (hf : Denotes (2 ^ 54) f x)
    (n : Nat) : Denotes (2 ^ 54) (f.squareTimes n) (x ^ 2 ^ n) := by
  induction n with
  | zero =>
      have hone : x ^ 2 ^ 0 = x := by rw [Nat.pow_zero, pow_one]
      rw [hone]
      exact hf
  | succ n ih =>
      have hexp : x ^ 2 ^ (n + 1) = (x ^ 2 ^ n) ^ 2 := by rw [Nat.pow_succ, pow_mul]
      rw [squareTimes_succ, hexp]
      exact ih.square.mono

/-- One link of a chain: the exponent is shifted and another is added. -/
theorem Denotes.shiftMul {f g : FieldElement} {x y : ZMod fieldOrder}
    (hf : Denotes (2 ^ 54) f x) (hg : Denotes (2 ^ 54) g y) (k : Nat) :
    Denotes (2 ^ 51 + 2 ^ 13) (f.shiftMul k g) (x ^ 2 ^ k * y) :=
  (hf.squareTimes k).mul hg

/-- Joining two runs of ones in the exponent. -/
theorem Denotes.joinOnes {f g : FieldElement} {x : ZMod fieldOrder} {m k : Nat}
    (hf : Denotes (2 ^ 54) f (x ^ (2 ^ m - 1))) (hg : Denotes (2 ^ 54) g (x ^ (2 ^ k - 1))) :
    Denotes (2 ^ 54) (f.shiftMul k g) (x ^ (2 ^ (m + k) - 1)) := by
  have hexp : (2 ^ m - 1) * 2 ^ k + (2 ^ k - 1) = 2 ^ (m + k) - 1 := by
    have hm := Nat.two_pow_pos m
    have hk := Nat.two_pow_pos k
    rw [Nat.sub_mul, Nat.pow_add, Nat.one_mul]
    have hle : 2 ^ k ≤ 2 ^ m * 2 ^ k := Nat.le_mul_of_pos_left _ hm
    omega
  have hjoin := hf.shiftMul hg k
  rw [← pow_mul, ← pow_add, hexp] at hjoin
  exact hjoin.mono

/-- From five ones to 250 ones in the exponent. -/
theorem Denotes.onesRun {f : FieldElement} {x : ZMod fieldOrder}
    (hf : Denotes (2 ^ 54) f (x ^ (2 ^ 5 - 1))) :
    Denotes (2 ^ 54) f.onesRun (x ^ (2 ^ 250 - 1)) := by
  have h10 := hf.joinOnes hf
  have h20 := h10.joinOnes h10
  have h40 := h20.joinOnes h20
  have h50 := h40.joinOnes h10
  have h100 := h50.joinOnes h50
  have h200 := h100.joinOnes h100
  exact h200.joinOnes h50

/-- The powers that both chains begin with. -/
theorem Denotes.firstPowers {f : FieldElement} {x : ZMod fieldOrder} (hf : Denotes (2 ^ 54) f x) :
    Denotes (2 ^ 54) (f.square * f.pow9) (x ^ 11) ∧
      Denotes (2 ^ 54) (f.pow9 * (f.square * f.pow9).square) (x ^ (2 ^ 5 - 1)) := by
  have h9 : Denotes (2 ^ 51 + 2 ^ 13) f.pow9 (x ^ 9) := by
    have hprod := hf.mul (hf.square.mono.squareTimes 2)
    rw [show x * (x ^ 2) ^ 2 ^ 2 = x ^ 9 by ring] at hprod
    exact hprod
  have h11 : Denotes (2 ^ 54) (f.square * f.pow9) (x ^ 11) := by
    have hprod := hf.square.mul h9
    rw [show x ^ 2 * x ^ 9 = x ^ 11 by ring] at hprod
    exact hprod.mono
  have h31 := h9.mul h11.square
  rw [show x ^ 9 * (x ^ 11) ^ 2 = x ^ (2 ^ 5 - 1) by ring] at h31
  exact ⟨h11, h31.mono⟩

/-- The exponent of the first chain. -/
theorem Denotes.inverse_pow {b : Nat} {f : FieldElement} {x : ZMod fieldOrder} (hf : Denotes b f x)
    (hb : b ≤ 2 ^ 54 := by decide) :
    Denotes (2 ^ 51 + 2 ^ 13) f.inverse (x ^ (fieldOrder - 2)) := by
  obtain ⟨h11, h31⟩ := (hf.mono hb).firstPowers
  have hchain := h31.onesRun.shiftMul h11 5
  rw [← pow_mul, ← pow_add, show (2 ^ 250 - 1) * 2 ^ 5 + 11 = fieldOrder - 2 from rfl] at hchain
  exact hchain

/-- **Inverse.**  The chain computes the inverse, and zero for zero. -/
theorem Denotes.inverse {b : Nat} {f : FieldElement} {x : ZMod fieldOrder} (hf : Denotes b f x)
    (hb : b ≤ 2 ^ 54 := by decide) : Denotes (2 ^ 51 + 2 ^ 13) f.inverse x⁻¹ :=
  (hf.inverse_pow hb).of_eq (pow_sub_two (by decide) x)

/-- The power that square roots are taken from. -/
theorem Denotes.rootPower {b : Nat} {f : FieldElement} {x : ZMod fieldOrder} (hf : Denotes b f x)
    (hb : b ≤ 2 ^ 54 := by decide) :
    Denotes (2 ^ 51 + 2 ^ 13) f.rootPower (x ^ ((fieldOrder - 5) / 8)) := by
  obtain ⟨-, h31⟩ := (hf.mono hb).firstPowers
  have hchain := h31.onesRun.shiftMul (hf.mono hb) 2
  rw [← pow_mul, ← pow_succ, show (2 ^ 250 - 1) * 2 ^ 2 + 1 = (fieldOrder - 5) / 8 from rfl]
    at hchain
  exact hchain

end FieldElement

end TwistedEdwards
