import TwistedEdwards.Proofs.Field.Canonical
import TwistedEdwards.Proofs.Field.Product

/-!
# Sums of sums as operands

A sum is not carried, so the limbs of a sum of two sums come close to `2 ^ 53`.  Products, squares
and minuends have room for them.  A subtrahend is covered by four primes limb by limb, and the four
largest limbs add up to just what covers the upper ones; limb 0 of four primes is smaller by 72.
So a sum of two sums can be subtracted but for the few whose limb 0 is all but full, where the
difference comes out larger by `2 ^ 64`.

Main statements: `FieldElement.sub_residue_eq_iff`, the exact condition on a subtrahend, and
`FieldElement.sum_of_sums_operand`.
-/

namespace TwistedEdwards

namespace FieldElement

variable {f g : FieldElement}

/-- The largest limbs add up. -/
theorem Bounded.add_succ {b c : Nat} (hf : f.Bounded (b + 1)) (hg : g.Bounded (c + 1)) :
    (f + g).Bounded (b + c + 1) := by
  obtain ⟨f0, f1, f2, f3, f4⟩ := hf
  obtain ⟨g0, g1, g2, g3, g4⟩ := hg
  simp only [add_def, FieldElement.add, Bounded, UInt64.toNat_add]
  omega

/-- The bound of what is read from strings, as a largest limb. -/
theorem bounded_ofOctets (bs : Octets 32) : (ofOctets bs).Bounded (2 ^ 51 - 1 + 1) :=
  bounded_ofWord256 _

/-- A word is far below the prime. -/
theorem two_pow_64_ne_zero : ((2 ^ 64 : Nat) : ZMod fieldOrder) ≠ 0 := by
  have hmod : 2 ^ 64 % fieldOrder ≠ 0 := by decide
  rw [Ne, ZMod.natCast_eq_zero_iff, Nat.dvd_iff_mod_eq_zero]
  exact hmod

/-- Limb 0 borrows nothing, or what is no multiple of the prime. -/
theorem lowBorrow_eq_zero_iff :
    (lowBorrow f g : ZMod fieldOrder) = 0 ↔ g.l0.toNat ≤ f.l0.toNat + (2 ^ 53 - 76) := by
  rw [lowBorrow]
  split
  · next hcovered => exact iff_of_true Nat.cast_zero hcovered
  · next hshort => exact iff_of_false two_pow_64_ne_zero hshort

/-- **Subtrahends.**  With upper limbs below `2 ^ 53 - 3`, a difference is right exactly where four
primes cover limb 0. -/
theorem sub_residue_eq_iff (hf : f.Bounded (2 ^ 54)) (hg : g.Bounded (2 ^ 53 - 3)) :
    (f - g).residue = f.residue - g.residue ↔ g.l0.toNat ≤ f.l0.toNat + (2 ^ 53 - 76) := by
  have hdiff := sub_denotes hf (hg.1.trans (by decide)) hg.upper
  rw [hdiff.residue_eq, add_eq_left, lowBorrow_eq_zero_iff]

/-- **Sums of sums as operands.**  A sum of two sums of elements that were read from strings is a
factor, a square's base and a minuend like any other.  As a subtrahend it may be `2 ^ 64` off, and
is right exactly where four primes cover its limb 0. -/
theorem sum_of_sums_operand (a b c d e : Octets 32) :
    let x := ofOctets e
    let t := ofOctets a + ofOctets b + (ofOctets c + ofOctets d)
    t.residue = (ofOctets a).residue + (ofOctets b).residue +
        ((ofOctets c).residue + (ofOctets d).residue) ∧
      (t * x).residue = t.residue * x.residue ∧
      t.square.residue = t.residue ^ 2 ∧
      (t - x).residue = t.residue - x.residue ∧
      (x - t).residue = x.residue - t.residue + lowBorrow x t ∧
      ((x - t).residue = x.residue - t.residue ↔
        t.l0.toNat ≤ x.l0.toNat + (2 ^ 53 - 76)) := by
  intro x t
  have ha := (bounded_ofOctets a).denotes
  have hb := (bounded_ofOctets b).denotes
  have hc := (bounded_ofOctets c).denotes
  have hd := (bounded_ofOctets d).denotes
  have hx : x.Bounded (2 ^ 51) := bounded_ofOctets e
  have hsum := (ha.add hb).add (hc.add hd)
  have ht : t.Bounded (2 ^ 53 - 3) :=
    (ha.bounded.add_succ hb.bounded).add_succ (hc.bounded.add_succ hd.bounded)
  have hwide : x.Bounded (2 ^ 54) := hx.mono (by decide)
  have hdiff := sub_denotes hwide (ht.1.trans (by decide)) ht.upper
  exact ⟨hsum.residue_eq, (ht.denotes.mul hx.denotes).residue_eq, ht.denotes.square.residue_eq,
    (ht.denotes.sub hx.denotes).residue_eq, hdiff.residue_eq, sub_residue_eq_iff hwide ht⟩

/-- Four times the largest string stands for 72, and zero less it comes out as `2 ^ 64 - 72`. -/
theorem sum_of_sums_borrows :
    let largest := ofOctets (.replicate 32 255)
    let x := ofOctets (.replicate 32 0)
    let t := largest + largest + (largest + largest)
    x.toNat = 0 ∧ t.toNat % fieldOrder = 72 ∧ (x - t).toNat % fieldOrder = 2 ^ 64 - 72 ∧
      (x - t).residue ≠ x.residue - t.residue := by
  intro largest x t
  have hlargest : largest.Bounded (2 ^ 51 - 1 + 1) := bounded_ofOctets _
  have hx : x.Bounded (2 ^ 54) := (bounded_ofOctets _).mono (by decide)
  have ht : t.Bounded (2 ^ 53 - 3) :=
    (hlargest.add_succ hlargest).add_succ (hlargest.add_succ hlargest)
  have hshort : ¬t.l0.toNat ≤ x.l0.toNat + (2 ^ 53 - 76) := by decide +kernel
  refine ⟨by decide +kernel, by decide +kernel, by decide +kernel, ?_⟩
  rw [Ne, sub_residue_eq_iff hx ht]
  exact hshort

end FieldElement

end TwistedEdwards
