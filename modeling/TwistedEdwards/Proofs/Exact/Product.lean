import TwistedEdwards.Proofs.Exact.Field

/-!
# Products lose nothing

Limbs below `2 ^ 54` leave room for every nineteenfold operand, every column, every carry between
columns and the last carry nineteenfold, so a product runs to its end on the machine that stops
where a number does not fit.  The limbs that come out are cut by masks whatever the columns are;
only limb 1 takes one more carry, of 13 bits.

Main statement: `FieldElement.mul_exact`.
-/

namespace TwistedEdwards

namespace FieldElement

variable {f g h : FieldElement}

/-- Carrying leaves every limb below the radix but limb 1, for any columns. -/
theorem Columns.carry_limbs (z : Columns) :
    z.carry.l0.toNat < 2 ^ 51 ∧ z.carry.l1.toNat < 2 ^ 51 + 2 ^ 13 ∧ z.carry.l2.toNat < 2 ^ 51 ∧
      z.carry.l3.toNat < 2 ^ 51 ∧ z.carry.l4.toNat < 2 ^ 51 := by
  have hone : ∀ a b : UInt64, ((a &&& mask) + b >>> 51).toNat < 2 ^ 51 + 2 ^ 13 := by
    intro a b
    have ha := toNat_and_mask_lt a
    have hb := toNat_shiftRight_51_lt b
    rw [UInt64.toNat_add]
    omega
  exact ⟨toNat_and_mask_lt _, hone _ _, toNat_and_mask_lt _, toNat_and_mask_lt _,
    toNat_and_mask_lt _⟩

/-- A product stands for the product of the numbers modulo the prime. -/
theorem toNat_mul_mod (hf : f.Bounded (2 ^ 54)) (hg : g.Bounded (2 ^ 54)) :
    (f * g).toNat % fieldOrder = f.toNat * g.toNat % fieldOrder := by
  rw [← residue_eq_natCast_iff, Nat.cast_mul]
  exact (hf.denotes.mul hg.denotes).residue_eq

/-- Written out for the machine that wraps, a product is the product, whatever the limbs are. -/
theorem mulOn_wrapping (f g : FieldElement) : mulOn .wrapping f g = some (f * g) := rfl

/-- **Products are exact.**  A product of limbs below `2 ^ 54` loses no bit on the way, stands for
the product of the numbers, and leaves every limb below the radix but limb 1, which may be above it
by less than `2 ^ 13`.  Up to limbs below `2 ^ 58` a square has the limbs of the product of equal
operands. -/
theorem mul_exact (hf : f.Bounded (2 ^ 54)) (hg : g.Bounded (2 ^ 54)) (hh : h.Bounded (2 ^ 58)) :
    mulOn .wrapping f g = some (f * g) ∧ mulOn .stopping f g = some (f * g) ∧
      (f * g).toNat % fieldOrder = f.toNat * g.toNat % fieldOrder ∧
      ((f * g).l0.toNat < 2 ^ 51 ∧ (f * g).l1.toNat < 2 ^ 51 + 2 ^ 13 ∧
        (f * g).l2.toNat < 2 ^ 51 ∧ (f * g).l3.toNat < 2 ^ 51 ∧ (f * g).l4.toNat < 2 ^ 51) ∧
      h.square = h * h :=
  ⟨mulOn_wrapping f g, mulOn_eq Machine.stopping_faithful hf hg, toNat_mul_mod hf hg,
    (mulColumns f g).carry_limbs, square_eq_mul hh⟩

/-- Limbs as large as a product takes. -/
def largestFactor : FieldElement :=
  ⟨0x3fffffffffffff, 0x3fffffffffffff, 0x3fffffffffffff, 0x3fffffffffffff, 0x3fffffffffffff⟩

/-- Limbs as large as a square takes to be the product. -/
def largestRoot : FieldElement :=
  ⟨0x3ffffffffffffff, 0x3ffffffffffffff, 0x3ffffffffffffff, 0x3ffffffffffffff,
    0x3ffffffffffffff⟩

/-- The tightest product, where the last carry times nineteen takes three quarters of a word. -/
theorem mul_exact_largest :
    largestFactor.Bounded (2 ^ 54) ∧ largestRoot.Bounded (2 ^ 58) ∧
      mulOn .stopping largestFactor largestFactor = some (largestFactor * largestFactor) ∧
      (largestFactor * largestFactor).toNat % fieldOrder =
        largestFactor.toNat * largestFactor.toNat % fieldOrder ∧
      largestRoot.square = largestRoot * largestRoot := by
  have hfactor : largestFactor.Bounded (2 ^ 54) := by decide
  have hroot : largestRoot.Bounded (2 ^ 58) := by decide
  obtain ⟨-, hexact, hmod, -, hsquare⟩ := mul_exact hfactor hfactor hroot
  exact ⟨hfactor, hroot, hexact, hmod, hsquare⟩

end FieldElement

end TwistedEdwards
