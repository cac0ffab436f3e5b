import TwistedEdwards.Word.Bits

/-!
# Field elements in five limbs

Elements of the field with `2 ^ 255 - 19` elements are kept as five words of
radix `2 ^ 51`.  The limbs need not be below the radix: a sum is taken limb by
limb and left as it is, a difference is carried once, so a number has many
representations and `toNat` is read modulo the prime.

A difference adds four times the prime limb by limb before it subtracts, which
keeps every limb from running below zero as long as the subtrahend's limbs stay
below `2 ^ 53 - 76`.

Main statements: `FieldElement.toNat_add`, limb sums are exact below a bound,
and `FieldElement.Bounded.mono`.
-/

namespace TwistedEdwards

/-- The order of the field, `2 ^ 255 - 19`. -/
def fieldOrder : Nat := 2 ^ 255 - 19

/-- Five limbs of radix `2 ^ 51`, least significant first. -/
structure FieldElement where
  l0 : UInt64
  l1 : UInt64
  l2 : UInt64
  l3 : UInt64
  l4 : UInt64
deriving DecidableEq

namespace FieldElement

/-- The low 51 bits of a word. -/
@[inline] def mask : UInt64 := 0x7ffffffffffff

/-- The number that the limbs stand for, before any reduction. -/
def toNat (f : FieldElement) : Nat :=
  f.l0.toNat + f.l1.toNat * 2 ^ 51 + f.l2.toNat * 2 ^ 102 + f.l3.toNat * 2 ^ 153 +
    f.l4.toNat * 2 ^ 204

/-- Every limb is below `b`. -/
def Bounded (b : Nat) (f : FieldElement) : Prop :=
  f.l0.toNat < b ∧ f.l1.toNat < b ∧ f.l2.toNat < b ∧ f.l3.toNat < b ∧ f.l4.toNat < b

instance (b : Nat) (f : FieldElement) : Decidable (Bounded b f) := by
  unfold Bounded; infer_instance

theorem Bounded.mono {b c : Nat} {f : FieldElement} (h : f.Bounded b) (hbc : b ≤ c) :
    f.Bounded c := by
  obtain ⟨h0, h1, h2, h3, h4⟩ := h
  exact ⟨by omega, by omega, by omega, by omega, by omega⟩

def zero : FieldElement := ⟨0, 0, 0, 0, 0⟩

def one : FieldElement := ⟨1, 0, 0, 0, 0⟩

/-- The sum limb by limb, with no carry. -/
def add (f g : FieldElement) : FieldElement :=
  ⟨f.l0 + g.l0, f.l1 + g.l1, f.l2 + g.l2, f.l3 + g.l3, f.l4 + g.l4⟩

instance : Add FieldElement := ⟨add⟩

/-- Carries from each limb into the next; what leaves the top limb comes back
nineteenfold in limb 0, which is not carried again. -/
@[inline] def carryRound (f : FieldElement) : FieldElement :=
  let h1 := f.l1 + (f.l0 >>> 51)
  let h2 := f.l2 + (h1 >>> 51)
  let h3 := f.l3 + (h2 >>> 51)
  let h4 := f.l4 + (h3 >>> 51)
  ⟨(f.l0 &&& mask) + (h4 >>> 51) * 19, h1 &&& mask, h2 &&& mask, h3 &&& mask, h4 &&& mask⟩

/-- Carries from limb 0 into limb 1. -/
@[inline] def carryLow (f : FieldElement) : FieldElement :=
  ⟨f.l0 &&& mask, f.l1 + (f.l0 >>> 51), f.l2, f.l3, f.l4⟩

/-- One full carry pass. -/
def carry (f : FieldElement) : FieldElement := carryLow (carryRound f)

/-- Four times the prime, limb by limb. -/
@[inline] def fourPrimes : FieldElement :=
  ⟨0x1FFFFFFFFFFFB4, 0x1FFFFFFFFFFFFC, 0x1FFFFFFFFFFFFC, 0x1FFFFFFFFFFFFC, 0x1FFFFFFFFFFFFC⟩

/-- The difference, carried once. -/
def sub (f g : FieldElement) : FieldElement :=
  carryRound
    ⟨f.l0 + fourPrimes.l0 - g.l0, f.l1 + fourPrimes.l1 - g.l1, f.l2 + fourPrimes.l2 - g.l2,
      f.l3 + fourPrimes.l3 - g.l3, f.l4 + fourPrimes.l4 - g.l4⟩

instance : Sub FieldElement := ⟨sub⟩

/-- The negative, carried once. -/
def neg (f : FieldElement) : FieldElement :=
  carryRound
    ⟨fourPrimes.l0 - f.l0, fourPrimes.l1 - f.l1, fourPrimes.l2 - f.l2, fourPrimes.l3 - f.l3,
      fourPrimes.l4 - f.l4⟩

instance : Neg FieldElement := ⟨neg⟩

/-- `g` if the bit is set, else `f`. -/
def select (f g : FieldElement) (bit : Bool) : FieldElement := if bit then g else f

/-- The negative if the bit is set. -/
def negateIf (f : FieldElement) (bit : Bool) : FieldElement := if bit then -f else f

/-- What differences are lifted by vanishes modulo the prime. -/
theorem toNat_fourPrimes : fourPrimes.toNat = 4 * fieldOrder := by decide +kernel

theorem add_def (f g : FieldElement) : f + g = add f g := rfl

theorem sub_def (f g : FieldElement) : f - g = sub f g := rfl

theorem neg_def (f : FieldElement) : -f = neg f := rfl

/-- The negative is the difference from zero, limb for limb. -/
theorem neg_eq_zero_sub (f : FieldElement) : -f = zero - f := by
  simp [neg_def, sub_def, neg, sub, zero]

/-- Limb sums are exact while the limbs leave room for them. -/
theorem toNat_add {f g : FieldElement} (hf : f.Bounded (2 ^ 63)) (hg : g.Bounded (2 ^ 63)) :
    (f + g).toNat = f.toNat + g.toNat := by
  obtain ⟨f0, f1, f2, f3, f4⟩ := hf
  obtain ⟨g0, g1, g2, g3, g4⟩ := hg
  simp only [add_def, add, toNat, UInt64.toNat_add]
  omega

/-- Bounds add up. -/
theorem Bounded.add {f g : FieldElement} {b c : Nat} (hf : f.Bounded b) (hg : g.Bounded c) :
    (f + g).Bounded (b + c) := by
  obtain ⟨f0, f1, f2, f3, f4⟩ := hf
  obtain ⟨g0, g1, g2, g3, g4⟩ := hg
  simp only [add_def, FieldElement.add, Bounded, UInt64.toNat_add]
  omega

end FieldElement

end TwistedEdwards
