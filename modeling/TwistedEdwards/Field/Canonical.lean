import TwistedEdwards.Word.Masked
import TwistedEdwards.Word.Word256
import TwistedEdwards.Field.Basic

/-!
# Canonical form and bytes

Two carry passes bring any limbs below `2 ^ 255`; adding nineteen on trial then
tells whether the prime still fits, and one more pass takes it away.  What is
left has every limb below `2 ^ 51` and a number below the prime.

The byte form is the canonical number in 32 little-endian bytes.  Reading takes
255 bits and ignores the top one; numbers from the prime up are accepted and
stand for their residue.  What is asked of an element is asked of its bytes, all of
them, so the work does not depend on the answer.

Main statement: `FieldElement.bounded_ofWord256`, what is read has every limb
below `2 ^ 51`.
-/

namespace TwistedEdwards

namespace FieldElement

/-- What adding nineteen carries out of the top limb: one from the prime up, zero below. -/
@[inline] def excess (f : FieldElement) : UInt64 :=
  let q := (f.l0 + 19) >>> 51
  let q := (f.l1 + q) >>> 51
  let q := (f.l2 + q) >>> 51
  let q := (f.l3 + q) >>> 51
  (f.l4 + q) >>> 51

/-- Carries once from bottom to top and drops what leaves the top limb. -/
@[inline] def carryDrop (f : FieldElement) : FieldElement :=
  let h1 := f.l1 + (f.l0 >>> 51)
  let h2 := f.l2 + (h1 >>> 51)
  let h3 := f.l3 + (h2 >>> 51)
  let h4 := f.l4 + (h3 >>> 51)
  ⟨f.l0 &&& mask, h1 &&& mask, h2 &&& mask, h3 &&& mask, h4 &&& mask⟩

/-- The canonical limbs. -/
def canonical (f : FieldElement) : FieldElement :=
  let t := carry (carry f)
  carryDrop ⟨t.l0 + 19 * excess t, t.l1, t.l2, t.l3, t.l4⟩

/-- The limbs of a 255-bit number; bit 255 is ignored. -/
def ofWord256 (x : Word256) : FieldElement :=
  ⟨x.w0 &&& mask,
    (x.w0 >>> 51 ||| x.w1 <<< 13) &&& mask,
    (x.w1 >>> 38 ||| x.w2 <<< 26) &&& mask,
    (x.w2 >>> 25 ||| x.w3 <<< 39) &&& mask,
    (x.w3 >>> 12) &&& mask⟩

/-- Limbs below `2 ^ 51` packed into four words. -/
def pack (f : FieldElement) : Word256 :=
  ⟨f.l0 ||| f.l1 <<< 51, f.l1 >>> 13 ||| f.l2 <<< 38, f.l2 >>> 26 ||| f.l3 <<< 25,
    f.l3 >>> 39 ||| f.l4 <<< 12⟩

/-- Reads 32 bytes. -/
def ofOctets (bs : Octets 32) : FieldElement := ofWord256 (Word256.ofOctets bs)

/-- Writes the canonical number in 32 bytes. -/
def toOctets (f : FieldElement) : Octets 32 := f.canonical.pack.toOctets

/-- The element is not zero: its bytes joined are not. -/
def isNonzero (f : FieldElement) : Bool := Bits.nonzero f.toOctets.joined.toUInt64

/-- The canonical number is odd. -/
def isNegative (f : FieldElement) : Bool := f.toOctets.lowBit

/-- The limbs stand for the same element: its bytes differ nowhere. -/
def same (f g : FieldElement) : Bool :=
  !Bits.nonzero (f.toOctets.difference g.toOctets).toUInt64

theorem toNat_and_mask_lt (a : UInt64) : (a &&& mask).toNat < 2 ^ 51 := by
  rw [UInt64.toNat_and]
  exact Nat.lt_of_le_of_lt Nat.and_le_right (by decide)

/-- What is read has every limb below `2 ^ 51`. -/
theorem bounded_ofWord256 (x : Word256) : (ofWord256 x).Bounded (2 ^ 51) :=
  ⟨toNat_and_mask_lt _, toNat_and_mask_lt _, toNat_and_mask_lt _, toNat_and_mask_lt _,
    toNat_and_mask_lt _⟩

/-- The canonical limbs stay below `2 ^ 51`. -/
theorem bounded_canonical (f : FieldElement) : f.canonical.Bounded (2 ^ 51) :=
  ⟨toNat_and_mask_lt _, toNat_and_mask_lt _, toNat_and_mask_lt _, toNat_and_mask_lt _,
    toNat_and_mask_lt _⟩

/-- Elements are the same exactly where they are written the same. -/
theorem same_iff_toOctets_eq (f g : FieldElement) :
    f.same g = true ↔ f.toOctets = g.toOctets := by
  rw [same, Bool.not_eq_true', ← Bool.not_eq_true, Bits.nonzero_iff, Octets.toUInt64_ne_zero_iff,
    Decidable.not_not, Octets.difference_eq_zero_iff]

/-- An element is not zero exactly where some byte is not. -/
theorem isNonzero_iff_exists_octet (f : FieldElement) :
    f.isNonzero = true ↔ ∃ b ∈ f.toOctets.toList, b ≠ 0 := by
  rw [isNonzero, Bits.nonzero_iff, Octets.toUInt64_ne_zero_iff, Ne, Octets.joined_eq_zero_iff]
  simp only [Classical.not_forall, exists_prop, ne_eq]

end FieldElement

end TwistedEdwards
