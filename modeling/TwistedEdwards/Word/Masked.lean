import TwistedEdwards.Word.LittleEndian

/-!
# Tests without branches

Whether a word is zero is read off one bit: a word joined with its negative has the top
bit unless both are zero.  Strings are tested as a whole.  Their bytes, or the bits in
which the bytes of two strings differ, are joined into one byte, and only that byte is
looked at.

Main statements: `Bits.nonzero_iff`, `Octets.joined_eq_zero_iff` and
`Octets.difference_eq_zero_iff`.
-/

namespace TwistedEdwards

namespace Bits

/-- The word is not zero: the top bit of the word joined with its negative. -/
@[inline] def nonzero (w : UInt64) : Bool := (w ||| (0 - w)) >>> 63 == 1

/-- Of a word that is not zero and its negative, one has the top bit. -/
theorem two_pow_63_le_or_neg {w : UInt64} (hw : w ≠ 0) : 2 ^ 63 ≤ (w ||| (0 - w)).toNat := by
  have hlt := w.toNat_lt
  have hpos : w.toNat ≠ 0 := fun hzero => hw (UInt64.toNat_inj.mp hzero)
  have hnegative : (0 - w).toNat = 2 ^ 64 - w.toNat := by
    rw [UInt64.toNat_sub, UInt64.toNat_zero]
    omega
  rw [UInt64.toNat_or, hnegative]
  rcases Nat.lt_or_ge w.toNat (2 ^ 63) with hlow | hhigh
  · exact Nat.le_trans (by omega) Nat.right_le_or
  · exact Nat.le_trans hhigh Nat.left_le_or

/-- The bit tells zero from every other word. -/
theorem nonzero_iff (w : UInt64) : nonzero w = true ↔ w ≠ 0 := by
  by_cases hw : w = 0
  · subst hw
    decide
  · have hone : (1 : UInt64).toNat = 1 := rfl
    have htop : ((w ||| (0 - w)) >>> 63).toNat = (w ||| (0 - w)).toNat / 2 ^ 63 :=
      toNat_shiftRight (by decide)
    have hlow := two_pow_63_le_or_neg hw
    have hhigh := (w ||| (0 - w)).toNat_lt
    rw [nonzero, beq_iff_eq, ← UInt64.toNat_inj, htop, hone]
    exact iff_of_true (by omega) hw

theorem nonzero_eq_false_iff (w : UInt64) : nonzero w = false ↔ w = 0 := by
  rw [← Bool.not_eq_true, nonzero_iff, Decidable.not_not]

end Bits

namespace Octets

/-- All bytes joined into one. -/
def joined {n : Nat} (bs : Octets n) : UInt8 := bs.toList.foldl (fun found b => found ||| b) 0

/-- The bits in which two strings differ somewhere, joined into one byte. -/
def difference {n : Nat} (a b : Octets n) : UInt8 :=
  joined (a.zipWith (fun x y => x ^^^ y) b)

/-- The lowest bit of the number. -/
def lowBit (bs : Octets 32) : Bool := bs[0] &&& 1 == 1

/-- What is joined vanishes where everything joined does. -/
theorem foldl_or_eq_zero_iff (bs : List UInt8) (found : UInt8) :
    bs.foldl (fun found b => found ||| b) found = 0 ↔ found = 0 ∧ ∀ b ∈ bs, b = 0 := by
  induction bs generalizing found with
  | nil => simp
  | cons b rest ih =>
    rw [List.foldl_cons, ih, UInt8.or_eq_zero_iff, List.forall_mem_cons, and_assoc]

/-- Nothing is joined exactly where every byte is zero. -/
theorem joined_eq_zero_iff {n : Nat} (bs : Octets n) : bs.joined = 0 ↔ ∀ b ∈ bs.toList, b = 0 := by
  rw [joined, foldl_or_eq_zero_iff, and_iff_right rfl]

/-- Strings differ nowhere exactly if they are equal. -/
theorem difference_eq_zero_iff {n : Nat} (a b : Octets n) : a.difference b = 0 ↔ a = b := by
  rw [difference, joined_eq_zero_iff]
  constructor
  · intro hzero
    apply Vector.ext
    intro i hi
    apply UInt8.xor_eq_zero_iff.mp
    apply hzero
    rw [Vector.mem_toList_iff, Vector.mem_iff_getElem]
    exact ⟨i, hi, Vector.getElem_zipWith hi⟩
  · rintro rfl x hx
    rw [Vector.mem_toList_iff, Vector.mem_iff_getElem] at hx
    obtain ⟨i, hi, rfl⟩ := hx
    rw [Vector.getElem_zipWith hi, UInt8.xor_self]

/-- A byte that is widened stays zero or not. -/
theorem toUInt64_ne_zero_iff (b : UInt8) : b.toUInt64 ≠ 0 ↔ b ≠ 0 := by
  rw [Ne, Ne, ← UInt64.toNat_inj, ← UInt8.toNat_inj]
  exact Iff.rfl

/-- A number is odd if its lowest bit is set. -/
theorem lowBit_iff (bs : Octets 32) :
    bs.lowBit = true ↔ LittleEndian.value bs.toList % 2 = 1 := by
  have hfirst : bs.toList = bs[0] :: bs.toList.drop 1 := by
    rw [← Vector.getElem_toList (by simp), ← List.drop_eq_getElem_cons, List.drop_zero]
  have hlow : (bs[0] &&& 1).toNat = bs[0].toNat % 2 := by
    rw [UInt8.toNat_and]
    exact Nat.and_two_pow_sub_one_eq_mod _ 1
  have hone : (1 : UInt8).toNat = 1 := rfl
  rw [lowBit, beq_iff_eq, ← UInt8.toNat_inj, hlow, hone, hfirst, LittleEndian.value]
  omega

end Octets

end TwistedEdwards
