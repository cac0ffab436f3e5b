import TwistedEdwards.Proofs.Scalar.Montgomery

/-!
# Reading scalars

The limbs cut out of a string keep its number, so a product with the radix reads the string
modulo the order.  A string of 64 bytes is two such numbers, cut at bit 260, and the product of
the high one with the square of the radix already stands where it has to be added.

The number of a string determines the string.  So a string is what the scalar read from it writes
exactly if its number is below the order, which is what `readCanonical` tests, and the string that
a reduced scalar writes is the only one with its number.

Main statements: `Scalar.ofOctets_denotes`, `Scalar.ofWide_denotes`, `Scalar.readCanonical_eq`,
`Scalar.Denotes.eq_toOctets_iff` and `Scalar.reading_exact`.
-/

namespace TwistedEdwards

namespace Scalar

open LittleEndian (value)

/-- Limbs are cut out of 256 bits without a loss. -/
theorem toNat_unpack (x : Word256) :
    (unpack x).toNat = x.toNat ∧ (unpack x).Bounded (2 ^ 52) := by
  have h0 := x.w0.toNat_lt
  have h1 := x.w1.toNat_lt
  have h2 := x.w2.toNat_lt
  have h3 := x.w3.toNat_lt
  have w1 : (x.w0 >>> 52 ||| x.w1 <<< 12).toNat =
      x.w0.toNat / 2 ^ 52 + x.w1.toNat % 2 ^ 52 * 2 ^ 12 :=
    Bits.toNat_shiftRight_or_shiftLeft (by decide) (by decide) h0
  have w2 : (x.w1 >>> 40 ||| x.w2 <<< 24).toNat =
      x.w1.toNat / 2 ^ 40 + x.w2.toNat % 2 ^ 40 * 2 ^ 24 :=
    Bits.toNat_shiftRight_or_shiftLeft (by decide) (by decide) h1
  have w3 : (x.w2 >>> 28 ||| x.w3 <<< 36).toNat =
      x.w2.toNat / 2 ^ 28 + x.w3.toNat % 2 ^ 28 * 2 ^ 36 :=
    Bits.toNat_shiftRight_or_shiftLeft (by decide) (by decide) h2
  have w4 : (x.w3 >>> 16).toNat = x.w3.toNat / 2 ^ 16 := Bits.toNat_shiftRight (by decide)
  simp only [unpack, toNat, Bounded, toNat_and_mask, w1, w2, w3, w4, Word256.toNat]
  omega

/-- The low limbs of 512 bits take four bits of the high half. -/
theorem toNat_unpackLow (low high : Word256) :
    (unpackLow low high).toNat = low.toNat + high.toNat % 2 ^ 4 * 2 ^ 256 ∧
      (unpackLow low high).Bounded (2 ^ 52) := by
  obtain ⟨hnumber, h0, h1, h2, h3, -⟩ := toNat_unpack low
  have w3 := low.w3.toNat_lt
  have hshift : (low.w3 >>> 16).toNat = low.w3.toNat / 2 ^ 16 := Bits.toNat_shiftRight (by decide)
  have htop : (low.w3 >>> 16 ||| high.w0 <<< 48).toNat =
      low.w3.toNat / 2 ^ 16 + high.w0.toNat % 2 ^ 16 * 2 ^ 48 :=
    Bits.toNat_shiftRight_or_shiftLeft (by decide) (by decide) w3
  have hbits : high.toNat % 2 ^ 4 = high.w0.toNat % 2 ^ 4 := by
    simp only [Word256.toNat]
    omega
  have hjoined : (low.w3.toNat / 2 ^ 16 + high.w0.toNat % 2 ^ 16 * 2 ^ 48) % 2 ^ 52 =
      low.w3.toNat / 2 ^ 16 + high.w0.toNat % 2 ^ 4 * 2 ^ 48 := by omega
  have hlow : (unpack low).l4 = low.w3 >>> 16 := rfl
  refine ⟨?_, h0, h1, h2, h3, toNat_and_mask_lt _⟩
  rw [unpackLow, hbits]
  generalize unpack low = limbs at *
  simp only [toNat, hlow, hshift] at hnumber
  simp only [toNat, toNat_and_mask, htop, hjoined]
  linear_combination hnumber

/-- The high limbs of 512 bits leave four bits out. -/
theorem toNat_unpackHigh (high : Word256) :
    (unpackHigh high).toNat = high.toNat / 2 ^ 4 ∧ (unpackHigh high).Bounded (2 ^ 52) := by
  have h0 := high.w0.toNat_lt
  have h1 := high.w1.toNat_lt
  have h2 := high.w2.toNat_lt
  have h3 := high.w3.toNat_lt
  have w0 : (high.w0 >>> 4).toNat = high.w0.toNat / 2 ^ 4 := Bits.toNat_shiftRight (by decide)
  have w1 : (high.w0 >>> 56 ||| high.w1 <<< 8).toNat =
      high.w0.toNat / 2 ^ 56 + high.w1.toNat % 2 ^ 56 * 2 ^ 8 :=
    Bits.toNat_shiftRight_or_shiftLeft (by decide) (by decide) h0
  have w2 : (high.w1 >>> 44 ||| high.w2 <<< 20).toNat =
      high.w1.toNat / 2 ^ 44 + high.w2.toNat % 2 ^ 44 * 2 ^ 20 :=
    Bits.toNat_shiftRight_or_shiftLeft (by decide) (by decide) h1
  have w3 : (high.w2 >>> 32 ||| high.w3 <<< 32).toNat =
      high.w2.toNat / 2 ^ 32 + high.w3.toNat % 2 ^ 32 * 2 ^ 32 :=
    Bits.toNat_shiftRight_or_shiftLeft (by decide) (by decide) h2
  have w4 : (high.w3 >>> 20).toNat = high.w3.toNat / 2 ^ 20 := Bits.toNat_shiftRight (by decide)
  simp only [unpackHigh, toNat, Bounded, toNat_and_mask, w0, w1, w2, w3, w4, Word256.toNat]
  omega

/-- The two halves of a string make up its number. -/
theorem value_eq_halves (bs : Octets 64) :
    value bs.toList = (halves bs).1.toNat + 2 ^ 256 * (halves bs).2.toNat := by
  have hend : bs.toList.drop 64 = [] := List.drop_of_length_le (by simp)
  have h0 := LittleEndian.value_drop bs 0 (by decide)
  have h1 := LittleEndian.value_drop bs 8 (by decide)
  have h2 := LittleEndian.value_drop bs 16 (by decide)
  have h3 := LittleEndian.value_drop bs 24 (by decide)
  have h4 := LittleEndian.value_drop bs 32 (by decide)
  have h5 := LittleEndian.value_drop bs 40 (by decide)
  have h6 := LittleEndian.value_drop bs 48 (by decide)
  have h7 := LittleEndian.value_drop bs 56 (by decide)
  simp only [Nat.reduceAdd, hend, List.drop_zero, value] at h0 h1 h2 h3 h4 h5 h6 h7
  simp only [halves, Word256.toNat]
  omega

/-- A string of 32 bytes is read modulo the order. -/
theorem ofOctets_denotes (bs : Octets 32) : (ofOctets bs).Denotes (value bs.toList) := by
  obtain ⟨hnumber, hlimbs⟩ := toNat_unpack (Word256.ofOctets bs)
  refine (montgomeryMul_radix_denotes hlimbs).of_eq ?_
  rw [residue, hnumber, Word256.toNat_ofOctets]

/-- A word is read as it is. -/
theorem ofWord_denotes (w : UInt64) : (ofWord w).Denotes w.toNat := by
  obtain ⟨hnumber, hlimbs⟩ := toNat_unpack ⟨w, 0, 0, 0⟩
  refine (montgomeryMul_radix_denotes hlimbs).of_eq ?_
  rw [residue, hnumber]
  simp [Word256.toNat]

/-- A string of 64 bytes is read modulo the order. -/
theorem ofWide_denotes (bs : Octets 64) : (ofWide bs).Denotes (value bs.toList) := by
  obtain ⟨hlow, blow⟩ := toNat_unpackLow (halves bs).1 (halves bs).2
  obtain ⟨hhigh, bhigh⟩ := toNat_unpackHigh (halves bs).2
  have hsum := (montgomeryMul_radixSquare_denotes bhigh).add (montgomeryMul_radix_denotes blow)
  refine hsum.of_eq ?_
  have hcut : value bs.toList =
      (unpackHigh (halves bs).2).toNat * (2 ^ 52) ^ 5 +
        (unpackLow (halves bs).1 (halves bs).2).toNat := by
    rw [hlow, hhigh, value_eq_halves bs]
    omega
  rw [hcut, Nat.cast_add, Nat.cast_mul, ← radix_residue]
  rfl

variable {s : Scalar} {x : ZMod groupOrder}

/-- The string that a reduced scalar writes is the one that stands for the least number of its
residue. -/
theorem Denotes.eq_toOctets_iff (hs : s.Denotes x) (bs : Octets 32) :
    bs = s.toOctets ↔ value bs.toList = x.val := by
  have hwritten : value s.toOctets.toList = x.val := hs.reduced.value_toOctets.trans hs.toNat_eq
  constructor
  · rintro rfl
    exact hwritten
  · intro h
    exact Octets.value_inj (h.trans hwritten.symm)

/-- What is read is written the same exactly if the number is below the order. -/
theorem toOctets_ofOctets_eq_iff (bs : Octets 32) :
    (ofOctets bs).toOctets = bs ↔ value bs.toList < groupOrder := by
  rw [eq_comm, (ofOctets_denotes bs).eq_toOctets_iff, ZMod.val_natCast]
  constructor
  · intro h
    rw [h]
    exact Nat.mod_lt _ (by decide)
  · intro h
    exact (Nat.mod_eq_of_lt h).symm

/-- A string is accepted exactly if its number is below the order. -/
theorem readCanonical_eq (bs : Octets 32) :
    readCanonical bs = ⟨ofOctets bs, if value bs.toList < groupOrder then 0 else -1⟩ := by
  simp only [readCanonical, Octets.difference_eq_zero_iff, toOctets_ofOctets_eq_iff]

/-- A string is accepted if its number is below the order. -/
theorem ofCanonical?_eq (bs : Octets 32) :
    ofCanonical? bs = if value bs.toList < groupOrder then some (ofOctets bs) else none := by
  simp only [ofCanonical?, readCanonical_status_iff, toOctets_ofOctets_eq_iff,
    readCanonical_scalar]

/-- What a reduced scalar writes is read back. -/
theorem Reduced.ofOctets_toOctets (hs : s.Reduced) : ofOctets s.toOctets = s := by
  rw [(ofOctets_denotes s.toOctets).eq_iff hs.denotes, hs.value_toOctets]
  rfl

/-- What a reduced scalar writes is accepted. -/
theorem Reduced.readCanonical_toOctets (hs : s.Reduced) : readCanonical s.toOctets = ⟨s, 0⟩ := by
  have hlt : value s.toOctets.toList < groupOrder := hs.value_toOctets ▸ hs.2
  rw [readCanonical_eq, if_pos hlt, hs.ofOctets_toOctets]

/-- What a reduced scalar writes is read as the scalar. -/
theorem Reduced.ofCanonical?_toOctets (hs : s.Reduced) : ofCanonical? s.toOctets = some s :=
  ofCanonical?_eq_some.mpr ⟨hs.ofOctets_toOctets.symm, rfl⟩

/-- **Reading is exact.**  Every string of 64 or of 32 bytes is read as the remainder of its number.
The strict reading keeps that remainder too and accepts the numbers below the order only; what it
accepts is written the same, and what a reduced scalar writes is accepted and read as the scalar. -/
theorem reading_exact (wide : Octets 64) (bs : Octets 32) (hs : s.Reduced) :
    ((ofWide wide).Reduced ∧ (ofWide wide).toNat = value wide.toList % groupOrder) ∧
      ((ofOctets bs).Reduced ∧ (ofOctets bs).toNat = value bs.toList % groupOrder) ∧
      ((readCanonical bs).scalar.Reduced ∧
        (readCanonical bs).scalar.toNat = value bs.toList % groupOrder) ∧
      ((readCanonical bs).status = 0 ↔ value bs.toList < groupOrder) ∧
      ((readCanonical bs).status = 0 → (readCanonical bs).scalar.toOctets = bs) ∧
      readCanonical s.toOctets = ⟨s, 0⟩ := by
  have hwide := ofWide_denotes wide
  have hread := ofOctets_denotes bs
  have hstatus : (readCanonical bs).status = 0 ↔ value bs.toList < groupOrder :=
    (readCanonical_status_iff bs).trans (toOctets_ofOctets_eq_iff bs)
  refine ⟨⟨hwide.reduced, hwide.toNat_eq_mod⟩, ⟨hread.reduced, hread.toNat_eq_mod⟩, ?_, hstatus, ?_,
    hs.readCanonical_toOctets⟩
  · rw [readCanonical_scalar]
    exact ⟨hread.reduced, hread.toNat_eq_mod⟩
  · intro haccepted
    exact (readCanonical_status_iff bs).mp haccepted

/-- One less than the order is the last number that is accepted, the order itself is read as zero,
and the largest number of 64 bytes is read past both cuts. -/
theorem reading_exact_last :
    let last : Scalar := { order with l0 := order.l0 - 1 }
    last.Reduced ∧ readCanonical last.toOctets = ⟨last, 0⟩ ∧
      (readCanonical order.toOctets).status ≠ 0 ∧ (readCanonical order.toOctets).scalar.toNat = 0 ∧
      (ofWide (Vector.replicate 64 0xff)).toNat = (2 ^ 512 - 1) % groupOrder := by
  intro last
  have hlast : last.Reduced := by decide
  have horder : value order.toOctets.toList = groupOrder := by decide +kernel
  have hlargest : value (Vector.replicate 64 (0xff : UInt8)).toList = 2 ^ 512 - 1 := by
    decide +kernel
  obtain ⟨⟨-, hwide⟩, -, ⟨-, hzero⟩, hstatus, -, hread⟩ :=
    reading_exact (Vector.replicate 64 0xff) order.toOctets hlast
  refine ⟨hlast, hread, ?_, ?_, ?_⟩
  · rw [Ne, hstatus, horder]
    exact Nat.lt_irrefl _
  · rw [hzero, horder, Nat.mod_self]
  · rw [hwide, hlargest]

end Scalar

end TwistedEdwards
