import TwistedEdwards.Scalar.Encoding

/-!
# Bytes of reduced scalars

A number below `2 ^ 256` in limbs of 52 bits is packed without a loss, so a reduced scalar
is written as its number.

Main statement: `Scalar.Reduced.value_toOctets`.
-/

namespace TwistedEdwards

namespace Scalar

variable {s : Scalar}

/-- Limbs below the radix are packed without a loss while their number fits 256 bits. -/
theorem toNat_pack (hs : s.Bounded (2 ^ 52)) (htop : s.toNat < 2 ^ 256) :
    s.pack.toNat = s.toNat := by
  obtain ⟨h0, h1, h2, h3, h4⟩ := hs
  have w0 : (s.l0 ||| s.l1 <<< 52).toNat = s.l0.toNat + s.l1.toNat % 2 ^ 12 * 2 ^ 52 :=
    Bits.toNat_or_shiftLeft_mod (by decide) h0
  have w1 : (s.l1 >>> 12 ||| s.l2 <<< 40).toNat =
      s.l1.toNat / 2 ^ 12 + s.l2.toNat % 2 ^ 24 * 2 ^ 40 :=
    Bits.toNat_shiftRight_or_shiftLeft (by decide) (by decide) h1
  have w2 : (s.l2 >>> 24 ||| s.l3 <<< 28).toNat =
      s.l2.toNat / 2 ^ 24 + s.l3.toNat % 2 ^ 36 * 2 ^ 28 :=
    Bits.toNat_shiftRight_or_shiftLeft (by decide) (by decide) h2
  have w3 : (s.l3 >>> 36 ||| s.l4 <<< 16).toNat =
      s.l3.toNat / 2 ^ 36 + s.l4.toNat % 2 ^ 48 * 2 ^ 16 :=
    Bits.toNat_shiftRight_or_shiftLeft (by decide) (by decide) h3
  simp only [toNat] at htop
  simp only [pack, Word256.toNat, w0, w1, w2, w3, toNat]
  omega

theorem Reduced.toNat_lt (hs : s.Reduced) : s.toNat < 2 ^ 253 :=
  Nat.lt_trans hs.2 (by decide)

/-- A reduced scalar is written as its number. -/
theorem Reduced.value_toOctets (hs : s.Reduced) :
    LittleEndian.value s.toOctets.toList = s.toNat := by
  rw [toOctets, Word256.value_toOctets, toNat_pack hs.1 (Nat.lt_trans hs.toNat_lt (by decide))]

/-- So has the number that a reduced scalar writes. -/
theorem Reduced.value_toOctets_lt (hs : s.Reduced) :
    LittleEndian.value s.toOctets.toList < 2 ^ 253 := by
  rw [hs.value_toOctets]
  exact hs.toNat_lt

end Scalar

end TwistedEdwards
