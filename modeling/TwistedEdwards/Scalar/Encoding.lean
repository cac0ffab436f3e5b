import TwistedEdwards.Word.Hex
import TwistedEdwards.Word.Word256
import TwistedEdwards.Scalar.Montgomery

/-!
# Bytes of scalars

A reduced scalar is written in 32 little-endian bytes.  Any 32 or 64 bytes can be
read modulo the order; `readCanonical` accepts only what a reduced scalar writes.

A number of 512 bits is cut at bit 260.  The low part is reduced by a product
with `2 ^ 260`, and the high part by a product with `2 ^ 520`, which leaves it
shifted by the 260 bits that it stands above the low part.

A strict reading keeps the scalar even where it refuses the string.

Main statements: `Scalar.readCanonical_status_iff` and `Scalar.ofCanonical?_eq_some`, an
accepted string is the string of the scalar that it gives.
-/

namespace TwistedEdwards

namespace Scalar

/-- The limbs of a 256-bit number, not reduced. -/
def unpack (x : Word256) : Scalar :=
  ⟨x.w0 &&& mask,
    (x.w0 >>> 52 ||| x.w1 <<< 12) &&& mask,
    (x.w1 >>> 40 ||| x.w2 <<< 24) &&& mask,
    (x.w2 >>> 28 ||| x.w3 <<< 36) &&& mask,
    x.w3 >>> 16⟩

/-- Reads 32 bytes modulo the order. -/
def ofOctets (bs : Octets 32) : Scalar := montgomeryMul (unpack (Word256.ofOctets bs)) radix

/-- The low 260 bits of a 512-bit number, not reduced. -/
def unpackLow (low high : Word256) : Scalar :=
  { unpack low with l4 := (low.w3 >>> 16 ||| high.w0 <<< 48) &&& mask }

/-- The bits from 260 on of a 512-bit number, not reduced. -/
def unpackHigh (high : Word256) : Scalar :=
  ⟨high.w0 >>> 4 &&& mask,
    (high.w0 >>> 56 ||| high.w1 <<< 8) &&& mask,
    (high.w1 >>> 44 ||| high.w2 <<< 20) &&& mask,
    (high.w2 >>> 32 ||| high.w3 <<< 32) &&& mask,
    high.w3 >>> 20⟩

/-- The first and the last half of 64 bytes. -/
def halves (bs : Octets 64) : Word256 × Word256 :=
  (⟨LittleEndian.word bs 0, LittleEndian.word bs 8, LittleEndian.word bs 16,
      LittleEndian.word bs 24⟩,
    ⟨LittleEndian.word bs 32, LittleEndian.word bs 40, LittleEndian.word bs 48,
      LittleEndian.word bs 56⟩)

/-- Reads 64 bytes modulo the order. -/
def ofWide (bs : Octets 64) : Scalar :=
  let (low, high) := halves bs
  montgomeryMul (unpackHigh high) radixSquare + montgomeryMul (unpackLow low high) radix

/-- The limbs packed into four words. -/
def pack (s : Scalar) : Word256 :=
  ⟨s.l0 ||| s.l1 <<< 52, s.l1 >>> 12 ||| s.l2 <<< 40, s.l2 >>> 24 ||| s.l3 <<< 28,
    s.l3 >>> 36 ||| s.l4 <<< 16⟩

/-- Writes 32 bytes. -/
def toOctets (s : Scalar) : Octets 32 := s.pack.toOctets

/-- What a strict reading gives: the scalar, that of a refused string too, and a status number that
is zero for an accepted string and -1 for a refused one. -/
structure CanonicalReading where
  scalar : Scalar
  status : Int
deriving DecidableEq

/-- Reads 32 bytes modulo the order, and accepts them if what the scalar read writes differs from
them in no bit. -/
def readCanonical (bs : Octets 32) : CanonicalReading :=
  let s := ofOctets bs
  ⟨s, if s.toOctets.difference bs = 0 then 0 else -1⟩

/-- Reads 32 bytes only if a reduced scalar writes them. -/
def ofCanonical? (bs : Octets 32) : Option Scalar :=
  let reading := readCanonical bs
  if reading.status = 0 then some reading.scalar else none

/-- A word as a scalar. -/
def ofWord (w : UInt64) : Scalar := montgomeryMul (unpack ⟨w, 0, 0, 0⟩) radix

/-- The bytes in hexadecimal. -/
def text (s : Scalar) : String := Hex.encode s.toOctets.toList

theorem readCanonical_scalar (bs : Octets 32) : (readCanonical bs).scalar = ofOctets bs := rfl

/-- A string is accepted exactly if what is read from it is written the same. -/
theorem readCanonical_status_iff (bs : Octets 32) :
    (readCanonical bs).status = 0 ↔ (ofOctets bs).toOctets = bs := by
  simp only [readCanonical, Octets.difference_eq_zero_iff]
  split
  · next heq => simp only [heq]
  · next hne =>
    simp only [hne, iff_false]
    decide

/-- An accepted string is the string of the scalar that it gives. -/
theorem ofCanonical?_eq_some {bs : Octets 32} {s : Scalar} :
    ofCanonical? bs = some s ↔ s = ofOctets bs ∧ s.toOctets = bs := by
  simp only [ofCanonical?, readCanonical_status_iff, readCanonical_scalar]
  constructor
  · intro h
    split at h
    · next heq => cases h; exact ⟨rfl, heq⟩
    · cases h
  · rintro ⟨rfl, heq⟩
    rw [if_pos heq]

end Scalar

end TwistedEdwards
