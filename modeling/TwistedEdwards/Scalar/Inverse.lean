import TwistedEdwards.Scalar.Montgomery

/-!
# Inverses of scalars

The inverse is the power with exponent two less than the order, by squaring and
multiplying from the top bit down.  The exponent is a table of bytes, read bit by
bit.  The powers are kept multiplied by `2 ^ 260`, so that one Montgomery product
multiplies two of them.

Main statement: `Scalar.value_inverseExponent`, what the table stands for.
-/

namespace TwistedEdwards

namespace Scalar

/-- The exponent of the inverse, two less than the order, in 32 bytes. -/
def inverseExponent : Octets 32 :=
  #v[0xeb, 0xd3, 0xf5, 0x5c, 0x1a, 0x63, 0x12, 0x58, 0xd6, 0x9c, 0xf7, 0xa2, 0xde, 0xf9, 0xde,
    0x14, 0x00, 0x00, 0x00, 0x00, 0x00, 0x00, 0x00, 0x00, 0x00, 0x00, 0x00, 0x00, 0x00, 0x00,
    0x00, 0x10]

/-- Squares, and multiplies by the base if the bit is set. -/
def powerStep (base : Scalar) (acc : Scalar) (bit : Bool) : Scalar :=
  let acc := montgomeryMul acc acc
  if bit then montgomeryMul acc base else acc

/-- The power of a base by the `n` low bits of an exponent, both the base and the
result multiplied by `2 ^ 260`. -/
def powerBits (base : Scalar) (exponent : Octets 32) (n : Nat) : Scalar :=
  n.foldRev (fun i _ acc => powerStep base acc (exponent.bit i)) radix

/-- The power with exponent two less than the order; zero for zero. -/
def power (s : Scalar) : Scalar :=
  montgomeryMul (powerBits (montgomeryMul s radixSquare) inverseExponent 253) one

/-- The inverse; zero has none. -/
def inverse? (s : Scalar) : Option Scalar := if s.isZero then none else some s.power

/-- The table stands for two less than the order. -/
theorem value_inverseExponent :
    LittleEndian.value inverseExponent.toList = groupOrder - 2 := by
  decide +kernel

/-- Only zero has no inverse. -/
theorem inverse?_eq_none_iff (s : Scalar) : s.inverse? = none ↔ s = zero := by
  simp [inverse?, isZero_iff]

theorem inverse?_of_ne_zero {s : Scalar} (hs : s ≠ zero) : s.inverse? = some s.power := by
  simp [inverse?, isZero_iff, hs]

end Scalar

end TwistedEdwards
