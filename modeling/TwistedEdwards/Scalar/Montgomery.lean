import TwistedEdwards.Word.Wide
import TwistedEdwards.Scalar.Basic

/-!
# Products of scalars

A product is summed in nine columns and divided by `2 ^ 260` modulo the order:
each of the five low columns is cleared by adding a multiple of the order, the
five high limbs remain, and one subtraction of the order finishes.  The order's
limb 3 is zero, so its products are left out.

The division is undone by one more product with `2 ^ 520`.

Main statement: `Scalar.clearingFactor_mul_l0`, the factor that clears a column.
-/

namespace TwistedEdwards

namespace Scalar

open Wide (product)

/-- The residue of `2 ^ 260`. -/
def radix : Scalar :=
  ⟨0xf48bd6721e6ed, 0x3bab5ac67e45a, 0xfffffeb35e51b, 0xfffffffffffff, 0xfffffffffff⟩

/-- The residue of `2 ^ 520`. -/
def radixSquare : Scalar :=
  ⟨0x9d265e952d13b, 0xd63c715bea69f, 0x5be65cb687604, 0x3dceec73d217f, 0x9411b7c309a⟩

/-- The negated inverse of the order modulo `2 ^ 52`. -/
@[inline] def clearingFactor : UInt64 := 0x51da312547e1b

/-- The multiple of the order that clears the low 52 bits of a column. -/
@[inline] def clearingDigit (column : Wide) : UInt64 := (column.lo * clearingFactor) &&& mask

/-- What a column carries once `n` times the order is added to it. -/
@[inline] def clearedCarry (column : Wide) (n : UInt64) : UInt64 :=
  (column + product n order.l0).shiftRight 52

/-- The columns of a product, least significant first. -/
structure Columns where
  z0 : Wide
  z1 : Wide
  z2 : Wide
  z3 : Wide
  z4 : Wide
  z5 : Wide
  z6 : Wide
  z7 : Wide
  z8 : Wide

/-- The columns of a product, each a sum of products of limbs. -/
@[inline] def mulColumns (f g : Scalar) : Columns where
  z0 := product f.l0 g.l0
  z1 := product f.l0 g.l1 + product f.l1 g.l0
  z2 := product f.l0 g.l2 + product f.l1 g.l1 + product f.l2 g.l0
  z3 := product f.l0 g.l3 + product f.l1 g.l2 + product f.l2 g.l1 + product f.l3 g.l0
  z4 := product f.l0 g.l4 + product f.l1 g.l3 + product f.l2 g.l2 + product f.l3 g.l1 +
    product f.l4 g.l0
  z5 := product f.l1 g.l4 + product f.l2 g.l3 + product f.l3 g.l2 + product f.l4 g.l1
  z6 := product f.l2 g.l4 + product f.l3 g.l3 + product f.l4 g.l2
  z7 := product f.l3 g.l4 + product f.l4 g.l3
  z8 := product f.l4 g.l4

/-- The columns divided by `2 ^ 260` modulo the order. -/
@[inline] def Columns.reduce (z : Columns) : Scalar :=
  let s0 := z.z0
  let n0 := clearingDigit s0
  let s1 := z.z1.addWord (clearedCarry s0 n0) + product n0 order.l1
  let n1 := clearingDigit s1
  let s2 := z.z2.addWord (clearedCarry s1 n1) + product n0 order.l2 + product n1 order.l1
  let n2 := clearingDigit s2
  let s3 := z.z3.addWord (clearedCarry s2 n2) + product n1 order.l2 + product n2 order.l1
  let n3 := clearingDigit s3
  let s4 := z.z4.addWord (clearedCarry s3 n3) + product n0 order.l4 + product n2 order.l2 +
    product n3 order.l1
  let n4 := clearingDigit s4
  let s5 := z.z5.addWord (clearedCarry s4 n4) + product n1 order.l4 + product n3 order.l2 +
    product n4 order.l1
  let s6 := z.z6.addWord (s5.shiftRight 52) + product n2 order.l4 + product n4 order.l2
  let s7 := z.z7.addWord (s6.shiftRight 52) + product n3 order.l4
  let s8 := z.z8.addWord (s7.shiftRight 52) + product n4 order.l4
  sub ⟨s5.lo &&& mask, s6.lo &&& mask, s7.lo &&& mask, s8.lo &&& mask, s8.shiftRight 52⟩ order

/-- The product divided by `2 ^ 260` modulo the order. -/
def montgomeryMul (f g : Scalar) : Scalar := (mulColumns f g).reduce

/-- The product modulo the order. -/
def mul (f g : Scalar) : Scalar := montgomeryMul (montgomeryMul f g) radixSquare

instance : Mul Scalar := ⟨mul⟩

def square (f : Scalar) : Scalar := f * f

/-- The constant is the remainder of `2 ^ 260`. -/
theorem toNat_radix : radix.toNat = 2 ^ 260 % groupOrder := by decide +kernel

/-- The constant is the remainder of `2 ^ 520`. -/
theorem toNat_radixSquare : radixSquare.toNat = 2 ^ 520 % groupOrder := by decide +kernel

/-- The factor is the negative of an inverse of the order's lowest limb. -/
theorem clearingFactor_mul_l0 :
    (clearingFactor.toNat * order.l0.toNat + 1) % 2 ^ 52 = 0 := by decide

end Scalar

end TwistedEdwards
