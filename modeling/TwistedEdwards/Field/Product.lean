import TwistedEdwards.Word.Wide
import TwistedEdwards.Field.Basic

/-!
# Products of field elements

A product is summed in five columns of 128 bits.  A limb product of weight
`2 ^ 255` or more is brought back into range by the factor nineteen, which is
taken into one operand beforehand.  One carry pass then returns to limbs.

Squares use the symmetry of the columns: a product that occurs twice is taken
once with a doubled operand.
-/

namespace TwistedEdwards

namespace FieldElement

open Wide (product)

/-- The five columns of a product, as double words. -/
structure Columns where
  c0 : Wide
  c1 : Wide
  c2 : Wide
  c3 : Wide
  c4 : Wide

/-- Carries from each column into the next, then once more through limb 0. -/
@[inline] def Columns.carry (h : Columns) : FieldElement :=
  let h1 := h.c1.addWord (h.c0.shiftRight 51)
  let h2 := h.c2.addWord (h1.shiftRight 51)
  let h3 := h.c3.addWord (h2.shiftRight 51)
  let h4 := h.c4.addWord (h3.shiftRight 51)
  carryLow
    ⟨(h.c0.lo &&& mask) + h4.shiftRight 51 * 19, h1.lo &&& mask, h2.lo &&& mask, h3.lo &&& mask,
      h4.lo &&& mask⟩

/-- The columns of a product; `g` carries the factor nineteen. -/
@[inline] def mulColumns (f g : FieldElement) : Columns :=
  let g1 := 19 * g.l1
  let g2 := 19 * g.l2
  let g3 := 19 * g.l3
  let g4 := 19 * g.l4
  { c0 := product f.l0 g.l0 + product f.l1 g4 + product f.l2 g3 + product f.l3 g2 +
      product f.l4 g1
    c1 := product f.l0 g.l1 + product f.l1 g.l0 + product f.l2 g4 + product f.l3 g3 +
      product f.l4 g2
    c2 := product f.l0 g.l2 + product f.l1 g.l1 + product f.l2 g.l0 + product f.l3 g4 +
      product f.l4 g3
    c3 := product f.l0 g.l3 + product f.l1 g.l2 + product f.l2 g.l1 + product f.l3 g.l0 +
      product f.l4 g4
    c4 := product f.l0 g.l4 + product f.l1 g.l3 + product f.l2 g.l2 + product f.l3 g.l1 +
      product f.l4 g.l0 }

/-- The product. -/
def mul (f g : FieldElement) : FieldElement := (mulColumns f g).carry

instance : Mul FieldElement := ⟨mul⟩

/-- The columns of a square.  An operand marked `d` is doubled, one marked `n` is
taken nineteenfold, and one marked `w` is both. -/
@[inline] def squareColumns (f : FieldElement) : Columns :=
  let d0 := 2 * f.l0
  let d1 := 2 * f.l1
  let d3 := 2 * f.l3
  let w1 := 38 * f.l1
  let n2 := 19 * f.l2
  let w2 := 38 * f.l2
  let n3 := 19 * f.l3
  let w3 := 38 * f.l3
  let n4 := 19 * f.l4
  { c0 := product f.l0 f.l0 + product w1 f.l4 + product n2 d3
    c1 := product d0 f.l1 + product w2 f.l4 + product n3 f.l3
    c2 := product d0 f.l2 + product f.l1 f.l1 + product w3 f.l4
    c3 := product d0 f.l3 + product d1 f.l2 + product n4 f.l4
    c4 := product d0 f.l4 + product d1 f.l3 + product f.l2 f.l2 }

/-- The square. -/
def square (f : FieldElement) : FieldElement := (squareColumns f).carry

/-- Twice the square, the limbs of the square doubled. -/
def doubleSquare (f : FieldElement) : FieldElement :=
  let s := square f
  ⟨2 * s.l0, 2 * s.l1, 2 * s.l2, 2 * s.l3, 2 * s.l4⟩

/-- Squares `n` times. -/
def squareTimes (n : Nat) (f : FieldElement) : FieldElement := Nat.repeat square n f

theorem mul_def (f g : FieldElement) : f * g = mul f g := rfl

/-- Twice the square is the square added to itself, limb by limb. -/
theorem doubleSquare_eq_add (f : FieldElement) : doubleSquare f = square f + square f := by
  have htwo : ∀ a : UInt64, 2 * a = a + a := fun a => by
    apply UInt64.toNat_inj.mp
    rw [UInt64.toNat_mul, UInt64.toNat_add, show (2 : UInt64).toNat = 2 from rfl]
    congr 1
    omega
  simp [doubleSquare, add_def, add, htwo]

theorem squareTimes_succ (n : Nat) (f : FieldElement) :
    squareTimes (n + 1) f = (squareTimes n f).square := rfl

end FieldElement

end TwistedEdwards
