import Mathlib.Tactic.Ring
import TwistedEdwards.Field.Product
import TwistedEdwards.Proofs.Field.Residue
import TwistedEdwards.Proofs.Prime

/-!
# Products as residues

With limbs below `2 ^ 54` no column of a product wraps at 128 bits, no carry between
columns is cut at 64, and the last carry times nineteen still fits its word.  The
columns then add up to the product of the numbers, what lies above `2 ^ 255` being
folded back nineteenfold.

The columns of a square are those of a product of equal operands, word for word, as
long as the doubled and the nineteenfold operands fit.

Main statements: `FieldElement.Denotes.mul`, `FieldElement.square_eq_mul` and
`FieldElement.Denotes.square`.
-/

namespace TwistedEdwards

namespace FieldElement

open Wide (product)

/-- The number that columns stand for. -/
def Columns.toNat (h : Columns) : Nat :=
  h.c0.toNat + h.c1.toNat * 2 ^ 51 + h.c2.toNat * 2 ^ 102 + h.c3.toNat * 2 ^ 153 +
    h.c4.toNat * 2 ^ 204

/-- The size of the columns of a product of limbs below `2 ^ 54`.  The top column holds no
nineteenfold operand. -/
structure Columns.Small (h : Columns) : Prop where
  c0 : h.c0.toNat ≤ 95 * 2 ^ 108
  c1 : h.c1.toNat ≤ 95 * 2 ^ 108
  c2 : h.c2.toNat ≤ 95 * 2 ^ 108
  c3 : h.c3.toNat ≤ 95 * 2 ^ 108
  c4 : h.c4.toNat ≤ 5 * 2 ^ 108

/-- One column carried into the next, where both leave room for the carry. -/
theorem toNat_carryInto {x y : Wide} {n : Nat} (hx : x.toNat = n) (hn : n < 2 ^ 115)
    (hy : y.toNat ≤ 95 * 2 ^ 108) :
    (y.addWord (x.shiftRight 51)).toNat = y.toNat + n / 2 ^ 51 ∧
      y.toNat + n / 2 ^ 51 < 2 ^ 115 := by
  have hcarry : (x.shiftRight 51).toNat = n / 2 ^ 51 := by
    rw [Wide.toNat_shiftRight x (by decide) (by decide), hx]
    exact Nat.mod_eq_of_lt (by change n / 2 ^ 51 < 2 ^ 64; omega)
  rw [Wide.toNat_addWord, hcarry]
  omega

/-- The low word of a double word has its low bits. -/
theorem toNat_lo_and_mask (x : Wide) : (x.lo &&& mask).toNat = x.toNat % 2 ^ 51 := by
  rw [toNat_and_mask, Wide.toNat]
  omega

/-- Small columns are carried without a loss: the carry round reads off the digits of their
number, and limb 0 then takes one more carry into limb 1. -/
theorem Columns.Small.exists_carry_eq {h : Columns} (hs : h.Small) :
    ∃ f : FieldElement, h.carry = carryLow f ∧ CarriedFrom h.toNat f := by
  obtain ⟨s0, s1, s2, s3, s4⟩ := hs
  obtain ⟨e1, b1⟩ := toNat_carryInto (x := h.c0) (y := h.c1) rfl (by omega) s1
  obtain ⟨e2, b2⟩ := toNat_carryInto (y := h.c2) e1 b1 s2
  obtain ⟨e3, b3⟩ := toNat_carryInto (y := h.c3) e2 b2 s3
  obtain ⟨e4, b4⟩ := toNat_carryInto (y := h.c4) e3 b3 (by omega)
  obtain ⟨d0, d1, d2, d3, d4, d5⟩ :=
    digits_of_carries h.c0.toNat h.c1.toNat h.c2.toNat h.c3.toNat h.c4.toNat
  refine ⟨_, rfl, ⟨?_, ?_, ?_, ?_, ?_⟩⟩
  · -- the carry out of the top column is the one that is multiplied, and the tightest
    have hnineteen : (19 : UInt64).toNat = 19 := rfl
    have htop : 19 * (h.toNat / 2 ^ 255) < 2 ^ 64 - 2 ^ 51 := by
      rw [Columns.toNat, ← d5]
      omega
    rw [UInt64.toNat_add, UInt64.toNat_mul, toNat_lo_and_mask,
      Wide.toNat_shiftRight _ (by decide) (by decide), e4, hnineteen, d0]
    change (h.toNat % 2 ^ 51 + _ / 2 ^ 51 % 2 ^ 64 * 19 % 2 ^ 64) % 2 ^ 64 = _
    rw [d5]
    change (h.toNat % 2 ^ 51 + h.toNat / 2 ^ 255 % 2 ^ 64 * 19 % 2 ^ 64) % 2 ^ 64 = _
    omega
  · rw [toNat_lo_and_mask, e1]
    exact d1
  · rw [toNat_lo_and_mask, e2]
    exact d2
  · rw [toNat_lo_and_mask, e3]
    exact d3
  · rw [toNat_lo_and_mask, e4]
    exact d4

/-- Carried columns stand for their number, every limb below the radix but limb 1. -/
theorem Columns.Small.carry_denotes {h : Columns} (hs : h.Small) :
    Denotes (2 ^ 51 + 2 ^ 13) h.carry (h.toNat : ZMod fieldOrder) := by
  obtain ⟨f, heq, hf⟩ := hs.exists_carry_eq
  have h0 := f.l0.toNat_lt
  have hres := hf.residue_eq
  obtain ⟨-, h1, h2, h3, h4⟩ := hf
  have hlow : f.l1.toNat < 2 ^ 64 - 2 ^ 13 := by omega
  rw [heq]
  refine ⟨?_, ?_⟩
  · simp only [carryLow, Bounded, UInt64.toNat_add, toNat_and_mask, toNat_shiftRight_51]
    omega
  · rw [residue, toNat_carryLow hlow]
    exact hres

/-- Multiplying by a small constant is exact while the product fits. -/
theorem toNat_const_mul {a k : UInt64} (h : k.toNat * a.toNat < 2 ^ 64) :
    (k * a).toNat = k.toNat * a.toNat := by
  rw [UInt64.toNat_mul]
  exact Nat.mod_eq_of_lt h

/-- Nineteen times a limb of 58 bits fits its word. -/
theorem toNat_nineteenfold {a : UInt64} (ha : a.toNat < 2 ^ 58) :
    (19 * a).toNat = 19 * a.toNat :=
  toNat_const_mul (by change 19 * a.toNat < 2 ^ 64; omega)

/-- A column of five products does not wrap while its second factors are at most nineteenfold. -/
theorem toNat_column {f b : FieldElement} {m : Nat} (hm : m ≤ 19) (hf : f.Bounded (2 ^ 54))
    (hb : b.Bounded (m * 2 ^ 54)) :
    let n := f.l0.toNat * b.l0.toNat + f.l1.toNat * b.l1.toNat + f.l2.toNat * b.l2.toNat +
      f.l3.toNat * b.l3.toNat + f.l4.toNat * b.l4.toNat
    (product f.l0 b.l0 + product f.l1 b.l1 + product f.l2 b.l2 + product f.l3 b.l3 +
      product f.l4 b.l4).toNat = n ∧ n ≤ 5 * m * 2 ^ 108 := by
  obtain ⟨f0, f1, f2, f3, f4⟩ := hf
  obtain ⟨b0, b1, b2, b3, b4⟩ := hb
  have hle : ∀ {x y : Nat}, x < 2 ^ 54 → y < m * 2 ^ 54 → x * y ≤ m * 2 ^ 108 := by
    intro x y hx hy
    calc x * y ≤ 2 ^ 54 * (m * 2 ^ 54) := Nat.mul_le_mul hx.le hy.le
      _ = m * 2 ^ 108 := by ring
  have p0 := hle f0 b0
  have p1 := hle f1 b1
  have p2 := hle f2 b2
  have p3 := hle f3 b3
  have p4 := hle f4 b4
  intro n
  simp only [Wide.toNat_add, Wide.toNat_product, n]
  omega

/-- The columns of a product of limbs below `2 ^ 54` do not wrap, and they add up to the product
of the two numbers, what lies above `2 ^ 255` folded back. -/
theorem mulColumns_small {f g : FieldElement} (hf : f.Bounded (2 ^ 54))
    (hg : g.Bounded (2 ^ 54)) :
    (mulColumns f g).Small ∧
      ((mulColumns f g).toNat : ZMod fieldOrder) = f.residue * g.residue := by
  obtain ⟨g0, g1, g2, g3, g4⟩ := hg
  have n1 := toNat_nineteenfold (a := g.l1) (by omega)
  have n2 := toNat_nineteenfold (a := g.l2) (by omega)
  have n3 := toNat_nineteenfold (a := g.l3) (by omega)
  have n4 := toNat_nineteenfold (a := g.l4) (by omega)
  have w1 : (19 * g.l1).toNat < 19 * 2 ^ 54 := by omega
  have w2 : (19 * g.l2).toNat < 19 * 2 ^ 54 := by omega
  have w3 : (19 * g.l3).toNat < 19 * 2 ^ 54 := by omega
  have w4 : (19 * g.l4).toNat < 19 * 2 ^ 54 := by omega
  have hwide : ∀ {a : Nat}, a < 2 ^ 54 → a < 19 * 2 ^ 54 := by omega
  obtain ⟨c0, s0⟩ := toNat_column (m := 19) (by omega) hf
    (b := ⟨g.l0, 19 * g.l4, 19 * g.l3, 19 * g.l2, 19 * g.l1⟩) ⟨hwide g0, w4, w3, w2, w1⟩
  obtain ⟨c1, s1⟩ := toNat_column (m := 19) (by omega) hf
    (b := ⟨g.l1, g.l0, 19 * g.l4, 19 * g.l3, 19 * g.l2⟩) ⟨hwide g1, hwide g0, w4, w3, w2⟩
  obtain ⟨c2, s2⟩ := toNat_column (m := 19) (by omega) hf
    (b := ⟨g.l2, g.l1, g.l0, 19 * g.l4, 19 * g.l3⟩) ⟨hwide g2, hwide g1, hwide g0, w4, w3⟩
  obtain ⟨c3, s3⟩ := toNat_column (m := 19) (by omega) hf
    (b := ⟨g.l3, g.l2, g.l1, g.l0, 19 * g.l4⟩)
    ⟨hwide g3, hwide g2, hwide g1, hwide g0, w4⟩
  obtain ⟨c4, s4⟩ := toNat_column (m := 1) (by omega) hf
    (b := ⟨g.l4, g.l3, g.l2, g.l1, g.l0⟩) (by rw [Nat.one_mul]; exact ⟨g4, g3, g2, g1, g0⟩)
  refine ⟨⟨c0.trans_le s0, c1.trans_le s1, c2.trans_le s2, c3.trans_le s3, c4.trans_le s4⟩, ?_⟩
  have hfold := natCast_two_pow_255
  simp only [n1, n2, n3, n4] at c0 c1 c2 c3 c4
  simp only [Columns.toNat, mulColumns, c0, c1, c2, c3, c4, residue, toNat]
  push_cast at hfold ⊢
  linear_combination -((f.l1.toNat * g.l4.toNat + f.l2.toNat * g.l3.toNat +
      f.l3.toNat * g.l2.toNat + f.l4.toNat * g.l1.toNat : ZMod fieldOrder) +
    (f.l2.toNat * g.l4.toNat + f.l3.toNat * g.l3.toNat + f.l4.toNat * g.l2.toNat) * 2 ^ 51 +
    (f.l3.toNat * g.l4.toNat + f.l4.toNat * g.l3.toNat) * 2 ^ 102 +
    f.l4.toNat * g.l4.toNat * 2 ^ 153) * hfold

/-- A product stands for the product. -/
theorem Denotes.mul {b c : Nat} {f g : FieldElement} {x y : ZMod fieldOrder}
    (hf : Denotes b f x) (hg : Denotes c g y) (hb : b ≤ 2 ^ 54 := by decide)
    (hc : c ≤ 2 ^ 54 := by decide) : Denotes (2 ^ 51 + 2 ^ 13) (f * g) (x * y) := by
  obtain ⟨hsmall, hvalue⟩ := mulColumns_small (hf.bounded.mono hb) (hg.bounded.mono hc)
  rw [← hf.residue_eq, ← hg.residue_eq, ← hvalue]
  exact hsmall.carry_denotes

/-- The columns of a square are the columns of the product of equal operands. -/
theorem squareColumns_eq {f : FieldElement} (hf : f.Bounded (2 ^ 58)) :
    squareColumns f = mulColumns f f := by
  obtain ⟨f0, f1, f2, f3, f4⟩ := hf
  have d0 := toNat_const_mul (k := 2) (a := f.l0) (by change 2 * _ < _; omega)
  have d1 := toNat_const_mul (k := 2) (a := f.l1) (by change 2 * _ < _; omega)
  have d3 := toNat_const_mul (k := 2) (a := f.l3) (by change 2 * _ < _; omega)
  have w1 := toNat_const_mul (k := 38) (a := f.l1) (by change 38 * _ < _; omega)
  have w2 := toNat_const_mul (k := 38) (a := f.l2) (by change 38 * _ < _; omega)
  have w3 := toNat_const_mul (k := 38) (a := f.l3) (by change 38 * _ < _; omega)
  have n1 := toNat_nineteenfold f1
  have n2 := toNat_nineteenfold f2
  have n3 := toNat_nineteenfold f3
  have n4 := toNat_nineteenfold f4
  have htwo : (2 : UInt64).toNat = 2 := rfl
  have hdouble : (38 : UInt64).toNat = 38 := rfl
  simp only [squareColumns, mulColumns, Columns.mk.injEq]
  refine ⟨?_, ?_, ?_, ?_, ?_⟩
  all_goals
    apply Wide.toNat_inj
    simp only [Wide.toNat_add, Wide.toNat_product, Nat.mod_add_mod, d0, d1, d3, w1, w2, w3, n1,
      n2, n3, n4, htwo, hdouble]
    congr 1
    ring

/-- A square is the product of equal operands, limb for limb. -/
theorem square_eq_mul {f : FieldElement} (hf : f.Bounded (2 ^ 58)) : f.square = f * f := by
  rw [mul_def, square, mul, squareColumns_eq hf]

/-- A square stands for the square, with the limbs of a product. -/
theorem Denotes.square {b : Nat} {f : FieldElement} {x : ZMod fieldOrder} (hf : Denotes b f x)
    (hb : b ≤ 2 ^ 54 := by decide) : Denotes (2 ^ 51 + 2 ^ 13) f.square (x ^ 2) := by
  rw [square_eq_mul (hf.bounded.mono (hb.trans (by decide))), pow_two]
  exact hf.mul hf hb hb

/-- Twice a square, limb by limb, stands for twice the square. -/
theorem Denotes.doubleSquare {b : Nat} {f : FieldElement} {x : ZMod fieldOrder}
    (hf : Denotes b f x) (hb : b ≤ 2 ^ 54 := by decide) :
    Denotes (2 ^ 52 + 2 ^ 14) f.doubleSquare (2 * x ^ 2) := by
  rw [doubleSquare_eq_add, two_mul]
  exact (hf.square hb).add (hf.square hb)

end FieldElement

end TwistedEdwards
