import Mathlib.Tactic.Ring
import TwistedEdwards.Scalar.Montgomery
import TwistedEdwards.Proofs.Scalar.Residue

/-!
# Montgomery products as residues

The digit that clears a column is chosen so that the column's low 52 bits vanish once it times
the order is added, so what the column carries is an exact quotient.  The five digits make one
multiplier `N < 2 ^ 260` with `r * 2 ^ 260 = z + N * order`.  A number `z` below the order times
`2 ^ 260` therefore leaves `r` below twice the order, and one subtraction reduces it.

No operand has to be reduced for this: their product being small is enough.

Main statements: `Scalar.montgomeryMul_spec`, `Scalar.Denotes.mul` and `Scalar.Denotes.square`.
-/

namespace TwistedEdwards

namespace Scalar

open Wide (product)

variable {a b c : UInt64} {x y : Wide} {j k m n : Nat} {f g : Scalar}

/-- The double word stands for `n`, which is no more than `k` products of limbs. -/
structure Holds (k : Nat) (x : Wide) (n : Nat) : Prop where
  toNat_eq : x.toNat = n
  le : n ≤ k * 2 ^ 104

theorem holds_product (ha : a.toNat < 2 ^ 52) (hb : b.toNat < 2 ^ 52) :
    Holds 1 (product a b) (a.toNat * b.toNat) :=
  ⟨Wide.toNat_product a b, (Nat.mul_le_mul ha.le hb.le).trans (by decide)⟩

/-- Fifteen products fit a double word. -/
theorem Holds.add (hx : Holds j x m) (hy : Holds k y n) (h : j + k < 16 := by decide) :
    Holds (j + k) (x + y) (m + n) := by
  obtain ⟨ex, lx⟩ := hx
  obtain ⟨ey, ly⟩ := hy
  refine ⟨?_, ?_⟩
  · rw [Wide.toNat_add, ex, ey]
    omega
  · omega

/-- A carry is less than a product. -/
theorem Holds.addWord (hx : Holds k x n) (c : UInt64) (h : k + 1 < 16 := by decide) :
    Holds (k + 1) (x.addWord c) (n + c.toNat) := by
  obtain ⟨ex, lx⟩ := hx
  have hc := c.toNat_lt
  refine ⟨?_, ?_⟩
  · rw [Wide.toNat_addWord, ex]
    omega
  · omega

/-- The word above the low 52 bits is exact. -/
theorem Holds.toNat_shiftRight (hx : Holds k x n) (h : k < 16 := by decide) :
    (x.shiftRight 52).toNat = n / 2 ^ 52 := by
  have hle := hx.le
  rw [Wide.toNat_shiftRight x (by decide) (by decide), hx.toNat_eq]
  exact Nat.mod_eq_of_lt (by change n / 2 ^ 52 < 2 ^ 64; omega)

/-- The low word of a double word has its low bits. -/
theorem toNat_lo_and_mask (x : Wide) : (x.lo &&& mask).toNat = x.toNat % 2 ^ 52 := by
  rw [toNat_and_mask, Wide.toNat]
  omega

/-- A column is what it keeps and what it carries. -/
theorem Holds.low_add_carry (hx : Holds k x n) (h : k < 16 := by decide) :
    (x.lo &&& mask).toNat + (x.shiftRight 52).toNat * 2 ^ 52 = n := by
  rw [hx.toNat_shiftRight h, toNat_lo_and_mask, hx.toNat_eq]
  omega

theorem clearingDigit_lt (x : Wide) : (clearingDigit x).toNat < 2 ^ 52 := toNat_and_mask_lt _

/-- The digit times the order clears the low bits of the column. -/
theorem clearingDigit_clears (x : Wide) :
    (x.toNat + (clearingDigit x).toNat * order.l0.toNat) % 2 ^ 52 = 0 := by
  have hdvd : 2 ^ 52 ∣ 2 ^ 64 := by decide
  have hlow : x.lo.toNat % 2 ^ 52 = x.toNat % 2 ^ 52 := by
    rw [Wide.toNat]
    omega
  have hdigit : (clearingDigit x).toNat = x.toNat * clearingFactor.toNat % 2 ^ 52 := by
    rw [clearingDigit, toNat_and_mask, UInt64.toNat_mul, Nat.mod_mod_of_dvd _ hdvd, Nat.mul_mod,
      hlow, ← Nat.mul_mod]
  have hfactor := clearingFactor_mul_l0
  rw [hdigit]
  generalize clearingFactor.toNat = factor at hfactor ⊢
  generalize order.l0.toNat = l0 at hfactor ⊢
  generalize x.toNat = v
  calc (v + v * factor % 2 ^ 52 * l0) % 2 ^ 52
      = (v + v * factor * l0) % 2 ^ 52 := by
        rw [Nat.add_mod, Nat.mod_mul_mod, ← Nat.add_mod]
    _ = v * (factor * l0 + 1) % 2 ^ 52 := by
        congr 1
        ring
    _ = 0 := by rw [Nat.mul_mod, hfactor, Nat.mul_zero, Nat.zero_mod]

/-- What a cleared column carries is an exact quotient. -/
theorem Holds.clearedCarry (hx : Holds k x n) (h : k + 1 < 16 := by decide) :
    (clearedCarry x (clearingDigit x)).toNat * 2 ^ 52 =
      n + (clearingDigit x).toNat * order.l0.toNat := by
  have hclears := clearingDigit_clears x
  have hsum := hx.add (holds_product (clearingDigit_lt x) (by decide : order.l0.toNat < 2 ^ 52)) h
  rw [hx.toNat_eq] at hclears
  rw [Scalar.clearedCarry, hsum.toNat_shiftRight h]
  omega

/-- Five limbs make up the Montgomery radix. -/
theorem radix_pow : 2 ^ 260 = (2 ^ 52) ^ 5 := by omega

/-- The number that columns stand for. -/
def Columns.toNat (z : Columns) : Nat :=
  z.z0.toNat + z.z1.toNat * 2 ^ 52 + z.z2.toNat * 2 ^ 104 + z.z3.toNat * 2 ^ 156 +
    z.z4.toNat * 2 ^ 208 +
    (z.z5.toNat + z.z6.toNat * 2 ^ 52 + z.z7.toNat * 2 ^ 104 + z.z8.toNat * 2 ^ 156) * 2 ^ 260

/-- No column holds more than five products. -/
structure Columns.Small (z : Columns) : Prop where
  z0 : Holds 5 z.z0 z.z0.toNat
  z1 : Holds 5 z.z1 z.z1.toNat
  z2 : Holds 5 z.z2 z.z2.toNat
  z3 : Holds 5 z.z3 z.z3.toNat
  z4 : Holds 5 z.z4 z.z4.toNat
  z5 : Holds 5 z.z5 z.z5.toNat
  z6 : Holds 5 z.z6 z.z6.toNat
  z7 : Holds 5 z.z7 z.z7.toNat
  z8 : Holds 5 z.z8 z.z8.toNat

/-- A column of at most five products, with its own number. -/
theorem Holds.small (hx : Holds k x n) (h : k ≤ 5 := by decide) : Holds 5 x x.toNat :=
  ⟨rfl, hx.toNat_eq.trans_le (hx.le.trans (Nat.mul_le_mul_right _ h))⟩

/-- The columns of a product of limbs below the radix do not wrap, and they add up to the product
of the numbers. -/
theorem mulColumns_small (hf : f.Bounded (2 ^ 52)) (hg : g.Bounded (2 ^ 52)) :
    (mulColumns f g).Small ∧ (mulColumns f g).toNat = f.toNat * g.toNat := by
  obtain ⟨f0, f1, f2, f3, f4⟩ := hf
  obtain ⟨g0, g1, g2, g3, g4⟩ := hg
  have c0 := holds_product f0 g0
  have c1 := (holds_product f0 g1).add (holds_product f1 g0)
  have c2 := ((holds_product f0 g2).add (holds_product f1 g1)).add (holds_product f2 g0)
  have c3 := (((holds_product f0 g3).add (holds_product f1 g2)).add (holds_product f2 g1)).add
    (holds_product f3 g0)
  have c4 := ((((holds_product f0 g4).add (holds_product f1 g3)).add (holds_product f2 g2)).add
    (holds_product f3 g1)).add (holds_product f4 g0)
  have c5 := (((holds_product f1 g4).add (holds_product f2 g3)).add (holds_product f3 g2)).add
    (holds_product f4 g1)
  have c6 := ((holds_product f2 g4).add (holds_product f3 g3)).add (holds_product f4 g2)
  have c7 := (holds_product f3 g4).add (holds_product f4 g3)
  have c8 := holds_product f4 g4
  refine ⟨⟨c0.small, c1.small, c2.small, c3.small, c4.small, c5.small, c6.small, c7.small,
    c8.small⟩, ?_⟩
  simp only [Columns.toNat, mulColumns, c0.toNat_eq, c1.toNat_eq, c2.toNat_eq, c3.toNat_eq,
    c4.toNat_eq, c5.toNat_eq, c6.toNat_eq, c7.toNat_eq, c8.toNat_eq, toNat, radix_pow]
  ring

/-- The order's limb 3 is zero. -/
theorem groupOrder_eq : groupOrder = order.l0.toNat + order.l1.toNat * 2 ^ 52 +
    order.l2.toNat * 2 ^ 104 + order.l4.toNat * 2 ^ 208 := by decide

/-- The five high limbs times `2 ^ 260` are the columns and a multiple of the order. -/
theorem Columns.Small.exists_reduce_eq {z : Columns} (hz : z.Small) :
    ∃ r multiplier : Scalar, z.reduce = r - order ∧
      (r.toNat < 2 ^ 260 → r.Bounded (2 ^ 52)) ∧ multiplier.Bounded (2 ^ 52) ∧
      r.toNat * (2 ^ 52) ^ 5 = z.toNat + multiplier.toNat * groupOrder := by
  obtain ⟨h0, h1, h2, h3, h4, h5, h6, h7, h8⟩ := hz
  have l1 : order.l1.toNat < 2 ^ 52 := by decide
  have l2 : order.l2.toNat < 2 ^ 52 := by decide
  have l4 : order.l4.toNat < 2 ^ 52 := by decide
  unfold Columns.reduce
  extract_lets s0 n0 s1 n1 s2 n2 s3 n3 s4 n4 s5 s6 s7 s8
  have d0 : n0.toNat < 2 ^ 52 := clearingDigit_lt s0
  have d1 : n1.toNat < 2 ^ 52 := clearingDigit_lt s1
  have d2 : n2.toNat < 2 ^ 52 := clearingDigit_lt s2
  have d3 : n3.toNat < 2 ^ 52 := clearingDigit_lt s3
  have d4 : n4.toNat < 2 ^ 52 := clearingDigit_lt s4
  have c1 : Holds 7 s1 _ := (h1.addWord (clearedCarry s0 n0)).add (holds_product d0 l1)
  have c2 : Holds 8 s2 _ := ((h2.addWord (clearedCarry s1 n1)).add (holds_product d0 l2)).add
    (holds_product d1 l1)
  have c3 : Holds 8 s3 _ := ((h3.addWord (clearedCarry s2 n2)).add (holds_product d1 l2)).add
    (holds_product d2 l1)
  have c4 : Holds 9 s4 _ := (((h4.addWord (clearedCarry s3 n3)).add (holds_product d0 l4)).add
    (holds_product d2 l2)).add (holds_product d3 l1)
  have c5 : Holds 9 s5 _ := (((h5.addWord (clearedCarry s4 n4)).add (holds_product d1 l4)).add
    (holds_product d3 l2)).add (holds_product d4 l1)
  have c6 : Holds 8 s6 _ := ((h6.addWord (s5.shiftRight 52)).add (holds_product d2 l4)).add
    (holds_product d4 l2)
  have c7 : Holds 7 s7 _ := (h7.addWord (s6.shiftRight 52)).add (holds_product d3 l4)
  have c8 : Holds 7 s8 _ := (h8.addWord (s7.shiftRight 52)).add (holds_product d4 l4)
  have e0 : (clearedCarry s0 n0).toNat * 2 ^ 52 = _ + n0.toNat * order.l0.toNat :=
    h0.clearedCarry
  have e1 : (clearedCarry s1 n1).toNat * 2 ^ 52 = _ + n1.toNat * order.l0.toNat :=
    c1.clearedCarry
  have e2 : (clearedCarry s2 n2).toNat * 2 ^ 52 = _ + n2.toNat * order.l0.toNat :=
    c2.clearedCarry
  have e3 : (clearedCarry s3 n3).toNat * 2 ^ 52 = _ + n3.toNat * order.l0.toNat :=
    c3.clearedCarry
  have e4 : (clearedCarry s4 n4).toNat * 2 ^ 52 = _ + n4.toNat * order.l0.toNat :=
    c4.clearedCarry
  have e5 := c5.low_add_carry
  have e6 := c6.low_add_carry
  have e7 := c7.low_add_carry
  have e8 := c8.low_add_carry
  refine ⟨_, ⟨n0, n1, n2, n3, n4⟩, rfl, ?_, ⟨d0, d1, d2, d3, d4⟩, ?_⟩
  · intro hlt
    exact ⟨toNat_and_mask_lt _, toNat_and_mask_lt _, toNat_and_mask_lt _, toNat_and_mask_lt _,
      top_lt hlt⟩
  · simp only [Scalar.toNat, Columns.toNat, groupOrder_eq, radix_pow]
    clear_value n0 n1 n2 n3 n4 s1 s2 s3 s4 s5 s6 s7 s8
    linear_combination e0 + 2 ^ 52 * e1 + (2 ^ 52) ^ 2 * e2 + (2 ^ 52) ^ 3 * e3 +
      (2 ^ 52) ^ 4 * e4 + (2 ^ 52) ^ 5 * e5 + (2 ^ 52) ^ 6 * e6 + (2 ^ 52) ^ 7 * e7 +
      (2 ^ 52) ^ 8 * e8

/-- The constant stands for the fifth power of the limb radix. -/
theorem radix_residue : radix.residue = (((2 ^ 52) ^ 5 : Nat) : ZMod groupOrder) := by
  rw [residue, toNat_radix, radix_pow, ZMod.natCast_mod]

/-- The other constant stands for its square. -/
theorem radixSquare_residue : radixSquare.residue = radix.residue ^ 2 := by
  have hpow : 2 ^ 520 = ((2 ^ 52) ^ 5) ^ 2 := by omega
  rw [residue, toNat_radixSquare, hpow, ZMod.natCast_mod, Nat.cast_pow, ← radix_residue]

/-- The order is odd, so the radix can be divided by. -/
theorem isUnit_radix : IsUnit radix.residue := by
  rw [radix_residue, ZMod.isUnit_iff_coprime]
  exact .pow_left _ (.pow_left _ (by decide))

/-- Columns below the order times `2 ^ 260` are divided by `2 ^ 260`. -/
theorem Columns.Small.reduce_denotes {z : Columns} (hz : z.Small)
    (hlt : z.toNat < groupOrder * (2 ^ 52) ^ 5) :
    ∃ x, z.reduce.Denotes x ∧ x * radix.residue = z.toNat := by
  obtain ⟨r, multiplier, hdef, hlimbs, hmultiplier, hsum⟩ := hz.exists_reduce_eq
  have hbelow := hmultiplier.toNat_lt
  rw [radix_pow] at hbelow
  have horder : groupOrder < 2 ^ 253 := by decide
  have hr : r.toNat < 2 * groupOrder := by
    have hproduct : r.toNat * (2 ^ 52) ^ 5 < 2 * groupOrder * (2 ^ 52) ^ 5 := by
      calc r.toNat * (2 ^ 52) ^ 5 = z.toNat + multiplier.toNat * groupOrder := hsum
        _ < groupOrder * (2 ^ 52) ^ 5 + (2 ^ 52) ^ 5 * groupOrder :=
          Nat.add_lt_add hlt (Nat.mul_lt_mul_of_pos_right hbelow (by decide))
        _ = 2 * groupOrder * (2 ^ 52) ^ 5 := by ring
    exact Nat.lt_of_mul_lt_mul_right hproduct
  refine ⟨r.residue - order.residue, ?_, ?_⟩
  · rw [hdef]
    refine sub_spec (hlimbs (by omega)) (by decide) ?_ ?_
    · rw [toNat_order]
      omega
    · rw [toNat_order]
      omega
  · rw [residue_order, sub_zero, residue, radix_residue, ← Nat.cast_mul, hsum, Nat.cast_add,
      Nat.cast_mul, ZMod.natCast_self, mul_zero, add_zero]

/-- Operands whose product is below the order times `2 ^ 260` are multiplied and divided by
`2 ^ 260`, reduced or not. -/
theorem montgomeryMul_spec (hf : f.Bounded (2 ^ 52)) (hg : g.Bounded (2 ^ 52))
    (hlt : f.toNat * g.toNat < groupOrder * (2 ^ 52) ^ 5) :
    ∃ x, (montgomeryMul f g).Denotes x ∧ x * radix.residue = f.residue * g.residue := by
  obtain ⟨hsmall, hnumber⟩ := mulColumns_small hf hg
  obtain ⟨x, hx, heq⟩ := hsmall.reduce_denotes (hnumber ▸ hlt)
  refine ⟨x, hx, ?_⟩
  rw [heq, hnumber, Nat.cast_mul]
  rfl

/-- One reduced operand is enough. -/
theorem montgomeryMul_denotes {x : ZMod groupOrder} (hf : f.Bounded (2 ^ 52)) (hg : g.Reduced)
    (hx : x * radix.residue = f.residue * g.residue) : (montgomeryMul f g).Denotes x := by
  have hbelow := hf.toNat_lt
  rw [radix_pow] at hbelow
  have hlt : f.toNat * g.toNat < groupOrder * (2 ^ 52) ^ 5 := by
    rw [Nat.mul_comm]
    exact Nat.mul_lt_mul'' hg.2 hbelow
  obtain ⟨y, hy, heq⟩ := montgomeryMul_spec hf hg.1 hlt
  exact hy.of_eq (isUnit_radix.mul_right_cancel (heq.trans hx.symm))

/-- A product with the radix only reduces. -/
theorem montgomeryMul_radix_denotes (hf : f.Bounded (2 ^ 52)) :
    (montgomeryMul f radix).Denotes f.residue :=
  montgomeryMul_denotes hf (by decide) rfl

/-- A product with the square of the radix shifts by the radix. -/
theorem montgomeryMul_radixSquare_denotes (hf : f.Bounded (2 ^ 52)) :
    (montgomeryMul f radixSquare).Denotes (f.residue * radix.residue) :=
  montgomeryMul_denotes hf (by decide) (by rw [radixSquare_residue, pow_two, mul_assoc])

/-- The second product makes up for the division of the first. -/
theorem Denotes.mul {s t : Scalar} {x y : ZMod groupOrder} (hs : s.Denotes x) (ht : t.Denotes y) :
    (s * t).Denotes (x * y) := by
  have hinverse : radix.residue⁻¹ * radix.residue = 1 := ZMod.inv_mul_of_unit _ isUnit_radix
  have hfirst : (montgomeryMul s t).Denotes (x * y * radix.residue⁻¹) :=
    montgomeryMul_denotes hs.reduced.1 ht.reduced
      (by rw [mul_assoc, hinverse, mul_one, hs.residue_eq, ht.residue_eq])
  refine (montgomeryMul_radixSquare_denotes hfirst.reduced.1).of_eq ?_
  rw [hfirst.residue_eq, mul_assoc, hinverse, mul_one]

theorem Denotes.square {s : Scalar} {x : ZMod groupOrder} (hs : s.Denotes x) :
    s.square.Denotes (x ^ 2) := by
  rw [pow_two]
  exact hs.mul hs

end Scalar

end TwistedEdwards
