import TwistedEdwards.Proofs.Exact.Machine
import TwistedEdwards.Proofs.Scalar.Inverse
import TwistedEdwards.Proofs.Scalar.Reading

/-!
# Montgomery products lose nothing

A Montgomery product is written out for a machine.  With limbs below `2 ^ 52` a column never holds
more than eleven products of limbs, which is far below `2 ^ 128` and carries less than a word, so
the product runs to its end on the machine that stops where a number does not fit.  The digit that
clears a column and the differences with a borrow are taken modulo a power of two on purpose, and
are taken over as they are.

How large the product of the operands is decides whether one subtraction of the order is enough.
Everything that takes Montgomery products is written out for any way of taking them, so a product
that refuses operands past that bound tells whether one is ever asked for.

Main statements: `Scalar.montgomeryMulOn_eq`, `Scalar.Agrees.serves` and
`Scalar.montgomeryMul_exact`.
-/

namespace TwistedEdwards

namespace Scalar

open Wide (product)

section Definitions

variable (M : Machine)

/-- A column that takes in one product after the other. -/
def gatherOn (x : Wide) (products : List Wide) : Option Wide := products.foldlM M.addWide x

/-- A column that takes in what the column `s` carries, then products. -/
def carryIntoOn (s x : Wide) (products : List Wide) : Option Wide := do
  gatherOn M (← M.addWord x (← M.shiftRight s 52)) products

/-- A column that takes in what the column `s` carries once it is cleared, then products. -/
def clearIntoOn (s x : Wide) (products : List Wide) : Option Wide := do
  carryIntoOn M (← M.addWide s (product (clearingDigit s) order.l0)) x products

/-- The nine columns of a product; the first and the last are single products. -/
def mulColumnsOn (f g : Scalar) : Option Columns := do
  return {
    z0 := product f.l0 g.l0
    z1 := ← gatherOn M (product f.l0 g.l1) [product f.l1 g.l0]
    z2 := ← gatherOn M (product f.l0 g.l2) [product f.l1 g.l1, product f.l2 g.l0]
    z3 := ← gatherOn M (product f.l0 g.l3) [product f.l1 g.l2, product f.l2 g.l1,
      product f.l3 g.l0]
    z4 := ← gatherOn M (product f.l0 g.l4) [product f.l1 g.l3, product f.l2 g.l2,
      product f.l3 g.l1, product f.l4 g.l0]
    z5 := ← gatherOn M (product f.l1 g.l4) [product f.l2 g.l3, product f.l3 g.l2,
      product f.l4 g.l1]
    z6 := ← gatherOn M (product f.l2 g.l4) [product f.l3 g.l3, product f.l4 g.l2]
    z7 := ← gatherOn M (product f.l3 g.l4) [product f.l4 g.l3]
    z8 := product f.l4 g.l4 }

/-- A sum with its carries, from the lowest limb up. -/
def addCarryOn (f g : Scalar) : Option Scalar := do
  let c0 ← M.add f.l0 g.l0
  let c1 ← M.add (← M.add f.l1 g.l1) (c0 >>> 52)
  let c2 ← M.add (← M.add f.l2 g.l2) (c1 >>> 52)
  let c3 ← M.add (← M.add f.l3 g.l3) (c2 >>> 52)
  let c4 ← M.add (← M.add f.l4 g.l4) (c3 >>> 52)
  return ⟨c0 &&& mask, c1 &&& mask, c2 &&& mask, c3 &&& mask, c4 &&& mask⟩

/-- The limbs wrap on purpose; what is subtracted must not. -/
def subBorrowOn (f g : Scalar) : Option (Scalar × UInt64) := do
  let b0 := f.l0 - g.l0
  let b1 := f.l1 - (← M.add g.l1 (b0 >>> 63))
  let b2 := f.l2 - (← M.add g.l2 (b1 >>> 63))
  let b3 := f.l3 - (← M.add g.l3 (b2 >>> 63))
  let b4 := f.l4 - (← M.add g.l4 (b3 >>> 63))
  return (⟨b0 &&& mask, b1 &&& mask, b2 &&& mask, b3 &&& mask, b4 &&& mask⟩, b4)

/-- A difference, to which the order is added back where it fell below zero. -/
def subOn (f g : Scalar) : Option Scalar := do
  let found ← subBorrowOn M f g
  addCarryOn M found.1 (order.masked (underflowMask found.2))

/-- Clears the five low columns one after the other, carries through the rest and subtracts the
order. -/
def Columns.reduceOn (z : Columns) : Option Scalar := do
  let s0 := z.z0
  let n0 := clearingDigit s0
  let s1 ← clearIntoOn M s0 z.z1 [product n0 order.l1]
  let n1 := clearingDigit s1
  let s2 ← clearIntoOn M s1 z.z2 [product n0 order.l2, product n1 order.l1]
  let n2 := clearingDigit s2
  let s3 ← clearIntoOn M s2 z.z3 [product n1 order.l2, product n2 order.l1]
  let n3 := clearingDigit s3
  let s4 ← clearIntoOn M s3 z.z4 [product n0 order.l4, product n2 order.l2, product n3 order.l1]
  let n4 := clearingDigit s4
  let s5 ← clearIntoOn M s4 z.z5 [product n1 order.l4, product n3 order.l2, product n4 order.l1]
  let s6 ← carryIntoOn M s5 z.z6 [product n2 order.l4, product n4 order.l2]
  let s7 ← carryIntoOn M s6 z.z7 [product n3 order.l4]
  let s8 ← carryIntoOn M s7 z.z8 [product n4 order.l4]
  subOn M ⟨s5.lo &&& mask, s6.lo &&& mask, s7.lo &&& mask, s8.lo &&& mask, ← M.shiftRight s8 52⟩
    order

/-- The columns of the product, reduced. -/
def montgomeryMulOn (f g : Scalar) : Option Scalar := do
  (← mulColumnsOn M f g).reduceOn M

end Definitions

/-- Written out for the machine that wraps, the product is the product, whatever the limbs are. -/
theorem montgomeryMulOn_wrapping (f g : Scalar) :
    montgomeryMulOn .wrapping f g = some (montgomeryMul f g) := rfl

/-- The double word is no more than `k` products of limbs. -/
def AtMost (k : Nat) (x : Wide) : Prop := x.toNat ≤ k * 2 ^ 104

section Laws

variable {M : Machine} (hM : M.Faithful) {a b : UInt64} {s x y : Wide} {j k : Nat}
  {products : List Wide} {f g : Scalar}

/-- A column that holds a known number is within its bound. -/
theorem Holds.atMost {n : Nat} (hx : Holds k x n) : AtMost k x := hx.toNat_eq.trans_le hx.le

/-- A column within a bound holds its own number. -/
theorem AtMost.holds (hx : AtMost k x) : Holds k x x.toNat := ⟨rfl, hx⟩

/-- A bound by fewer products is a bound by more. -/
theorem AtMost.mono (hx : AtMost j x) (h : j ≤ k := by decide) : AtMost k x :=
  hx.trans (Nat.mul_le_mul_right _ h)

theorem atMost_product (ha : a.toNat < 2 ^ 52) (hb : b.toNat < 2 ^ 52) :
    AtMost 1 (product a b) :=
  (holds_product ha hb).atMost

include hM

/-- The bounds of two columns add up, and fifteen products fit a double word. -/
theorem AtMost.addWide_eq (hx : AtMost j x) (hy : AtMost k y) (h : j + k < 16 := by decide) :
    M.addWide x y = some (x + y) ∧ AtMost (j + k) (x + y) := by
  refine ⟨hM.addWide ?_, (hx.holds.add hy.holds h).atMost⟩
  unfold AtMost at hx hy
  omega

/-- The carry of a column fits a word. -/
theorem AtMost.shiftRight_eq (hx : AtMost k x) (h : k < 16 := by decide) :
    M.shiftRight x 52 = some (x.shiftRight 52) := by
  refine hM.shiftRight (by decide) (by decide) ?_
  change x.toNat / 2 ^ 52 < 2 ^ 64
  unfold AtMost at hx
  omega

theorem AtMost.addWord_eq (hx : AtMost k x) (c : UInt64) (h : k + 1 < 16 := by decide) :
    M.addWord x c = some (x.addWord c) ∧ AtMost (k + 1) (x.addWord c) := by
  have hc := c.toNat_lt
  refine ⟨hM.addWord ?_, (hx.holds.addWord c h).atMost⟩
  unfold AtMost at hx
  omega

/-- Products are taken in without a loss while there are fewer than sixteen in all. -/
theorem AtMost.gatherOn_eq (hx : AtMost k x) (hproducts : products.Forall (AtMost 1))
    (h : k + products.length < 16) :
    gatherOn M x products = some (products.foldl (· + ·) x) ∧
      AtMost (k + products.length) (products.foldl (· + ·) x) := by
  induction products generalizing x k with
  | nil => exact ⟨rfl, hx⟩
  | cons p rest ih =>
    obtain ⟨hp, hrest⟩ := (List.forall_cons _ _ _).mp hproducts
    rw [List.length_cons] at h ⊢
    obtain ⟨hadd, hbound⟩ := hx.addWide_eq hM hp (by omega)
    obtain ⟨hrun, hall⟩ := ih hbound hrest (by omega)
    refine ⟨?_, hall.mono (by omega)⟩
    rw [gatherOn, List.foldlM_cons, hadd]
    exact hrun

/-- A column of a product takes in up to three products, and what the column before it carries. -/
theorem AtMost.carryIntoOn_eq (hs : AtMost 11 s) (hx : AtMost 5 x)
    (hproducts : products.Forall (AtMost 1)) (h : products.length ≤ 3) :
    carryIntoOn M s x products = some (products.foldl (· + ·) (x.addWord (s.shiftRight 52))) ∧
      AtMost 10 (products.foldl (· + ·) (x.addWord (s.shiftRight 52))) := by
  obtain ⟨hword, hbound⟩ := hx.addWord_eq hM (s.shiftRight 52)
  obtain ⟨hrun, hall⟩ := hbound.gatherOn_eq hM hproducts (by omega)
  refine ⟨?_, hall.mono (by omega)⟩
  rw [carryIntoOn, hs.shiftRight_eq hM, Option.bind_eq_bind, Option.bind_some, hword]
  exact hrun

/-- A column that takes in the carry of a cleared one and three products is within the bound that
its own carry needs. -/
theorem AtMost.clearIntoOn_eq (hs : AtMost 10 s) (hx : AtMost 5 x)
    (hproducts : products.Forall (AtMost 1)) (h : products.length ≤ 3) :
    clearIntoOn M s x products =
        some (products.foldl (· + ·) (x.addWord (clearedCarry s (clearingDigit s)))) ∧
      AtMost 10 (products.foldl (· + ·) (x.addWord (clearedCarry s (clearingDigit s)))) := by
  have hmultiple : AtMost 1 (product (clearingDigit s) order.l0) :=
    atMost_product (clearingDigit_lt s) (by decide)
  obtain ⟨hadd, hcleared⟩ := hs.addWide_eq hM hmultiple
  obtain ⟨hrun, hbound⟩ := hcleared.carryIntoOn_eq hM hx hproducts h
  refine ⟨?_, hbound⟩
  rw [clearIntoOn, hadd]
  exact hrun

/-- The columns of a product of limbs below the radix. -/
theorem mulColumnsOn_eq (hf : f.Bounded (2 ^ 52)) (hg : g.Bounded (2 ^ 52)) :
    mulColumnsOn M f g = some (mulColumns f g) := by
  obtain ⟨f0, f1, f2, f3, f4⟩ := hf
  obtain ⟨g0, g1, g2, g3, g4⟩ := hg
  have hcolumn : ∀ {x : Wide} (products : List Wide), AtMost 1 x → products.Forall (AtMost 1) →
      products.length ≤ 4 → gatherOn M x products = some (products.foldl (· + ·) x) :=
    fun _ hx hproducts hlength => (hx.gatherOn_eq hM hproducts (by omega)).1
  have e1 := hcolumn [product f.l1 g.l0] (atMost_product f0 g1) (atMost_product f1 g0) (by simp)
  have e2 := hcolumn [product f.l1 g.l1, product f.l2 g.l0] (atMost_product f0 g2)
    ⟨atMost_product f1 g1, atMost_product f2 g0⟩ (by simp)
  have e3 := hcolumn [product f.l1 g.l2, product f.l2 g.l1, product f.l3 g.l0]
    (atMost_product f0 g3)
    ⟨atMost_product f1 g2, atMost_product f2 g1, atMost_product f3 g0⟩ (by simp)
  have e4 := hcolumn [product f.l1 g.l3, product f.l2 g.l2, product f.l3 g.l1,
    product f.l4 g.l0] (atMost_product f0 g4)
    ⟨atMost_product f1 g3, atMost_product f2 g2, atMost_product f3 g1, atMost_product f4 g0⟩
    (by simp)
  have e5 := hcolumn [product f.l2 g.l3, product f.l3 g.l2, product f.l4 g.l1]
    (atMost_product f1 g4) ⟨atMost_product f2 g3, atMost_product f3 g2, atMost_product f4 g1⟩
    (by simp)
  have e6 := hcolumn [product f.l3 g.l3, product f.l4 g.l2] (atMost_product f2 g4)
    ⟨atMost_product f3 g3, atMost_product f4 g2⟩ (by simp)
  have e7 := hcolumn [product f.l4 g.l3] (atMost_product f3 g4) (atMost_product f4 g3) (by simp)
  simp only [mulColumnsOn, e1, e2, e3, e4, e5, e6, e7, Option.bind_eq_bind, Option.bind_some]
  rfl

/-- Limbs of 52 bits have room for the carries of a sum. -/
theorem addCarryOn_eq (hf : f.Bounded (2 ^ 52)) (hg : g.Bounded (2 ^ 52)) :
    addCarryOn M f g = some (addCarry f g) := by
  obtain ⟨f0, f1, f2, f3, f4⟩ := hf
  obtain ⟨g0, g1, g2, g3, g4⟩ := hg
  have hlimb : ∀ {a b : UInt64} (c : UInt64), a.toNat < 2 ^ 52 → b.toNat < 2 ^ 52 →
      M.add a b = some (a + b) ∧ M.add (a + b) (c >>> 52) = some (a + b + (c >>> 52)) := by
    intro a b c ha hb
    have hc := c.toNat_lt
    refine ⟨hM.add (by omega), hM.add ?_⟩
    rw [UInt64.toNat_add, toNat_shiftRight_52]
    omega
  obtain ⟨e0, -⟩ := hlimb 0 f0 g0
  obtain ⟨e1, c1⟩ := hlimb (f.l0 + g.l0) f1 g1
  obtain ⟨e2, c2⟩ := hlimb (f.l1 + g.l1 + ((f.l0 + g.l0) >>> 52)) f2 g2
  obtain ⟨e3, c3⟩ := hlimb (f.l2 + g.l2 + ((f.l1 + g.l1 + ((f.l0 + g.l0) >>> 52)) >>> 52)) f3 g3
  obtain ⟨e4, c4⟩ := hlimb (f.l3 + g.l3 +
    ((f.l2 + g.l2 + ((f.l1 + g.l1 + ((f.l0 + g.l0) >>> 52)) >>> 52)) >>> 52)) f4 g4
  simp only [addCarryOn, e0, e1, c1, e2, c2, e3, c3, e4, c4, Option.bind_eq_bind,
    Option.bind_some]
  rfl

/-- What is subtracted is a limb and a borrow. -/
theorem subBorrowOn_eq (f : Scalar) (hg : g.Bounded (2 ^ 52)) :
    subBorrowOn M f g = some (subBorrow f g) := by
  obtain ⟨-, g1, g2, g3, g4⟩ := hg
  have hlimb : ∀ {b : UInt64} (c : UInt64), b.toNat < 2 ^ 52 →
      M.add b (c >>> 63) = some (b + (c >>> 63)) := by
    intro b c hb
    have hc := c.toNat_lt
    have hborrow : (c >>> 63).toNat = c.toNat / 2 ^ 63 := Bits.toNat_shiftRight (by decide)
    exact hM.add (by omega)
  simp only [subBorrowOn, hlimb _ g1, hlimb _ g2, hlimb _ g3, hlimb _ g4, Option.bind_eq_bind,
    Option.bind_some]
  rfl

/-- What is subtracted has limbs of 52 bits, so no borrow is lost; the other operand is free. -/
theorem subOn_eq (f : Scalar) (hg : g.Bounded (2 ^ 52)) : subOn M f g = some (f - g) := by
  have hlimbs : (subBorrow f g).1.Bounded (2 ^ 52) := ⟨toNat_and_mask_lt _, toNat_and_mask_lt _,
    toNat_and_mask_lt _, toNat_and_mask_lt _, toNat_and_mask_lt _⟩
  have hback : (order.masked (underflowMask (subBorrow f g).2)).Bounded (2 ^ 52) := by
    rw [masked_underflowMask]
    split <;> decide
  rw [subOn, subBorrowOn_eq hM f hg]
  exact addCarryOn_eq hM hlimbs hback

/-- The reduction loses nothing, column by column. -/
theorem Columns.Small.reduceOn_eq {z : Columns} (hz : z.Small) :
    z.reduceOn M = some z.reduce := by
  obtain ⟨h0, h1, h2, h3, h4, h5, h6, h7, h8⟩ := hz
  have l1 : order.l1.toNat < 2 ^ 52 := by decide
  have l2 : order.l2.toNat < 2 ^ 52 := by decide
  have l4 : order.l4.toNat < 2 ^ 52 := by decide
  have multiple : ∀ {l : UInt64} (s : Wide), l.toNat < 2 ^ 52 →
      AtMost 1 (product (clearingDigit s) l) := fun s hl => atMost_product (clearingDigit_lt s) hl
  unfold Columns.reduce
  extract_lets s0 n0 s1 n1 s2 n2 s3 n3 s4 n4 s5 s6 s7 s8
  have b0 : AtMost 10 s0 := h0.atMost.mono
  obtain ⟨e1, b1⟩ : clearIntoOn M s0 z.z1 [product n0 order.l1] = some s1 ∧ AtMost 10 s1 :=
    b0.clearIntoOn_eq hM h1.atMost (multiple s0 l1) (by simp)
  obtain ⟨e2, b2⟩ : clearIntoOn M s1 z.z2 [product n0 order.l2, product n1 order.l1] = some s2 ∧
      AtMost 10 s2 :=
    b1.clearIntoOn_eq hM h2.atMost ⟨multiple s0 l2, multiple s1 l1⟩ (by simp)
  obtain ⟨e3, b3⟩ : clearIntoOn M s2 z.z3 [product n1 order.l2, product n2 order.l1] = some s3 ∧
      AtMost 10 s3 :=
    b2.clearIntoOn_eq hM h3.atMost ⟨multiple s1 l2, multiple s2 l1⟩ (by simp)
  obtain ⟨e4, b4⟩ : clearIntoOn M s3 z.z4
      [product n0 order.l4, product n2 order.l2, product n3 order.l1] = some s4 ∧ AtMost 10 s4 :=
    b3.clearIntoOn_eq hM h4.atMost ⟨multiple s0 l4, multiple s2 l2, multiple s3 l1⟩ (by simp)
  obtain ⟨e5, b5⟩ : clearIntoOn M s4 z.z5
      [product n1 order.l4, product n3 order.l2, product n4 order.l1] = some s5 ∧ AtMost 10 s5 :=
    b4.clearIntoOn_eq hM h5.atMost ⟨multiple s1 l4, multiple s3 l2, multiple s4 l1⟩ (by simp)
  obtain ⟨e6, b6⟩ : carryIntoOn M s5 z.z6 [product n2 order.l4, product n4 order.l2] = some s6 ∧
      AtMost 10 s6 :=
    b5.mono.carryIntoOn_eq hM h6.atMost ⟨multiple s2 l4, multiple s4 l2⟩ (by simp)
  obtain ⟨e7, b7⟩ : carryIntoOn M s6 z.z7 [product n3 order.l4] = some s7 ∧ AtMost 10 s7 :=
    b6.mono.carryIntoOn_eq hM h7.atMost (multiple s3 l4) (by simp)
  obtain ⟨e8, b8⟩ : carryIntoOn M s7 z.z8 [product n4 order.l4] = some s8 ∧ AtMost 10 s8 :=
    b7.mono.carryIntoOn_eq hM h8.atMost (multiple s4 l4) (by simp)
  have etop := b8.shiftRight_eq hM
  unfold Columns.reduceOn
  refine Option.bind_eq_some_iff.mpr ⟨s1, e1, ?_⟩
  refine Option.bind_eq_some_iff.mpr ⟨s2, e2, ?_⟩
  refine Option.bind_eq_some_iff.mpr ⟨s3, e3, ?_⟩
  refine Option.bind_eq_some_iff.mpr ⟨s4, e4, ?_⟩
  refine Option.bind_eq_some_iff.mpr ⟨s5, e5, ?_⟩
  refine Option.bind_eq_some_iff.mpr ⟨s6, e6, ?_⟩
  refine Option.bind_eq_some_iff.mpr ⟨s7, e7, ?_⟩
  refine Option.bind_eq_some_iff.mpr ⟨s8, e8, ?_⟩
  refine Option.bind_eq_some_iff.mpr ⟨s8.shiftRight 52, etop, ?_⟩
  exact subOn_eq hM _ (by decide)

/-- Limbs of 52 bits are multiplied and reduced without a loss, whatever the product is. -/
theorem montgomeryMulOn_eq (hf : f.Bounded (2 ^ 52)) (hg : g.Bounded (2 ^ 52)) :
    montgomeryMulOn M f g = some (montgomeryMul f g) := by
  rw [montgomeryMulOn, mulColumnsOn_eq hM hf hg]
  exact (mulColumns_small hf hg).1.reduceOn_eq hM

end Laws

/-! Who takes Montgomery products, and of what. -/

/-- The operands that a Montgomery product is for, reduced or not. -/
def Admitted (f g : Scalar) : Prop :=
  f.Bounded (2 ^ 52) ∧ g.Bounded (2 ^ 52) ∧ f.toNat * g.toNat < groupOrder * 2 ^ 260

instance (f g : Scalar) : Decidable (Admitted f g) := by
  unfold Admitted; infer_instance

/-- One reduced operand is enough. -/
theorem Reduced.admitted {f g : Scalar} (hg : g.Reduced) (hf : f.Bounded (2 ^ 52)) :
    Admitted f g := by
  refine ⟨hf, hg.1, ?_⟩
  rw [Nat.mul_comm]
  exact Nat.mul_lt_mul'' hg.2 hf.toNat_lt

/-- A product of admitted operands is reduced. -/
theorem Admitted.reduced {f g : Scalar} (h : Admitted f g) : (montgomeryMul f g).Reduced := by
  obtain ⟨hf, hg, hlt⟩ := h
  rw [radix_pow] at hlt
  obtain ⟨x, hx, -⟩ := montgomeryMul_spec hf hg hlt
  exact hx.reduced

/-- A product of admitted operands is divided by `2 ^ 260`. -/
theorem Admitted.toNat_mod {f g : Scalar} (h : Admitted f g) :
    (montgomeryMul f g).toNat * 2 ^ 260 % groupOrder = f.toNat * g.toNat % groupOrder := by
  obtain ⟨hf, hg, hlt⟩ := h
  rw [radix_pow] at hlt ⊢
  obtain ⟨x, hx, heq⟩ := montgomeryMul_spec hf hg hlt
  rw [← hx.residue_eq, radix_residue, residue, residue, residue, ← Nat.cast_mul, ← Nat.cast_mul,
    ZMod.natCast_eq_natCast_iff'] at heq
  exact heq

section Callers

variable (P : Scalar → Scalar → Option Scalar)

/-- A product of scalars: the product by `P`, and one more that undoes its division. -/
def mulVia (s t : Scalar) : Option Scalar := do
  P (← P s t) radixSquare

/-- A string of 32 bytes, reduced by a product with `2 ^ 260`. -/
def ofOctetsVia (bs : Octets 32) : Option Scalar := P (unpack (Word256.ofOctets bs)) radix

/-- A word, reduced in the same way. -/
def ofWordVia (w : UInt64) : Option Scalar := P (unpack ⟨w, 0, 0, 0⟩) radix

/-- The two parts of a string of 64 bytes, reduced by a product each. -/
def ofWideVia (bs : Octets 64) : Option Scalar := do
  let low ← P (unpackLow (halves bs).1 (halves bs).2) radix
  let high ← P (unpackHigh (halves bs).2) radixSquare
  return high + low

/-- One bit of an exponent: a square, and a product where the bit is set. -/
def powerStepVia (base acc : Scalar) (bit : Bool) : Option Scalar := do
  let squared ← P acc acc
  if bit then P squared base else some squared

/-- The `n` low bits of an exponent, from the highest down. -/
def powerBitsVia (base : Scalar) (exponent : Octets 32) (n : Nat) : Option Scalar :=
  Machine.descendOn (fun i acc => powerStepVia P base acc (exponent.bit i)) n radix

/-- The power of the inverse, between an entry product and an exit product. -/
def powerVia (s : Scalar) : Option Scalar := do
  let base ← P s radixSquare
  P (← powerBitsVia P base inverseExponent 253) one

/-- `P` gives the Montgomery product wherever the operands are admitted. -/
def Agrees : Prop := ∀ {f g : Scalar}, Admitted f g → P f g = some (montgomeryMul f g)

/-- Taking its Montgomery products by `P`, every operation on scalars gives what it gives. -/
structure Serves : Prop where
  mul : ∀ {s t : Scalar}, s.Reduced → t.Reduced → mulVia P s t = some (s * t)
  power : ∀ {s : Scalar}, s.Reduced → powerVia P s = some s.power
  octets : ∀ bs : Octets 32, ofOctetsVia P bs = some (ofOctets bs)
  word : ∀ w : UInt64, ofWordVia P w = some (ofWord w)
  wide : ∀ bs : Octets 64, ofWideVia P bs = some (ofWide bs)

end Callers

/-- The Montgomery product, refused past what it is for. -/
def refusing (f g : Scalar) : Option Scalar :=
  if Admitted f g then some (montgomeryMul f g) else none

/-- Refusing other operands changes nothing for those that are admitted. -/
theorem refusing_agrees : Agrees refusing := fun h => if_pos h

/-- The product on a machine asks for the bounds of the limbs alone. -/
theorem montgomeryMulOn_agrees {M : Machine} (hM : M.Faithful) : Agrees (montgomeryMulOn M) :=
  fun h => montgomeryMulOn_eq hM h.1 h.2.1

namespace Agrees

variable {P : Scalar → Scalar → Option Scalar} (hP : Agrees P) {base acc s t f g : Scalar}
include hP

/-- A product with a reduced operand, and what the next product needs of it. -/
theorem reduced_eq (hf : f.Bounded (2 ^ 52)) (hg : g.Reduced) :
    P f g = some (montgomeryMul f g) ∧ (montgomeryMul f g).Reduced :=
  ⟨hP (hg.admitted hf), (hg.admitted hf).reduced⟩

/-- The first product is reduced, so it is an operand of the second. -/
theorem mulVia_eq (hs : s.Reduced) (ht : t.Reduced) : mulVia P s t = some (s * t) := by
  obtain ⟨hfirst, hreduced⟩ := hP.reduced_eq hs.1 ht
  obtain ⟨hsecond, -⟩ := hP.reduced_eq (g := radixSquare) hreduced.1 (by decide)
  rw [mulVia, hfirst]
  exact hsecond

theorem powerStepVia_eq (hbase : base.Reduced) (hacc : acc.Reduced) (bit : Bool) :
    powerStepVia P base acc bit = some (powerStep base acc bit) ∧
      (powerStep base acc bit).Reduced := by
  obtain ⟨hsquare, hsquared⟩ := hP.reduced_eq hacc.1 hacc
  obtain ⟨hmul, hproduct⟩ := hP.reduced_eq hsquared.1 hbase
  rw [powerStepVia, hsquare]
  cases bit with
  | false => exact ⟨rfl, hsquared⟩
  | true => exact ⟨hmul, hproduct⟩

/-- Along the whole exponent, every power so far is reduced. -/
theorem powerBitsVia_eq (hbase : base.Reduced) (exponent : Octets 32) (n : Nat) :
    powerBitsVia P base exponent n = some (powerBits base exponent n) ∧
      (powerBits base exponent n).Reduced := by
  have hstart : radix.Reduced := by decide
  have hstep : ∀ i acc, Reduced acc → powerStepVia P base acc (exponent.bit i) =
      some (powerStep base acc (exponent.bit i)) ∧
        (powerStep base acc (exponent.bit i)).Reduced :=
    fun i _ hacc => hP.powerStepVia_eq hbase hacc (exponent.bit i)
  exact Machine.descendOn_eq hstep hstart n

/-- Entry, loop and exit take products of reduced operands. -/
theorem powerVia_eq (hs : s.Reduced) : powerVia P s = some s.power := by
  obtain ⟨hbase, hreduced⟩ := hP.reduced_eq (g := radixSquare) hs.1 (by decide)
  obtain ⟨hbits, hpower⟩ := hP.powerBitsVia_eq hreduced inverseExponent 253
  obtain ⟨hlast, -⟩ := hP.reduced_eq hpower.1 (g := one) (by decide)
  rw [powerVia, hbase, Option.bind_eq_bind, Option.bind_some, hbits]
  exact hlast

/-- Both parts of the string have limbs of 52 bits, and what they are multiplied with is reduced. -/
theorem ofWideVia_eq (bs : Octets 64) : ofWideVia P bs = some (ofWide bs) := by
  obtain ⟨-, blow⟩ := toNat_unpackLow (halves bs).1 (halves bs).2
  obtain ⟨-, bhigh⟩ := toNat_unpackHigh (halves bs).2
  obtain ⟨hlow, -⟩ := hP.reduced_eq (g := radix) blow (by decide)
  obtain ⟨hhigh, -⟩ := hP.reduced_eq (g := radixSquare) bhigh (by decide)
  rw [ofWideVia, hlow, Option.bind_eq_bind, Option.bind_some, hhigh]
  rfl

/-- Nothing asks for a Montgomery product of other than admitted operands. -/
theorem serves : Serves P where
  mul := hP.mulVia_eq
  power := hP.powerVia_eq
  octets bs := (hP.reduced_eq (toNat_unpack (Word256.ofOctets bs)).2 (by decide)).1
  word w := (hP.reduced_eq (toNat_unpack ⟨w, 0, 0, 0⟩).2 (by decide)).1
  wide := hP.ofWideVia_eq

end Agrees

variable {f g : Scalar}

/-- **Montgomery products are exact.**  Operands with limbs below `2 ^ 52` and a product below the
order times `2 ^ 260`, reduced or not, are multiplied and divided by `2 ^ 260` without a loss, and
the result is reduced.  Every operation that takes such products has operands like these, so it
gives what it gives where other operands are refused, and on the machine that stops. -/
theorem montgomeryMul_exact (hf : f.Bounded (2 ^ 52)) (hg : g.Bounded (2 ^ 52))
    (hlt : f.toNat * g.toNat < groupOrder * 2 ^ 260) :
    montgomeryMulOn .wrapping f g = some (montgomeryMul f g) ∧
      montgomeryMulOn .stopping f g = some (montgomeryMul f g) ∧
      (montgomeryMul f g).Bounded (2 ^ 52) ∧ (montgomeryMul f g).toNat < groupOrder ∧
      (montgomeryMul f g).toNat * 2 ^ 260 % groupOrder = f.toNat * g.toNat % groupOrder ∧
      Serves refusing ∧ Serves (montgomeryMulOn .stopping) := by
  have hadmitted : Admitted f g := ⟨hf, hg, hlt⟩
  obtain ⟨hlimbs, hless⟩ := hadmitted.reduced
  exact ⟨montgomeryMulOn_wrapping f g, montgomeryMulOn_eq Machine.stopping_faithful hf hg, hlimbs,
    hless, hadmitted.toNat_mod, refusing_agrees.serves,
    Agrees.serves (montgomeryMulOn_agrees Machine.stopping_faithful)⟩

/-- The widest limbs times one less than the order: as large as a product can be with a reduced
operand. -/
theorem montgomeryMul_exact_widest :
    let widest : Scalar := ⟨mask, mask, mask, mask, mask⟩
    let last : Scalar := { order with l0 := order.l0 - 1 }
    widest.Bounded (2 ^ 52) ∧ last.Bounded (2 ^ 52) ∧
      widest.toNat * last.toNat < groupOrder * 2 ^ 260 ∧
      montgomeryMulOn .stopping widest last = some (montgomeryMul widest last) ∧
      (montgomeryMul widest last).toNat < groupOrder ∧
      (montgomeryMul widest last).toNat * 2 ^ 260 % groupOrder =
        widest.toNat * last.toNat % groupOrder := by
  intro widest last
  have hwidest : widest.Bounded (2 ^ 52) := by decide
  have hlast : last.Bounded (2 ^ 52) := by decide
  have hlt : widest.toNat * last.toNat < groupOrder * 2 ^ 260 := by decide +kernel
  obtain ⟨-, hexact, -, hless, hmod, -⟩ := montgomeryMul_exact hwidest hlast hlt
  exact ⟨hwidest, hlast, hlt, hexact, hless, hmod⟩

end Scalar

end TwistedEdwards
