import TwistedEdwards.Proofs.Exact.Machine
import TwistedEdwards.Proofs.Field.Canonical
import TwistedEdwards.Proofs.Field.Product

/-!
# Field arithmetic on a machine

Every operation on limbs is written out for a machine, and on a faithful one it gives
what the operation gives, as long as the limbs that go in leave the room that it needs:
`2 ^ 54` for factors and minuends, four primes for subtrahends, `2 ^ 64 - 2 ^ 13` for the
canonical limbs.

Shifts of one word, masks and the comparison of limbs lose nothing by nature and are
taken over as they are.

Main statements: `FieldElement.addOn_eq`, `FieldElement.subOn_eq`,
`FieldElement.mulOn_eq`, `FieldElement.squareOn_eq` and `FieldElement.canonicalOn_eq`.
-/

namespace TwistedEdwards

namespace FieldElement

open Wide (product)

section Definitions

variable (M : Machine)

/-- Five sums of limbs, each in its word. -/
def addOn (f g : FieldElement) : Option FieldElement := do
  return ⟨← M.add f.l0 g.l0, ← M.add f.l1 g.l1, ← M.add f.l2 g.l2, ← M.add f.l3 g.l3,
    ← M.add f.l4 g.l4⟩

/-- Every limb gives what it has above 51 bits to the next, the top one nineteen times to the
lowest. -/
def carryRoundOn (f : FieldElement) : Option FieldElement := do
  let h1 ← M.add f.l1 (f.l0 >>> 51)
  let h2 ← M.add f.l2 (h1 >>> 51)
  let h3 ← M.add f.l3 (h2 >>> 51)
  let h4 ← M.add f.l4 (h3 >>> 51)
  let folded ← M.mul (h4 >>> 51) 19
  return ⟨← M.add (f.l0 &&& mask) folded, h1 &&& mask, h2 &&& mask, h3 &&& mask, h4 &&& mask⟩

/-- The lowest limb gives once more. -/
def carryLowOn (f : FieldElement) : Option FieldElement := do
  return ⟨f.l0 &&& mask, ← M.add f.l1 (f.l0 >>> 51), f.l2, f.l3, f.l4⟩

/-- A round and the lowest limb again. -/
def carryOn (f : FieldElement) : Option FieldElement := do
  carryLowOn M (← carryRoundOn M f)

/-- One limb of a difference, lifted by a limb `c` of four primes. -/
def liftedOn (a c b : UInt64) : Option UInt64 := do
  M.sub (← M.add a c) b

/-- Each limb is lifted by that of a multiple of the prime, so that nothing goes below zero. -/
def subOn (f g : FieldElement) : Option FieldElement := do
  let l0 ← liftedOn M f.l0 fourPrimes.l0 g.l0
  let l1 ← liftedOn M f.l1 fourPrimes.l1 g.l1
  let l2 ← liftedOn M f.l2 fourPrimes.l2 g.l2
  let l3 ← liftedOn M f.l3 fourPrimes.l3 g.l3
  let l4 ← liftedOn M f.l4 fourPrimes.l4 g.l4
  carryRoundOn M ⟨l0, l1, l2, l3, l4⟩

/-- The negative is lifted in the same way from zero. -/
def negOn (f : FieldElement) : Option FieldElement := do
  let l0 ← M.sub fourPrimes.l0 f.l0
  let l1 ← M.sub fourPrimes.l1 f.l1
  let l2 ← M.sub fourPrimes.l2 f.l2
  let l3 ← M.sub fourPrimes.l3 f.l3
  let l4 ← M.sub fourPrimes.l4 f.l4
  carryRoundOn M ⟨l0, l1, l2, l3, l4⟩

/-- The negative is computed whether it is taken or not. -/
def negateIfOn (f : FieldElement) (bit : Bool) : Option FieldElement := do
  return f.select (← negOn M f) bit

/-- The carries of five columns, from the lowest up. -/
def Columns.carryOn (h : Columns) : Option FieldElement := do
  let h1 ← M.addWord h.c1 (← M.shiftRight h.c0 51)
  let h2 ← M.addWord h.c2 (← M.shiftRight h1 51)
  let h3 ← M.addWord h.c3 (← M.shiftRight h2 51)
  let h4 ← M.addWord h.c4 (← M.shiftRight h3 51)
  let folded ← M.mul (← M.shiftRight h4 51) 19
  carryLowOn M
    ⟨← M.add (h.c0.lo &&& mask) folded, h1.lo &&& mask, h2.lo &&& mask, h3.lo &&& mask,
      h4.lo &&& mask⟩

/-- A column of three products. -/
def threeOn (x y z : Wide) : Option Wide := do
  M.addWide (← M.addWide x y) z

/-- A column of five products. -/
def fiveOn (x y z v w : Wide) : Option Wide := do
  M.addWide (← M.addWide (← threeOn M x y z) v) w

/-- The columns of a product; the factors of those that wrap around are scaled by nineteen. -/
def mulColumnsOn (f g : FieldElement) : Option Columns := do
  let g1 ← M.mul 19 g.l1
  let g2 ← M.mul 19 g.l2
  let g3 ← M.mul 19 g.l3
  let g4 ← M.mul 19 g.l4
  return {
    c0 := ← fiveOn M (product f.l0 g.l0) (product f.l1 g4) (product f.l2 g3) (product f.l3 g2)
      (product f.l4 g1)
    c1 := ← fiveOn M (product f.l0 g.l1) (product f.l1 g.l0) (product f.l2 g4) (product f.l3 g3)
      (product f.l4 g2)
    c2 := ← fiveOn M (product f.l0 g.l2) (product f.l1 g.l1) (product f.l2 g.l0)
      (product f.l3 g4) (product f.l4 g3)
    c3 := ← fiveOn M (product f.l0 g.l3) (product f.l1 g.l2) (product f.l2 g.l1)
      (product f.l3 g.l0) (product f.l4 g4)
    c4 := ← fiveOn M (product f.l0 g.l4) (product f.l1 g.l3) (product f.l2 g.l2)
      (product f.l3 g.l1) (product f.l4 g.l0) }

/-- The columns and their carries. -/
def mulOn (f g : FieldElement) : Option FieldElement := do
  (← mulColumnsOn M f g).carryOn M

/-- The columns of a square, with the mixed products taken twice. -/
def squareColumnsOn (f : FieldElement) : Option Columns := do
  let d0 ← M.mul 2 f.l0
  let d1 ← M.mul 2 f.l1
  let d3 ← M.mul 2 f.l3
  let w1 ← M.mul 38 f.l1
  let n2 ← M.mul 19 f.l2
  let w2 ← M.mul 38 f.l2
  let n3 ← M.mul 19 f.l3
  let w3 ← M.mul 38 f.l3
  let n4 ← M.mul 19 f.l4
  return {
    c0 := ← threeOn M (product f.l0 f.l0) (product w1 f.l4) (product n2 d3)
    c1 := ← threeOn M (product d0 f.l1) (product w2 f.l4) (product n3 f.l3)
    c2 := ← threeOn M (product d0 f.l2) (product f.l1 f.l1) (product w3 f.l4)
    c3 := ← threeOn M (product d0 f.l3) (product d1 f.l2) (product n4 f.l4)
    c4 := ← threeOn M (product d0 f.l4) (product d1 f.l3) (product f.l2 f.l2) }

/-- The columns of a square and their carries. -/
def squareOn (f : FieldElement) : Option FieldElement := do
  (← squareColumnsOn M f).carryOn M

/-- Twice the square, limb by limb after the carries. -/
def doubleSquareOn (f : FieldElement) : Option FieldElement := do
  let s ← squareOn M f
  return ⟨← M.mul 2 s.l0, ← M.mul 2 s.l1, ← M.mul 2 s.l2, ← M.mul 2 s.l3, ← M.mul 2 s.l4⟩

/-- What adding nineteen carries out of the top limb. -/
def excessOn (f : FieldElement) : Option UInt64 := do
  let q ← M.add f.l0 19
  let q ← M.add f.l1 (q >>> 51)
  let q ← M.add f.l2 (q >>> 51)
  let q ← M.add f.l3 (q >>> 51)
  let q ← M.add f.l4 (q >>> 51)
  return q >>> 51

/-- A round that loses what the top limb would give. -/
def carryDropOn (f : FieldElement) : Option FieldElement := do
  let h1 ← M.add f.l1 (f.l0 >>> 51)
  let h2 ← M.add f.l2 (h1 >>> 51)
  let h3 ← M.add f.l3 (h2 >>> 51)
  let h4 ← M.add f.l4 (h3 >>> 51)
  return ⟨f.l0 &&& mask, h1 &&& mask, h2 &&& mask, h3 &&& mask, h4 &&& mask⟩

/-- Two carries, the excess, and the round that drops the multiple of the prime. -/
def canonicalOn (f : FieldElement) : Option FieldElement := do
  let t ← carryOn M (← carryOn M f)
  let nineteens ← M.mul 19 (← excessOn M t)
  carryDropOn M ⟨← M.add t.l0 nineteens, t.l1, t.l2, t.l3, t.l4⟩

/-- The canonical limbs, packed and written. -/
def toOctetsOn (f : FieldElement) : Option (Octets 32) := do
  return (← canonicalOn M f).pack.toOctets

/-- Whether a byte of the canonical string is set. -/
def isNonzeroOn (f : FieldElement) : Option Bool := do
  return Bits.nonzero (← toOctetsOn M f).joined.toUInt64

/-- The lowest bit of the canonical string. -/
def isNegativeOn (f : FieldElement) : Option Bool := do
  return (← toOctetsOn M f).lowBit

/-- Both strings are written before they are compared. -/
def sameOn (f g : FieldElement) : Option Bool := do
  let bytesF ← toOctetsOn M f
  let bytesG ← toOctetsOn M g
  return !Bits.nonzero (bytesF.difference bytesG).toUInt64

end Definitions

/-! What an operation leaves behind, as a bound on the limbs alone. -/

section Bounds

variable {b c : Nat} {f g : FieldElement}

/-- A difference is carried, whatever the bounds of the operands were. -/
theorem Bounded.sub (hf : f.Bounded b) (hg : g.Bounded c) (hb : b ≤ 2 ^ 54 := by decide)
    (hc : c ≤ 2 ^ 53 - 75 := by decide) : (f - g).Bounded (2 ^ 51 + 2 ^ 9) :=
  (hf.denotes.sub hg.denotes hb hc).bounded

theorem Bounded.neg (hf : f.Bounded b) (hb : b ≤ 2 ^ 53 - 75 := by decide) :
    (-f).Bounded (2 ^ 51 + 2 ^ 9) :=
  (hf.denotes.neg hb).bounded

theorem Bounded.mul (hf : f.Bounded b) (hg : g.Bounded c) (hb : b ≤ 2 ^ 54 := by decide)
    (hc : c ≤ 2 ^ 54 := by decide) : (f * g).Bounded (2 ^ 51 + 2 ^ 13) :=
  (hf.denotes.mul hg.denotes hb hc).bounded

theorem Bounded.square (hf : f.Bounded b) (hb : b ≤ 2 ^ 54 := by decide) :
    f.square.Bounded (2 ^ 51 + 2 ^ 13) :=
  (hf.denotes.square hb).bounded

/-- Twice a carried square is not carried again. -/
theorem Bounded.doubleSquare (hf : f.Bounded b) (hb : b ≤ 2 ^ 54 := by decide) :
    f.doubleSquare.Bounded (2 ^ 52 + 2 ^ 14) :=
  (hf.denotes.doubleSquare hb).bounded

/-- Either operand has the bound, so the chosen one has. -/
theorem Bounded.select (hf : f.Bounded b) (hg : g.Bounded b) (bit : Bool) :
    (f.select g bit).Bounded b := by
  cases bit with
  | false => exact hf
  | true => exact hg

end Bounds

section Laws

variable {M : Machine} {b c : Nat} {f g : FieldElement} (hM : M.Faithful)
include hM

/-- No limb of a sum leaves its word while the bounds are at most `2 ^ 63`. -/
theorem addOn_eq (hf : f.Bounded b) (hg : g.Bounded c) (hb : b ≤ 2 ^ 63 := by decide)
    (hc : c ≤ 2 ^ 63 := by decide) : addOn M f g = some (f + g) := by
  obtain ⟨f0, f1, f2, f3, f4⟩ := hf
  obtain ⟨g0, g1, g2, g3, g4⟩ := hg
  have h0 := hM.add (a := f.l0) (b := g.l0) (by omega)
  have h1 := hM.add (a := f.l1) (b := g.l1) (by omega)
  have h2 := hM.add (a := f.l2) (b := g.l2) (by omega)
  have h3 := hM.add (a := f.l3) (b := g.l3) (by omega)
  have h4 := hM.add (a := f.l4) (b := g.l4) (by omega)
  rw [addOn, h0, h1, h2, h3, h4]
  rfl

omit hM in
/-- What a limb gives to the next is below `2 ^ 13`. -/
theorem toNat_shiftRight_51_lt (a : UInt64) : (a >>> 51).toNat < 2 ^ 13 := by
  have ha := a.toNat_lt
  rw [toNat_shiftRight_51]
  omega

/-- The carry of a limb has room in every limb that is not all but full. -/
theorem add_carry_eq {a : UInt64} (ha : a.toNat < 2 ^ 64 - 2 ^ 13 + 1) (x : UInt64) :
    M.add a (x >>> 51) = some (a + x >>> 51) := by
  have hx := toNat_shiftRight_51_lt x
  exact hM.add (by omega)

/-- A carry taken nineteenfold has room beside the low bits of a limb. -/
theorem fold_eq {k : UInt64} (a : UInt64) (hk : 19 * k.toNat < 2 ^ 64 - 2 ^ 51) :
    M.mul k 19 = some (k * 19) ∧ M.add (a &&& mask) (k * 19) = some ((a &&& mask) + k * 19) := by
  have ha := toNat_and_mask_lt a
  have hnineteen : (19 : UInt64).toNat = 19 := rfl
  have hfit : k.toNat * (19 : UInt64).toNat < 2 ^ 64 - 2 ^ 51 := by
    rw [hnineteen]
    omega
  refine ⟨hM.mul (hfit.trans (by decide)), hM.add ?_⟩
  rw [UInt64.toNat_mul]
  omega

/-- What `x` carries runs up through the limbs above the lowest, and finds room in each. -/
theorem add_carries_eq (hf : f.Bounded (2 ^ 64 - 2 ^ 13 + 1)) (x : UInt64) :
    M.add f.l1 (x >>> 51) = some (f.l1 + x >>> 51) ∧
      M.add f.l2 ((f.l1 + x >>> 51) >>> 51) = some (f.l2 + (f.l1 + x >>> 51) >>> 51) ∧
      M.add f.l3 ((f.l2 + (f.l1 + x >>> 51) >>> 51) >>> 51) =
        some (f.l3 + (f.l2 + (f.l1 + x >>> 51) >>> 51) >>> 51) ∧
      M.add f.l4 ((f.l3 + (f.l2 + (f.l1 + x >>> 51) >>> 51) >>> 51) >>> 51) =
        some (f.l4 + (f.l3 + (f.l2 + (f.l1 + x >>> 51) >>> 51) >>> 51) >>> 51) := by
  obtain ⟨-, f1, f2, f3, f4⟩ := hf
  exact ⟨add_carry_eq hM f1 _, add_carry_eq hM f2 _, add_carry_eq hM f3 _, add_carry_eq hM f4 _⟩

/-- A round loses nothing if every limb has room for what it takes. -/
theorem carryRoundOn_eq (hf : f.Bounded (2 ^ 64 - 2 ^ 13 + 1)) :
    carryRoundOn M f = some (carryRound f) := by
  obtain ⟨e1, e2, e3, e4⟩ := add_carries_eq hM hf f.l0
  have htop := toNat_shiftRight_51_lt
    (f.l4 + (f.l3 + (f.l2 + (f.l1 + f.l0 >>> 51) >>> 51) >>> 51) >>> 51)
  obtain ⟨hmul, hadd⟩ :=
    fold_eq hM f.l0 (lt_of_lt_of_le (Nat.mul_lt_mul_of_pos_left htop (by decide)) (by decide))
  simp only [carryRoundOn, e1, e2, e3, e4, hmul, hadd, Option.bind_eq_bind, Option.bind_some]
  rfl

/-- The lowest limb finds the same room in the second. -/
theorem carryLowOn_eq (hf : f.l1.toNat < 2 ^ 64 - 2 ^ 13 + 1) :
    carryLowOn M f = some (carryLow f) := by
  rw [carryLowOn, add_carry_eq hM hf]
  rfl

/-- Both parts of a carry run where the round does. -/
theorem carryOn_eq (hf : f.Bounded (2 ^ 64 - 2 ^ 13 + 1)) : carryOn M f = some (carry f) := by
  have hlow : (carryRound f).l1.toNat < 2 ^ 64 - 2 ^ 13 + 1 :=
    (toNat_and_mask_lt _).trans (by decide)
  rw [carryOn, carryRoundOn_eq hM hf]
  exact carryLowOn_eq hM hlow

/-- A limb that is lifted before it is lowered neither leaves its word nor goes below zero. -/
theorem liftedOn_eq {a c b : UInt64} (ha : a.toNat < 2 ^ 54) (hc : c.toNat < 2 ^ 53)
    (hb : b.toNat ≤ c.toNat) :
    liftedOn M a c b = some (a + c - b) ∧ (a + c - b).toNat < 2 ^ 64 - 2 ^ 13 + 1 := by
  have hsum : (a + c).toNat = a.toNat + c.toNat := by
    rw [UInt64.toNat_add]
    omega
  have hlifted := toNat_lifted ha hc hb
  refine ⟨?_, by omega⟩
  rw [liftedOn, hM.add (by omega)]
  exact hM.sub (by omega)

/-- The multiple of the prime is above every limb that is taken away. -/
theorem subOn_eq (hf : f.Bounded b) (hg : g.Bounded c) (hb : b ≤ 2 ^ 54 := by decide)
    (hc : c ≤ 2 ^ 53 - 75 := by decide) : subOn M f g = some (f - g) := by
  obtain ⟨f0, f1, f2, f3, f4⟩ := hf
  obtain ⟨g0, g1, g2, g3, g4⟩ := hg
  obtain ⟨p0, p1, p2, p3, p4⟩ := toNat_fourPrimes_limbs
  obtain ⟨e0, b0⟩ := liftedOn_eq hM (a := f.l0) (c := fourPrimes.l0) (b := g.l0) (by omega)
    (by omega) (by omega)
  obtain ⟨e1, b1⟩ := liftedOn_eq hM (a := f.l1) (c := fourPrimes.l1) (b := g.l1) (by omega)
    (by omega) (by omega)
  obtain ⟨e2, b2⟩ := liftedOn_eq hM (a := f.l2) (c := fourPrimes.l2) (b := g.l2) (by omega)
    (by omega) (by omega)
  obtain ⟨e3, b3⟩ := liftedOn_eq hM (a := f.l3) (c := fourPrimes.l3) (b := g.l3) (by omega)
    (by omega) (by omega)
  obtain ⟨e4, b4⟩ := liftedOn_eq hM (a := f.l4) (c := fourPrimes.l4) (b := g.l4) (by omega)
    (by omega) (by omega)
  simp only [subOn, e0, e1, e2, e3, e4, Option.bind_eq_bind, Option.bind_some]
  exact carryRoundOn_eq hM ⟨b0, b1, b2, b3, b4⟩

/-- The multiple of the prime is above every limb that is negated. -/
theorem negOn_eq (hf : f.Bounded b) (hb : b ≤ 2 ^ 53 - 75 := by decide) :
    negOn M f = some (-f) := by
  obtain ⟨f0, f1, f2, f3, f4⟩ := hf
  obtain ⟨p0, p1, p2, p3, p4⟩ := toNat_fourPrimes_limbs
  have hlimb : ∀ {a c : UInt64}, c.toNat < 2 ^ 53 → a.toNat ≤ c.toNat →
      M.sub c a = some (c - a) ∧ (c - a).toNat < 2 ^ 64 - 2 ^ 13 + 1 := by
    intro a c hc ha
    refine ⟨hM.sub ha, ?_⟩
    rw [UInt64.toNat_sub_of_le c a (UInt64.le_iff_toNat_le.mpr ha)]
    omega
  obtain ⟨e0, b0⟩ := hlimb (a := f.l0) (c := fourPrimes.l0) (by omega) (by omega)
  obtain ⟨e1, b1⟩ := hlimb (a := f.l1) (c := fourPrimes.l1) (by omega) (by omega)
  obtain ⟨e2, b2⟩ := hlimb (a := f.l2) (c := fourPrimes.l2) (by omega) (by omega)
  obtain ⟨e3, b3⟩ := hlimb (a := f.l3) (c := fourPrimes.l3) (by omega) (by omega)
  obtain ⟨e4, b4⟩ := hlimb (a := f.l4) (c := fourPrimes.l4) (by omega) (by omega)
  simp only [negOn, e0, e1, e2, e3, e4, Option.bind_eq_bind, Option.bind_some]
  exact carryRoundOn_eq hM ⟨b0, b1, b2, b3, b4⟩

/-- The negative is computed whatever the bit is, so its bound is asked for in both cases. -/
theorem negateIfOn_eq (hf : f.Bounded b) (bit : Bool) (hb : b ≤ 2 ^ 53 - 75 := by decide) :
    negateIfOn M f bit = some (f.negateIf bit) := by
  rw [negateIfOn, negOn_eq hM hf hb]
  cases bit <;> rfl

/-- A column carried into the next. -/
theorem carryIntoOn_eq {x y : Wide} (hx : x.toNat < 2 ^ 115) (hy : y.toNat ≤ 95 * 2 ^ 108) :
    M.shiftRight x 51 = some (x.shiftRight 51) ∧
      M.addWord y (x.shiftRight 51) = some (y.addWord (x.shiftRight 51)) ∧
      (y.addWord (x.shiftRight 51)).toNat = y.toNat + x.toNat / 2 ^ 51 ∧
      (y.addWord (x.shiftRight 51)).toNat < 2 ^ 115 := by
  obtain ⟨heq, hlt⟩ := toNat_carryInto rfl hx hy
  have hshift : x.toNat / 2 ^ (51 : UInt64).toNat < 2 ^ 64 := by
    change x.toNat / 2 ^ 51 < 2 ^ 64
    omega
  have hword := (x.shiftRight 51).toNat_lt
  exact ⟨hM.shiftRight (by decide) (by decide) hshift, hM.addWord (by omega), heq, by omega⟩

/-- Columns that are small enough to carry do so within their double words. -/
theorem Columns.Small.carryOn_eq {h : Columns} (hs : h.Small) : h.carryOn M = some h.carry := by
  obtain ⟨s0, s1, s2, s3, s4⟩ := hs
  obtain ⟨t0, e1, -, b1⟩ := carryIntoOn_eq hM (x := h.c0) (by omega) s1
  obtain ⟨t1, e2, -, b2⟩ := carryIntoOn_eq hM b1 s2
  obtain ⟨t2, e3, -, b3⟩ := carryIntoOn_eq hM b2 s3
  obtain ⟨t3, e4, n4, b4⟩ := carryIntoOn_eq hM b3 (y := h.c4) (by omega)
  -- the carry out of the top column is the one that is multiplied, and the tightest
  obtain ⟨t4, -, -, -⟩ := carryIntoOn_eq hM b4 (y := h.c4) (by omega)
  obtain ⟨hmul, hadd⟩ := fold_eq hM h.c0.lo (k := Wide.shiftRight _ 51) (by
    rw [Wide.toNat_shiftRight _ (by decide) (by decide), n4]
    change 19 * ((h.c4.toNat + _ / 2 ^ 51) / 2 ^ 51 % 2 ^ 64) < _
    omega)
  simp only [Columns.carryOn, t0, e1, t1, e2, t2, e3, t3, e4, t4, hmul, hadd,
    Option.bind_eq_bind, Option.bind_some]
  exact carryLowOn_eq hM ((toNat_and_mask_lt _).trans (by decide))

theorem threeOn_eq {x y z : Wide} (h : x.toNat + y.toNat + z.toNat < 2 ^ 128) :
    threeOn M x y z = some (x + y + z) := by
  have hxy : (x + y).toNat = x.toNat + y.toNat := by
    rw [Wide.toNat_add]
    omega
  rw [threeOn, hM.addWide (by omega)]
  exact hM.addWide (by omega)

theorem fiveOn_eq {x y z v w : Wide}
    (h : x.toNat + y.toNat + z.toNat + v.toNat + w.toNat < 2 ^ 128) :
    fiveOn M x y z v w = some (x + y + z + v + w) := by
  have hxyz : (x + y + z).toNat = x.toNat + y.toNat + z.toNat := by
    rw [Wide.toNat_add, Wide.toNat_add]
    omega
  have hxyzv : (x + y + z + v).toNat = x.toNat + y.toNat + z.toNat + v.toNat := by
    rw [Wide.toNat_add, hxyz]
    omega
  rw [fiveOn, threeOn_eq hM (by omega), Option.bind_eq_bind, Option.bind_some,
    hM.addWide (by omega)]
  exact hM.addWide (by omega)

omit hM in
/-- The size that limbs keep when they are doubled, taken nineteenfold, or both. -/
theorem toNat_product_lt {a b : UInt64} (ha : a.toNat < 2 ^ 60) (hb : b.toNat < 2 ^ 60) :
    (product a b).toNat < 2 ^ 120 := by
  rw [Wide.toNat_product]
  calc a.toNat * b.toNat < 2 ^ 60 * 2 ^ 60 := Nat.mul_lt_mul'' ha hb
    _ = 2 ^ 120 := by decide

/-- No limb of a factor is taken by more than twice nineteen. -/
theorem scaled_eq {k a : UInt64} (ha : a.toNat < 2 ^ 54) (hk : k.toNat ≤ 38 := by decide) :
    M.mul k a = some (k * a) ∧ (k * a).toNat < 2 ^ 60 := by
  have hprod : k.toNat * a.toNat < 2 ^ 60 := by
    calc k.toNat * a.toNat ≤ 38 * a.toNat := Nat.mul_le_mul_right _ hk
      _ < 2 ^ 60 := by omega
  refine ⟨hM.mul (hprod.trans (by decide)), ?_⟩
  rw [UInt64.toNat_mul]
  omega

/-- A column of five products. -/
theorem fiveProducts_eq {f g : FieldElement} (hf : f.Bounded (2 ^ 60)) (hg : g.Bounded (2 ^ 60)) :
    fiveOn M (product f.l0 g.l0) (product f.l1 g.l1) (product f.l2 g.l2) (product f.l3 g.l3)
        (product f.l4 g.l4) =
      some (product f.l0 g.l0 + product f.l1 g.l1 + product f.l2 g.l2 + product f.l3 g.l3 +
        product f.l4 g.l4) := by
  obtain ⟨f0, f1, f2, f3, f4⟩ := hf
  obtain ⟨g0, g1, g2, g3, g4⟩ := hg
  have p0 := toNat_product_lt f0 g0
  have p1 := toNat_product_lt f1 g1
  have p2 := toNat_product_lt f2 g2
  have p3 := toNat_product_lt f3 g3
  have p4 := toNat_product_lt f4 g4
  exact fiveOn_eq hM (by omega)

/-- A column of three products. -/
theorem threeProducts_eq {a b c x y z : UInt64}
    (hleft : a.toNat < 2 ^ 60 ∧ b.toNat < 2 ^ 60 ∧ c.toNat < 2 ^ 60)
    (hright : x.toNat < 2 ^ 60 ∧ y.toNat < 2 ^ 60 ∧ z.toNat < 2 ^ 60) :
    threeOn M (product a x) (product b y) (product c z) =
      some (product a x + product b y + product c z) := by
  have p0 := toNat_product_lt hleft.1 hright.1
  have p1 := toNat_product_lt hleft.2.1 hright.2.1
  have p2 := toNat_product_lt hleft.2.2 hright.2.2
  exact threeOn_eq hM (by omega)

/-- Five products of 54 bits, four of them scaled by nineteen, fit a double word. -/
theorem mulColumnsOn_eq (hf : f.Bounded (2 ^ 54)) (hg : g.Bounded (2 ^ 54)) :
    mulColumnsOn M f g = some (mulColumns f g) := by
  have hf60 : f.Bounded (2 ^ 60) := hf.mono (by decide)
  obtain ⟨g0, g1, g2, g3, g4⟩ := hg
  have hwide : ∀ {a : UInt64}, a.toNat < 2 ^ 54 → a.toNat < 2 ^ 60 := by omega
  obtain ⟨n1, w1⟩ := scaled_eq hM (k := 19) g1
  obtain ⟨n2, w2⟩ := scaled_eq hM (k := 19) g2
  obtain ⟨n3, w3⟩ := scaled_eq hM (k := 19) g3
  obtain ⟨n4, w4⟩ := scaled_eq hM (k := 19) g4
  have c0 := fiveProducts_eq hM hf60 (g := ⟨g.l0, 19 * g.l4, 19 * g.l3, 19 * g.l2, 19 * g.l1⟩)
    ⟨hwide g0, w4, w3, w2, w1⟩
  have c1 := fiveProducts_eq hM hf60 (g := ⟨g.l1, g.l0, 19 * g.l4, 19 * g.l3, 19 * g.l2⟩)
    ⟨hwide g1, hwide g0, w4, w3, w2⟩
  have c2 := fiveProducts_eq hM hf60 (g := ⟨g.l2, g.l1, g.l0, 19 * g.l4, 19 * g.l3⟩)
    ⟨hwide g2, hwide g1, hwide g0, w4, w3⟩
  have c3 := fiveProducts_eq hM hf60 (g := ⟨g.l3, g.l2, g.l1, g.l0, 19 * g.l4⟩)
    ⟨hwide g3, hwide g2, hwide g1, hwide g0, w4⟩
  have c4 := fiveProducts_eq hM hf60 (g := ⟨g.l4, g.l3, g.l2, g.l1, g.l0⟩)
    ⟨hwide g4, hwide g3, hwide g2, hwide g1, hwide g0⟩
  simp only at c0 c1 c2 c3 c4
  simp only [mulColumnsOn, n1, n2, n3, n4, c0, c1, c2, c3, c4, Option.bind_eq_bind,
    Option.bind_some]
  rfl

/-- No product or sum of a multiplication is lost for limbs up to 54 bits. -/
theorem mulOn_eq (hf : f.Bounded b) (hg : g.Bounded c) (hb : b ≤ 2 ^ 54 := by decide)
    (hc : c ≤ 2 ^ 54 := by decide) : mulOn M f g = some (f * g) := by
  rw [mulOn, mulColumnsOn_eq hM (hf.mono hb) (hg.mono hc)]
  exact (mulColumns_small (hf.mono hb) (hg.mono hc)).1.carryOn_eq hM

omit hM in
/-- Limbs of twice the bound no longer fit: the machine stops. -/
example : mulOn .stopping ⟨2 ^ 55, 2 ^ 55, 2 ^ 55, 2 ^ 55, 2 ^ 55⟩
    ⟨2 ^ 55, 2 ^ 55, 2 ^ 55, 2 ^ 55, 2 ^ 55⟩ = none := by
  decide +kernel

/-- The doubled and scaled products of a square fit a double word too. -/
theorem squareColumnsOn_eq (hf : f.Bounded (2 ^ 54)) :
    squareColumnsOn M f = some (squareColumns f) := by
  obtain ⟨f0, f1, f2, f3, f4⟩ := hf
  obtain ⟨d0, b0⟩ := scaled_eq hM (k := 2) f0
  obtain ⟨d1, b1⟩ := scaled_eq hM (k := 2) f1
  obtain ⟨d3, b3⟩ := scaled_eq hM (k := 2) f3
  obtain ⟨w1, v1⟩ := scaled_eq hM (k := 38) f1
  obtain ⟨w2, v2⟩ := scaled_eq hM (k := 38) f2
  obtain ⟨w3, v3⟩ := scaled_eq hM (k := 38) f3
  obtain ⟨n2, u2⟩ := scaled_eq hM (k := 19) f2
  obtain ⟨n3, u3⟩ := scaled_eq hM (k := 19) f3
  obtain ⟨n4, u4⟩ := scaled_eq hM (k := 19) f4
  have c0 := threeProducts_eq hM (a := f.l0) (b := 38 * f.l1) (c := 19 * f.l2)
    (x := f.l0) (y := f.l4) (z := 2 * f.l3) (by omega) (by omega)
  have c1 := threeProducts_eq hM (a := 2 * f.l0) (b := 38 * f.l2) (c := 19 * f.l3)
    (x := f.l1) (y := f.l4) (z := f.l3) (by omega) (by omega)
  have c2 := threeProducts_eq hM (a := 2 * f.l0) (b := f.l1) (c := 38 * f.l3)
    (x := f.l2) (y := f.l1) (z := f.l4) (by omega) (by omega)
  have c3 := threeProducts_eq hM (a := 2 * f.l0) (b := 2 * f.l1) (c := 19 * f.l4)
    (x := f.l3) (y := f.l2) (z := f.l4) (by omega) (by omega)
  have c4 := threeProducts_eq hM (a := 2 * f.l0) (b := 2 * f.l1) (c := f.l2)
    (x := f.l4) (y := f.l3) (z := f.l2) (by omega) (by omega)
  simp only [squareColumnsOn, d0, d1, d3, w1, w2, w3, n2, n3, n4, c0, c1, c2, c3, c4,
    Option.bind_eq_bind, Option.bind_some]
  rfl

/-- No product or sum of a squaring is lost for limbs up to 54 bits. -/
theorem squareOn_eq (hf : f.Bounded b) (hb : b ≤ 2 ^ 54 := by decide) :
    squareOn M f = some f.square := by
  have hsmall : (squareColumns f).Small := by
    rw [squareColumns_eq (hf.mono (hb.trans (by decide)))]
    exact (mulColumns_small (hf.mono hb) (hf.mono hb)).1
  rw [squareOn, squareColumnsOn_eq hM (hf.mono hb)]
  exact hsmall.carryOn_eq hM

/-- Doubling a carried square keeps every limb in its word. -/
theorem doubleSquareOn_eq (hf : f.Bounded b) (hb : b ≤ 2 ^ 54 := by decide) :
    doubleSquareOn M f = some f.doubleSquare := by
  obtain ⟨s0, s1, s2, s3, s4⟩ := (hf.square hb).mono (c := 2 ^ 54) (by decide)
  obtain ⟨d0, -⟩ := scaled_eq hM (k := 2) s0
  obtain ⟨d1, -⟩ := scaled_eq hM (k := 2) s1
  obtain ⟨d2, -⟩ := scaled_eq hM (k := 2) s2
  obtain ⟨d3, -⟩ := scaled_eq hM (k := 2) s3
  obtain ⟨d4, -⟩ := scaled_eq hM (k := 2) s4
  simp only [doubleSquareOn, squareOn_eq hM hf hb, d0, d1, d2, d3, d4, Option.bind_eq_bind,
    Option.bind_some]
  rfl

/-- The round at the end has the room of a round. -/
theorem carryDropOn_eq (hf : f.Bounded (2 ^ 64 - 2 ^ 13 + 1)) :
    carryDropOn M f = some (carryDrop f) := by
  obtain ⟨e1, e2, e3, e4⟩ := add_carries_eq hM hf f.l0
  simp only [carryDropOn, e1, e2, e3, e4, Option.bind_eq_bind, Option.bind_some]
  rfl

/-- Limbs below the radix have room for the nineteen and its carries. -/
theorem excessOn_eq (hf : f.Bounded (2 ^ 51)) : excessOn M f = some (excess f) := by
  have f0 := hf.1
  have hnineteen : (19 : UInt64).toNat = 19 := rfl
  have e0 : M.add f.l0 19 = some (f.l0 + 19) := hM.add (by rw [hnineteen]; omega)
  obtain ⟨e1, e2, e3, e4⟩ := add_carries_eq hM (hf.mono (by decide)) (f.l0 + 19)
  simp only [excessOn, e0, e1, e2, e3, e4, Option.bind_eq_bind, Option.bind_some]
  rfl

/-- The canonical form is reached from every limb that leaves room for a carry. -/
theorem canonicalOn_eq (hf : f.Bounded b) (hb : b ≤ 2 ^ 64 - 2 ^ 13 + 1 := by decide) :
    canonicalOn M f = some f.canonical := by
  have hlimits := hf.mono hb
  obtain ⟨-, h0, h1, h2, h3, h4⟩ := carry_limbs hlimits
  have hpass : (carry f).Bounded (2 ^ 64 - 2 ^ 13 + 1) :=
    ⟨by omega, by omega, by omega, by omega, by omega⟩
  obtain ⟨hbound, -⟩ := bounded_carry_carry hlimits
  rw [canonicalOn, carryOn_eq hM hlimits, Option.bind_eq_bind, Option.bind_some,
    carryOn_eq hM hpass, Option.bind_eq_bind, Option.bind_some, canonical]
  generalize carry (carry f) = t at hbound
  have hexcess := excessOn_eq hM hbound
  have hsmall : (excess t).toNat < 2 ^ 13 := toNat_shiftRight_51_lt _
  have hnineteen : (19 : UInt64).toNat = 19 := rfl
  obtain ⟨t0, t1, t2, t3, t4⟩ := hbound
  have hmul : M.mul 19 (excess t) = some (19 * excess t) := hM.mul (by rw [hnineteen]; omega)
  have hfold : (19 * excess t).toNat < 2 ^ 18 := by
    rw [UInt64.toNat_mul, hnineteen, Nat.mod_eq_of_lt (by omega)]
    omega
  have hadd := hM.add (a := t.l0) (b := 19 * excess t) (by omega)
  have hlow : (t.l0 + 19 * excess t).toNat < 2 ^ 64 - 2 ^ 13 + 1 := by
    rw [UInt64.toNat_add]
    omega
  simp only [hexcess, hmul, hadd, Option.bind_some]
  exact carryDropOn_eq hM ⟨hlow, by dsimp only; omega, by dsimp only; omega, by dsimp only; omega,
    by dsimp only; omega⟩

theorem toOctetsOn_eq (hf : f.Bounded b) (hb : b ≤ 2 ^ 64 - 2 ^ 13 + 1 := by decide) :
    toOctetsOn M f = some f.toOctets := by
  rw [toOctetsOn, canonicalOn_eq hM hf hb]
  rfl

theorem isNonzeroOn_eq (hf : f.Bounded b) (hb : b ≤ 2 ^ 64 - 2 ^ 13 + 1 := by decide) :
    isNonzeroOn M f = some f.isNonzero := by
  rw [isNonzeroOn, toOctetsOn_eq hM hf hb]
  rfl

/-- The test of the lowest bit runs where writing does. -/
theorem isNegativeOn_eq (hf : f.Bounded b) (hb : b ≤ 2 ^ 64 - 2 ^ 13 + 1 := by decide) :
    isNegativeOn M f = some f.isNegative := by
  rw [isNegativeOn, toOctetsOn_eq hM hf hb]
  rfl

/-- Two elements are compared wherever both are written. -/
theorem sameOn_eq (hf : f.Bounded b) (hg : g.Bounded c)
    (hb : b ≤ 2 ^ 64 - 2 ^ 13 + 1 := by decide) (hc : c ≤ 2 ^ 64 - 2 ^ 13 + 1 := by decide) :
    sameOn M f g = some (f.same g) := by
  rw [sameOn, toOctetsOn_eq hM hf hb, toOctetsOn_eq hM hg hc]
  rfl

/-! Each operation together with what it leaves behind, for the formulas that chain them. -/

/-- The sum with its bound, for use in longer computations. -/
theorem Bounded.addOn_eq (hf : f.Bounded b) (hg : g.Bounded c)
    (h : b ≤ 2 ^ 63 ∧ c ≤ 2 ^ 63) : addOn M f g = some (f + g) ∧ (f + g).Bounded (b + c) :=
  ⟨FieldElement.addOn_eq hM hf hg h.1 h.2, hf.add hg⟩

theorem Bounded.subOn_eq (hf : f.Bounded b) (hg : g.Bounded c)
    (h : b ≤ 2 ^ 54 ∧ c ≤ 2 ^ 53 - 75) :
    subOn M f g = some (f - g) ∧ (f - g).Bounded (2 ^ 51 + 2 ^ 9) :=
  ⟨FieldElement.subOn_eq hM hf hg h.1 h.2, hf.sub hg h.1 h.2⟩

theorem Bounded.negOn_eq (hf : f.Bounded b) (hb : b ≤ 2 ^ 53 - 75) :
    negOn M f = some (-f) ∧ (-f).Bounded (2 ^ 51 + 2 ^ 9) :=
  ⟨FieldElement.negOn_eq hM hf hb, hf.neg hb⟩

theorem Bounded.mulOn_eq (hf : f.Bounded b) (hg : g.Bounded c)
    (h : b ≤ 2 ^ 54 ∧ c ≤ 2 ^ 54) :
    mulOn M f g = some (f * g) ∧ (f * g).Bounded (2 ^ 51 + 2 ^ 13) :=
  ⟨FieldElement.mulOn_eq hM hf hg h.1 h.2, hf.mul hg h.1 h.2⟩

theorem Bounded.squareOn_eq (hf : f.Bounded b) (hb : b ≤ 2 ^ 54) :
    squareOn M f = some f.square ∧ f.square.Bounded (2 ^ 51 + 2 ^ 13) :=
  ⟨FieldElement.squareOn_eq hM hf hb, hf.square hb⟩

theorem Bounded.doubleSquareOn_eq (hf : f.Bounded b) (hb : b ≤ 2 ^ 54) :
    doubleSquareOn M f = some f.doubleSquare ∧ f.doubleSquare.Bounded (2 ^ 52 + 2 ^ 14) :=
  ⟨FieldElement.doubleSquareOn_eq hM hf hb, hf.doubleSquare hb⟩

end Laws

end FieldElement

end TwistedEdwards
