import TwistedEdwards.Word.Masked

/-!
# Scalars in five limbs

Scalars are residues modulo the prime order of the base point, kept as five
words of radix `2 ^ 52`.  Every operation takes and returns reduced scalars:
limbs below `2 ^ 52` and a number below the order.

A difference is taken with a borrow from limb to limb, and the order is added
back if the last limb borrowed: the borrow is spread over a word, which lets the
order through or nothing.  A sum of two reduced scalars is less than twice the
order, so a sum is a difference from the order.

Scalars are compared by the bits in which their limbs differ, all joined into one word.

Main statements: `Scalar.masked_underflowMask`, `Scalar.difference_eq_zero_iff` and
`Scalar.isZero_iff`.
-/

namespace TwistedEdwards

/-- The order of the base point. -/
def groupOrder : Nat := 2 ^ 252 + 27742317777372353535851937790883648493

/-- Five limbs of radix `2 ^ 52`, least significant first. -/
structure Scalar where
  l0 : UInt64
  l1 : UInt64
  l2 : UInt64
  l3 : UInt64
  l4 : UInt64
deriving DecidableEq

namespace Scalar

/-- The low 52 bits of a word. -/
@[inline] def mask : UInt64 := 0xfffffffffffff

/-- The number that the limbs stand for. -/
def toNat (s : Scalar) : Nat :=
  s.l0.toNat + s.l1.toNat * 2 ^ 52 + s.l2.toNat * 2 ^ 104 + s.l3.toNat * 2 ^ 156 +
    s.l4.toNat * 2 ^ 208

/-- Every limb is below `b`. -/
def Bounded (b : Nat) (s : Scalar) : Prop :=
  s.l0.toNat < b ∧ s.l1.toNat < b ∧ s.l2.toNat < b ∧ s.l3.toNat < b ∧ s.l4.toNat < b

instance (b : Nat) (s : Scalar) : Decidable (Bounded b s) := by
  unfold Bounded; infer_instance

/-- The limbs are below the radix and the number is below the order. -/
def Reduced (s : Scalar) : Prop := s.Bounded (2 ^ 52) ∧ s.toNat < groupOrder

instance (s : Scalar) : Decidable s.Reduced := by
  unfold Reduced; infer_instance

def zero : Scalar := ⟨0, 0, 0, 0, 0⟩

def one : Scalar := ⟨1, 0, 0, 0, 0⟩

instance : Inhabited Scalar := ⟨zero⟩

/-- The order in limbs. -/
def order : Scalar := ⟨0x2631a5cf5d3ed, 0xdea2f79cd6581, 0x14def9, 0x0, 0x100000000000⟩

/-- The sum with carries; what leaves the top limb is dropped. -/
def addCarry (f g : Scalar) : Scalar :=
  let c0 := f.l0 + g.l0
  let c1 := f.l1 + g.l1 + (c0 >>> 52)
  let c2 := f.l2 + g.l2 + (c1 >>> 52)
  let c3 := f.l3 + g.l3 + (c2 >>> 52)
  let c4 := f.l4 + g.l4 + (c3 >>> 52)
  ⟨c0 &&& mask, c1 &&& mask, c2 &&& mask, c3 &&& mask, c4 &&& mask⟩

/-- The difference with borrows, and the top limb before it is cut: its top bit is set if the
limb borrowed. -/
def subBorrow (f g : Scalar) : Scalar × UInt64 :=
  let b0 := f.l0 - g.l0
  let b1 := f.l1 - (g.l1 + (b0 >>> 63))
  let b2 := f.l2 - (g.l2 + (b1 >>> 63))
  let b3 := f.l3 - (g.l3 + (b2 >>> 63))
  let b4 := f.l4 - (g.l4 + (b3 >>> 63))
  (⟨b0 &&& mask, b1 &&& mask, b2 &&& mask, b3 &&& mask, b4 &&& mask⟩, b4)

/-- A word of ones if the top bit is set, of zeros if not. -/
@[inline] def underflowMask (borrow : UInt64) : UInt64 := ((borrow >>> 63) ^^^ 1) - 1

/-- The limbs as far as the mask lets them through. -/
@[inline] def masked (f : Scalar) (m : UInt64) : Scalar :=
  ⟨f.l0 &&& m, f.l1 &&& m, f.l2 &&& m, f.l3 &&& m, f.l4 &&& m⟩

/-- The difference modulo the order. -/
def sub (f g : Scalar) : Scalar :=
  let (difference, borrow) := subBorrow f g
  addCarry difference (order.masked (underflowMask borrow))

instance : Sub Scalar := ⟨sub⟩

/-- The sum modulo the order. -/
def add (f g : Scalar) : Scalar := sub (addCarry f g) order

instance : Add Scalar := ⟨add⟩

/-- The negative modulo the order. -/
def neg (f : Scalar) : Scalar := sub zero f

instance : Neg Scalar := ⟨neg⟩

/-- The bits in which some limbs of two scalars differ. -/
@[inline] def difference (f g : Scalar) : UInt64 :=
  (f.l0 ^^^ g.l0) ||| (f.l1 ^^^ g.l1) ||| (f.l2 ^^^ g.l2) ||| (f.l3 ^^^ g.l3) ||| (f.l4 ^^^ g.l4)

/-- Limbs are compared without a branch. -/
instance : BEq Scalar := ⟨fun f g => !Bits.nonzero (difference f g)⟩

/-- No bit of any limb is set. -/
def isZero (s : Scalar) : Bool := !Bits.nonzero (s.l0 ||| s.l1 ||| s.l2 ||| s.l3 ||| s.l4)

theorem toNat_order : order.toNat = groupOrder := by decide +kernel

theorem neg_eq_zero_sub (f : Scalar) : -f = zero - f := rfl

/-- A borrow lets the order through, and otherwise nothing is let through. -/
theorem masked_underflowMask (f : Scalar) (borrow : UInt64) :
    f.masked (underflowMask borrow) = if borrow >>> 63 = 1 then f else zero := by
  have hbit : (borrow >>> 63).toNat = borrow.toNat / 2 ^ 63 := Bits.toNat_shiftRight (by decide)
  have hlt := borrow.toNat_lt
  rcases Nat.lt_or_ge borrow.toNat (2 ^ 63) with hlow | hhigh
  · have hclear : borrow >>> 63 = 0 := by
      rw [← UInt64.toNat_inj, hbit, Nat.div_eq_of_lt hlow]
      rfl
    have hmask : underflowMask borrow = 0 := by
      rw [underflowMask, hclear]
      rfl
    rw [hmask, hclear, if_neg (by decide)]
    simp only [masked, UInt64.and_zero, zero]
  · have hset : borrow >>> 63 = 1 := by
      rw [← UInt64.toNat_inj, hbit, UInt64.toNat_one]
      omega
    have hmask : underflowMask borrow = -1 := by
      rw [underflowMask, hset]
      rfl
    rw [hmask, if_pos hset]
    simp only [masked, UInt64.and_neg_one]

/-- No bit differs exactly if the scalars are equal. -/
theorem difference_eq_zero_iff (f g : Scalar) : difference f g = 0 ↔ f = g := by
  cases f
  cases g
  simp only [difference, UInt64.or_eq_zero_iff, UInt64.xor_eq_zero_iff, mk.injEq, and_assoc]

instance : LawfulBEq Scalar where
  eq_of_beq {f g} h := by
    rw [← difference_eq_zero_iff, ← Bits.nonzero_eq_false_iff]
    exact (Bool.not_eq_true' _).mp h
  rfl {f} := (Bool.not_eq_true' _).mpr
    ((Bits.nonzero_eq_false_iff _).mpr ((difference_eq_zero_iff f f).mpr rfl))

theorem isZero_iff (s : Scalar) : s.isZero = true ↔ s = zero := by
  rw [isZero, Bool.not_eq_true', Bits.nonzero_eq_false_iff]
  cases s
  simp only [UInt64.or_eq_zero_iff, zero, mk.injEq, and_assoc]

end Scalar

end TwistedEdwards
