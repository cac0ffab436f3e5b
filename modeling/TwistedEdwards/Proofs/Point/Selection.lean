import TwistedEdwards.Proofs.Point.Table
import TwistedEdwards.Proofs.Point.Validity

/-!
# Selection without branches

A table entry is selected with masks: a word of ones or of zeros decides limb by limb which of
two operands stays.  The digit's sign is spread over a word, which gives its magnitude and the
bit of the negation, and two numbers are equal if their difference bit by bit, less one, runs
below zero.  So written, a selection is the one with conditions, for every digit of
eight bits, and adding what is selected adds the multiple by the digit.

Main statements: `CentredTable.selectMasked_eq` and `Point.tables_exact`.
-/

namespace TwistedEdwards

namespace Bits

/-- A word of ones for the bit one, of zeros for the bit zero. -/
def moveMask (bit : UInt32) : UInt64 := 0 - bit.toUInt64

/-- A masked difference moves the other word in, or leaves the word as it is. -/
theorem xor_and_moveMask (a b : UInt64) (bit : Bool) :
    a ^^^ ((a ^^^ b) &&& moveMask bit.toUInt32) = if bit then b else a := by
  cases bit with
  | false =>
      have hmask : moveMask false.toUInt32 = 0 := rfl
      rw [hmask, UInt64.and_zero, UInt64.xor_zero, if_neg Bool.false_ne_true]
  | true =>
      have hmask : moveMask true.toUInt32 = -1 := rfl
      rw [hmask, UInt64.and_neg_one, ← UInt64.xor_assoc, UInt64.xor_self, UInt64.zero_xor,
        if_pos rfl]

/-- One for equal words, zero for others that differ below the top bit. -/
def equalBit (a b : UInt32) : UInt32 := ((a ^^^ b) - 1) >>> 31

/-- Words of 31 bits are compared by the sign of a difference. -/
theorem equalBit_eq {a b : UInt32} (ha : a.toNat < 2 ^ 31) (hb : b.toNat < 2 ^ 31) :
    equalBit a b = (a == b).toUInt32 := by
  unfold equalBit
  by_cases hab : a = b
  · -- zero less one runs below zero, so the top bit is set
    rw [hab, UInt32.xor_self, beq_self_eq_true]
    rfl
  · have hdiff : (a ^^^ b).toNat < 2 ^ 31 := by
      rw [UInt32.toNat_xor]
      exact Nat.xor_lt_two_pow ha hb
    have hne : a ^^^ b ≠ 0 := fun hzero => hab (UInt32.xor_eq_zero_iff.mp hzero)
    have hpos : (a ^^^ b).toNat ≠ 0 := fun hzero => hne (UInt32.toNat_inj.mp hzero)
    rw [beq_eq_false_iff_ne.mpr hab]
    apply UInt32.toNat_inj.mp
    generalize a ^^^ b = c at hdiff hpos ⊢
    have hless : (c - 1).toNat = c.toNat - 1 := by
      have hle : (1 : UInt32) ≤ c := by
        rw [UInt32.le_iff_toNat_le]
        exact Nat.one_le_iff_ne_zero.mpr hpos
      rw [UInt32.toNat_sub_of_le _ _ hle]
      rfl
    have hshift : (31 : UInt32).toNat % 32 = 31 := rfl
    rw [UInt32.toNat_shiftRight, hless, hshift, Nat.shiftRight_eq_div_pow,
      Nat.div_eq_of_lt (by omega)]
    rfl

/-- The sign of a digit in every bit of a word. -/
def signMask (digit : Int8) : Int32 := digit.toInt32 >>> 31

/-- The magnitude of a digit: for a negative one its complement, plus one. -/
def magnitude (digit : Int8) : UInt32 :=
  ((digit.toInt32 ^^^ signMask digit) - signMask digit).toUInt32

/-- The sign of a digit as a word. -/
def signBit (digit : Int8) : UInt32 := (signMask digit &&& 1).toUInt32

/-- The shift keeps the sign, and nothing of the digit but the sign. -/
theorem signMask_eq (digit : Int8) : signMask digit = if digit.toInt < 0 then -1 else 0 := by
  have hlow := digit.le_toInt
  have hhigh := digit.toInt_lt
  have hshift : (signMask digit).toInt = digit.toInt / 2 ^ 31 := by
    rw [signMask, ← Int32.toInt_toBitVec, Int32.toBitVec_shiftRight, BitVec.sshiftRight_eq',
      BitVec.toInt_sshiftRight, Int32.toInt_toBitVec, Int8.toInt_toInt32,
      Int.shiftRight_eq_div_pow]
    rfl
  have hones : (-1 : Int32).toInt = -1 := rfl
  have hzeros : (0 : Int32).toInt = 0 := rfl
  apply Int32.toInt_inj.mp
  split <;> omega

/-- A number that is not negative is kept by a word without sign. -/
theorem toNat_toUInt32_of_nonneg {a : Int32} (ha : 0 ≤ a.toInt) :
    a.toUInt32.toNat = a.toInt.natAbs := by
  have hcond := BitVec.toInt_eq_toNat_cond a.toBitVec
  have hlt := a.toBitVec.isLt
  rw [Int32.toNat_toBitVec, Int32.toInt_toBitVec] at hcond
  rw [Int32.toNat_toBitVec] at hlt
  split at hcond <;> omega

theorem toNat_magnitude (digit : Int8) : (magnitude digit).toNat = digit.toInt.natAbs := by
  have hwide := digit.toInt_toInt32
  have hlow := digit.le_toInt
  unfold magnitude
  rw [signMask_eq]
  by_cases hneg : digit.toInt < 0
  · have hnegated : (digit.toInt32 ^^^ -1) - -1 = -digit.toInt32 := by
      rw [Int32.xor_neg_one, Int32.sub_neg, ← Int32.neg_eq_not_add]
    have hvalue : (-digit.toInt32).toInt = -digit.toInt := by
      rw [Int32.toInt_neg, hwide]
      apply Int.bmod_eq_of_le <;> omega
    rw [if_pos hneg, hnegated, toNat_toUInt32_of_nonneg (by omega), hvalue, Int.natAbs_neg]
  · rw [if_neg hneg, Int32.xor_zero, Int32.sub_zero, toNat_toUInt32_of_nonneg (by omega), hwide]

theorem signBit_eq (digit : Int8) : signBit digit = (decide (digit.toInt < 0)).toUInt32 := by
  unfold signBit
  rw [signMask_eq]
  by_cases hneg : digit.toInt < 0
  · rw [if_pos hneg, decide_eq_true hneg]
    rfl
  · rw [if_neg hneg, decide_eq_false hneg]
    rfl

end Bits

/-- The masked move, limb by limb. -/
def FieldElement.selectMasked (f g : FieldElement) (bit : UInt32) : FieldElement :=
  let mask := Bits.moveMask bit
  ⟨f.l0 ^^^ ((f.l0 ^^^ g.l0) &&& mask), f.l1 ^^^ ((f.l1 ^^^ g.l1) &&& mask),
    f.l2 ^^^ ((f.l2 ^^^ g.l2) &&& mask), f.l3 ^^^ ((f.l3 ^^^ g.l3) &&& mask),
    f.l4 ^^^ ((f.l4 ^^^ g.l4) &&& mask)⟩

/-- A mask of all bits or of none chooses each limb. -/
theorem FieldElement.selectMasked_eq (f g : FieldElement) (bit : Bool) :
    f.selectMasked g bit.toUInt32 = f.select g bit := by
  unfold FieldElement.selectMasked FieldElement.select
  simp only [Bits.xor_and_moveMask]
  cases bit <;> rfl

namespace CachedPoint

/-- The masked move, coordinate by coordinate. -/
def selectMasked (p q : CachedPoint) (bit : UInt32) : CachedPoint :=
  ⟨p.yPlusX.selectMasked q.yPlusX bit, p.yMinusX.selectMasked q.yMinusX bit,
    p.z.selectMasked q.z bit, p.t2d.selectMasked q.t2d bit⟩

/-- The masked choice is made coordinate by coordinate. -/
theorem selectMasked_eq (p q : CachedPoint) (bit : Bool) :
    p.selectMasked q bit.toUInt32 = p.select q bit := by
  unfold selectMasked select
  simp only [FieldElement.selectMasked_eq]

/-- The negative is always taken, and moved in if the bit is one. -/
def negateMasked (q : CachedPoint) (bit : UInt32) : CachedPoint := q.selectMasked (-q) bit

end CachedPoint

namespace CentredTable

/-- The multiple for a digit: every entry is looked at, and moved in if its number is the
magnitude. -/
def selectMasked (table : CentredTable) (digit : Int8) : CachedPoint :=
  ((table.zipIdx 1).foldl (fun found candidate =>
    found.selectMasked candidate.1 (Bits.equalBit (Bits.magnitude digit) candidate.2.toUInt32))
    CachedPoint.identity).negateMasked (Bits.signBit digit)

/-- **Masks select what conditions do**, in a table with room for its numbers. -/
theorem selectMasked_eq {table : CentredTable} (htable : table.length < 2 ^ 31) (digit : Int8) :
    table.selectMasked digit = table.select digit.toInt := by
  have hmagnitude := Bits.toNat_magnitude digit
  have hsmall : digit.toInt.natAbs ≤ 128 := by
    have hlow := digit.le_toInt
    have hhigh := digit.toInt_lt
    omega
  have hstep : ∀ found : CachedPoint, ∀ candidate ∈ table.zipIdx 1,
      found.selectMasked candidate.1
          (Bits.equalBit (Bits.magnitude digit) candidate.2.toUInt32) =
        found.select candidate.1 (digit.toInt.natAbs == candidate.2) := by
    intro found candidate hcandidate
    obtain ⟨-, hlt, -⟩ := List.mem_zipIdx hcandidate
    have hnumber : candidate.2.toUInt32.toNat = candidate.2 := Nat.mod_eq_of_lt (by omega)
    have hsame : (Bits.magnitude digit == candidate.2.toUInt32) =
        (digit.toInt.natAbs == candidate.2) := by
      rw [Bool.eq_iff_iff, beq_iff_eq, beq_iff_eq, ← UInt32.toNat_inj, hmagnitude, hnumber]
    rw [Bits.equalBit_eq (by omega) (by omega), hsame, CachedPoint.selectMasked_eq]
  unfold selectMasked select entry
  rw [List.foldl_ext _ _ _ hstep, CachedPoint.negateMasked, Bits.signBit_eq,
    CachedPoint.selectMasked_eq]
  rfl

theorem length_ofPoint (p : Point) : (ofPoint p).length = 8 := rfl

variable {p : Point} {P : AffinePoint}

/-- The scan over the whole table gives the multiple of the digit. -/
theorem selectMasked_denotes (hp : p.Denotes P) (digit : Int8) :
    ((ofPoint p).selectMasked digit).Denotes (kept digit.toInt • P) := by
  have hroom : (ofPoint p).length < 2 ^ 31 := by
    rw [length_ofPoint]
    decide
  rw [selectMasked_eq hroom]
  exact select_denotes hp digit.toInt

/-- Adds what the table has for a digit. -/
def addSelected (table : CentredTable) (digit : Int8) (acc : Point) : Point :=
  (acc.addCached (table.selectMasked digit)).extended

end CentredTable

namespace Point

/-- **Both tables hold the multiples they are for.**  Adding what is selected for a digit adds the
multiple by the digit, or nothing beyond 8, and the entries of the other table add and subtract
the odd multiples, whatever the order of the point, and also where the operands are equal or
opposite. -/
theorem tables_exact {p q : Point} (hp : p.Valid) (hq : q.Valid) :
    (∀ digit : Int8, ((CentredTable.ofPoint p).addSelected digit q).Valid ∧
      ((CentredTable.ofPoint p).addSelected digit q).toAffine =
        if digit.toInt.natAbs ≤ 8 then q.toAffine + digit.toInt • p.toAffine else q.toAffine) ∧
      ∀ k < 8, ∃ entry, (OddTable.ofPoint p)[k]? = some entry ∧
        (q.addCached entry).extended.Valid ∧
        (q.addCached entry).extended.toAffine = q.toAffine + (2 * k + 1) • p.toAffine ∧
        (q.subCached entry).extended.Valid ∧
        (q.subCached entry).extended.toAffine = q.toAffine - (2 * k + 1) • p.toAffine := by
  have hP := hp.denotes_toAffine
  have hQ := hq.denotes_toAffine
  constructor
  · intro digit
    have hselected := CentredTable.selectMasked_denotes hP digit
    have hsum : ((CentredTable.ofPoint p).addSelected digit q).Denotes
        (q.toAffine + CentredTable.kept digit.toInt • p.toAffine) :=
      (hQ.addCached hselected).extended
    refine ⟨hsum.valid, ?_⟩
    rw [hsum.toAffine_eq, CentredTable.kept]
    by_cases hkept : digit.toInt.natAbs ≤ 8
    · rw [if_pos hkept, if_pos hkept]
    · rw [if_neg hkept, if_neg hkept, zero_zsmul, add_zero]
  · intro k hk
    have hplace : k < (OddTable.ofPoint p).size := by
      rw [OddTable.size_ofPoint]
      exact hk
    have hfound := Array.getElem?_eq_getElem hplace
    have hentry := OddTable.ofPoint_denotes hP k _ hfound
    have hsum := (hQ.addCached hentry).extended
    have hdifference := (hQ.subCached hentry).extended
    exact ⟨_, hfound, hsum.valid, hsum.toAffine_eq, hdifference.valid, hdifference.toAffine_eq⟩

/-- The base point and its own tables: the digit minus one cancels it, and the digit 9 leaves it. -/
theorem tables_exact_base :
    base.Valid ∧ ((CentredTable.ofPoint base).addSelected (-1) base).toAffine = 0 ∧
      ((CentredTable.ofPoint base).addSelected 9 base).toAffine = base.toAffine := by
  have hbase := base_denotes.valid
  obtain ⟨hcentred, -⟩ := tables_exact hbase hbase
  obtain ⟨-, hcancelled⟩ := hcentred (-1)
  obtain ⟨-, hleft⟩ := hcentred 9
  have hminus : (-1 : Int8).toInt = -1 := rfl
  rw [hminus, if_pos (by decide), neg_one_zsmul, add_neg_cancel] at hcancelled
  rw [if_neg (by decide)] at hleft
  exact ⟨hbase, hcancelled, hleft⟩

end Point

end TwistedEdwards
