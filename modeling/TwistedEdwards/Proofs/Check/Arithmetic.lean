import Mathlib.NumberTheory.LegendreSymbol.QuadraticReciprocity
import TwistedEdwards.Proofs.Check.Trials
import TwistedEdwards.Proofs.Digits.NonAdjacent
import TwistedEdwards.Proofs.Field.Octets
import TwistedEdwards.Proofs.Scalar.Inverse

/-!
# Laws of arithmetic that are checked

The laws are those of the two prime fields, for operands as they are drawn.  Of a ratio that
is a square twice the ratio is none, since two is no square modulo the prime.  The digits of a
scalar put together from the top down are the scalar.  Only an inverse can be missing, and
only that of zero.

Main statements: `FieldElement.checks_pass`, `FieldElement.rootChecks_pass`,
`Scalar.checks_pass` and `Scalar.digitChecks_pass`.
-/

namespace TwistedEdwards

open Generator

/-- The prime is five modulo eight. -/
theorem not_isSquare_two : ¬IsSquare (2 : ZMod fieldOrder) := by
  rw [ZMod.exists_sq_eq_two_iff (by decide)]
  decide

namespace FieldElement

variable {a b c x v : FieldElement} {X Y Z : ZMod fieldOrder}

/-- The field laws hold for all that is drawn, zero included. -/
theorem checks_pass (label : String) (ha : Denotes (2 ^ 51) a X) (hb : Denotes (2 ^ 51) b Y)
    (hc : Denotes (2 ^ 51) c Z) : AllPass (checks label a b c) := by
  have hdistributive : (a * (b + c)).same (a * c + a * b) = true := by
    rw [(ha.mul (hb.add hc)).same_iff ((ha.mul hc).add (ha.mul hb))]
    ring
  have hdifference : (a - b + b).same a = true := by
    rw [((ha.sub hb).add hb).same_iff ha]
    exact sub_add_cancel X Y
  have hinverse : a.isNonzero = true → (a.inverse * a).same one = true := by
    rw [ha.isNonzero_iff, (ha.inverse.mul ha).same_iff one_denotes]
    exact inv_mul_cancel₀
  have hbound : a.Bounded (2 ^ 64 - 2 ^ 13 + 1) := ha.bounded.mono (by decide)
  have hstable := (toOctets_ofOctets_toOctets hbound).symm
  refine .append (.append (.cons hdistributive (.cons hdifference .nil)) ?_)
    (.cons_same (congrArg Vector.toList hstable) (.cons ?_ .nil))
  · split
    · next hnonzero => exact .cons (hinverse hnonzero) .nil
    · exact .nil
  · rw [topBit_toOctets hbound]
    rfl

/-- Elements are drawn as strings, so their limbs are below the radix. -/
theorem always_trial (i : Nat) : Always (trial i) AllPass :=
  always_fieldElement.bind fun _ ha => always_fieldElement.bind fun _ hb =>
    always_fieldElement.bind fun _ hc =>
      Always.pure (checks_pass _ ha.denotes hb.denotes hc.denotes)

/-- There is no root exactly where the denominator vanishes or the ratio is not a square. -/
theorem sqrtRatio?_isNone_iff {u : FieldElement} (hu : Denotes (2 ^ 52) u X)
    (hv : Denotes (2 ^ 53) v Y) :
    (sqrtRatio? u v).isNone = true ↔ ¬(Y ≠ 0 ∧ ∃ r, Y * r ^ 2 = X) := by
  rw [← sqrtRatio?_isSome_iff hu hv, ← Option.not_isSome, Bool.not_eq_true', Bool.eq_false_iff]

section Ratio

variable (hx : Denotes (2 ^ 51) x X) (hv : Denotes (2 ^ 51) v Y)
include hx hv

/-- The even root of a square ratio is found. -/
theorem sqrtRatio?_square (hY : Y ≠ 0) :
    ∃ f, sqrtRatio? (x.square * v) v = some f ∧ (f.square * v).same (x.square * v) = true ∧
      f.isNegative = false := by
  have hu := hx.square.mul hv
  have hfound : (sqrtRatio? (x.square * v) v).isSome = true := by
    rw [sqrtRatio?_isSome_iff hu.mono hv.mono]
    exact ⟨hY, X, mul_comm _ _⟩
  obtain ⟨f, hf⟩ := Option.isSome_iff_exists.mp hfound
  obtain ⟨r, hr, hsquare, heven⟩ := sqrtRatio?_eq_some hu.mono hv.mono hf
  refine ⟨f, hf, ?_, ?_⟩
  · rw [(hr.square.mul hv).same_iff hu, mul_comm]
    exact hsquare
  · rw [Bool.eq_false_iff, Ne, hr.isNegative_iff, heven]
    exact zero_ne_one

/-- Twice a square ratio has no root, for the root of it would be one of two. -/
theorem sqrtRatio?_twice (hX : X ≠ 0) (hY : Y ≠ 0) :
    (sqrtRatio? (x.square * v * (one + one)) v).isNone = true := by
  have htwice := (hx.square.mul hv).mul (one_denotes.add one_denotes)
  rw [sqrtRatio?_isNone_iff htwice.mono hv.mono]
  rintro ⟨-, r, hr⟩
  refine not_isSquare_two ⟨r / X, ?_⟩
  field_simp
  apply mul_left_cancel₀ hY
  linear_combination -hr

/-- A square ratio has its even root, twice the ratio has none, and nothing has one over zero. -/
theorem rootChecks_pass (label : String) : AllPass (rootChecks label x v) := by
  unfold rootChecks
  split
  · exact .nil
  · next hoperands =>
    rw [Bool.or_eq_true, not_or, Bool.not_eq_true, Bool.not_eq_true, Bool.not_eq_false',
      Bool.not_eq_false', hv.isNonzero_iff, hx.isNonzero_iff] at hoperands
    obtain ⟨hY, hX⟩ := hoperands
    obtain ⟨f, hf, hroot, heven⟩ := sqrtRatio?_square hx hv hY
    have hnone := sqrtRatio?_twice hx hv hX hY
    have htwice := (hx.square.mul hv).mul (one_denotes.add one_denotes)
    have hzero : (sqrtRatio? (x.square * v * (one + one)) zero).isNone = true := by
      rw [sqrtRatio?_isNone_iff htwice.mono zero_denotes.mono]
      exact fun h => h.1 rfl
    have hsign : (!f.isNegative) = true := by rw [heven, Bool.not_false]
    dsimp only
    rw [hf]
    exact .cons rfl (.cons hroot (.cons hsign (.cons hnone (.cons hzero .nil))))

end Ratio

/-- A square has a root, and so has its product with the denominator. -/
theorem always_rootTrial (i : Nat) : Always (rootTrial i) AllPass :=
  always_fieldElement.bind fun _ hx => always_fieldElement.bind fun _ hv =>
    Always.pure (rootChecks_pass hx.denotes hv.denotes _)

end FieldElement

namespace Scalar

variable {a b c s radix : Scalar}

/-- The zero bytes add nothing. -/
theorem value_padded (bs : Octets 32) :
    LittleEndian.value (padded bs).toList = LittleEndian.value bs.toList := by
  have hzeros : LittleEndian.value (Vector.replicate 32 0 : Octets 32).toList = 0 := by decide
  rw [padded, Vector.toList_append, LittleEndian.value_append, hzeros, Nat.mul_zero, Nat.add_zero]

/-- The laws hold, and only zero has no inverse. -/
theorem checks_pass (label : String) (ha : a.Reduced) (hb : b.Reduced) (hc : c.Reduced)
    (raw : Octets 32) :
    PassBut (fun check => check.label = label ++ " invert" ∧ a = zero)
      (checks label a b c raw) := by
  have hinverse : (a.inverse?.any fun inverse => inverse * a == one) = true ∨ a = zero := by
    obtain ⟨-, hzero⟩ | ⟨t, hsome, hne, ht⟩ := ha.denotes.inverse?_eq
    · exact .inr ((ha.denotes.eq_iff zero_denotes).mpr hzero)
    · rw [hsome, Option.any_some, (ht.mul ha.denotes).beq_iff one_denotes]
      exact .inl (inv_mul_cancel₀ hne)
  have hwide : ofOctets raw = ofWide (padded raw) := by
    rw [(ofOctets_denotes raw).eq_iff (ofWide_denotes (padded raw)), value_padded]
  have ha := ha.denotes
  have hb := hb.denotes
  have hc := hc.denotes
  refine .cons ?_ (.cons ?_ (.cons ?_ (.cons ?_ (.cons ?_ (.cons ?_ (.cons_excused ?_
    (.cons ?_ (.cons ?_ .nil))))))))
  · rw [(ha.add hb).beq_iff (hb.add ha)]
    exact add_comm _ _
  · rw [(ha.mul hb).beq_iff (hb.mul ha)]
    exact mul_comm _ _
  · rw [(ha.mul (hb.add hc)).beq_iff ((ha.mul hb).add (ha.mul hc))]
    exact mul_add _ _ _
  · rw [((ha.sub hb).add hb).beq_iff ha]
    exact sub_add_cancel _ _
  · rw [(ha.add ha.neg).isZero_iff]
    exact add_neg_cancel _
  · rw [ha.square.beq_iff (ha.mul ha)]
    exact pow_two _
  · exact hinverse.imp_right fun hzero => ⟨rfl, hzero⟩
  · rw [ha.reduced.ofCanonical?_toOctets]
    exact beq_self_eq_true _
  · exact beq_iff_eq.mpr hwide

/-- Only the inverse of the first scalar of a trial can be missing. -/
theorem trial_passBut (i : Nat) (g : Generator) :
    PassBut (fun check => check.label = "scalar[" ++ toString i ++ "]" ++ " invert" ∧
      g.drawn scalar = zero) (g.drawn (trial i)) :=
  checks_pass _ (always_scalar g) (always_scalar _) (always_scalar _) _

/-- A digit as a scalar stands for the digit, negative ones too. -/
theorem ofDigit_denotes {d : Int} (hd : d.natAbs < 2 ^ 64) : (ofDigit d).Denotes d := by
  have hword : ∀ {n : Nat}, n < 2 ^ 64 → (ofWord n.toUInt64).Denotes n := by
    intro n hn
    refine (ofWord_denotes n.toUInt64).of_eq ?_
    rw [Nat.toUInt64, UInt64.toNat_ofNat_of_lt' hn]
  unfold ofDigit
  split
  · next hsign =>
    refine (hword (by omega)).of_eq ?_
    rw [← Int.cast_natCast, Int.toNat_of_nonneg hsign]
  · next hsign =>
    refine (hword (by omega)).neg.of_eq ?_
    rw [← Int.cast_natCast, Int.toNat_of_nonneg (by omega), Int.cast_neg, neg_neg]

/-- Digits put together from the top down are their number. -/
theorem ofRow_denotes {r : Int} (hradix : radix.Denotes r) (row : ByteRow) :
    (ofRow radix row).Denotes (Digits.value r row.toDigits : Int) := by
  have hsmall : ∀ d ∈ row.toDigits, d.natAbs < 2 ^ 64 := by
    intro d hd
    obtain ⟨e, -, rfl⟩ := List.mem_map.mp hd
    have hlow := e.le_toInt
    have hhigh := e.toInt_lt
    omega
  unfold ofRow
  generalize row.toDigits = digits at hsmall
  induction digits with
  | nil => exact zero_denotes.of_eq Int.cast_zero.symm
  | cons d rest ih =>
      obtain ⟨hd, hrest⟩ := List.forall_mem_cons.mp hsmall
      refine (((ih hrest).mul hradix).add (ofDigit_denotes hd)).of_eq ?_
      rw [Digits.value, Int.cast_add, Int.cast_mul]
      ring

/-- A row of small digits that stand for the number of a scalar is put together to the scalar. -/
theorem ofRow_eq {r : Int} (hradix : radix.Denotes r) (hs : s.Reduced) {digits : List Int}
    (hsmall : ∀ d ∈ digits, -2 ^ 7 ≤ d ∧ d < 2 ^ 7) (hvalue : Digits.value r digits = s.toNat) :
    ofRow radix (ByteRow.ofDigits digits) = s := by
  have hrow := ofRow_denotes hradix (ByteRow.ofDigits digits)
  rw [ByteRow.toDigits_ofDigits hsmall, hvalue, Int.cast_natCast] at hrow
  exact (hrow.eq_iff hs.denotes).mpr rfl

section Expansions

variable (hs : s.Reduced)
include hs

/-- The number of a scalar is below what the expansions take. -/
theorem Reduced.value_lt_room : LittleEndian.value s.toOctets.toList < 2 ^ 255 :=
  hs.value_toOctets_lt.trans (by decide)

/-- The digits of radix 16 put together are the scalar again. -/
theorem Reduced.ofRow_radix16 : ofRow (ofWord 16) s.radix16 = s := by
  have hsixteen : (ofWord 16).Denotes ((16 : Int) : ZMod groupOrder) := ofWord_denotes 16
  apply ofRow_eq hsixteen hs (Digits.radix16_fits s.toOctets)
  rw [Digits.value_radix16, hs.value_toOctets]

theorem Reduced.ofRow_nonAdjacent {w : Nat} (hw : 2 ≤ w) (hw' : w ≤ 8) :
    ofRow (ofWord 2) (ByteRow.ofDigits (Digits.nonAdjacent w s.toOctets)) = s := by
  have htwo : (ofWord 2).Denotes ((2 : Int) : ZMod groupOrder) := ofWord_denotes 2
  apply ofRow_eq htwo hs (Digits.nonAdjacent_fits s.toOctets hw hw')
  rw [Digits.value_nonAdjacent_of_lt hs.value_lt_room hw (by omega), hs.value_toOctets]

/-- Both expansions are in range and stand for the scalar. -/
theorem digitChecks_pass (label : String) {w : Nat} (hw : 2 ≤ w) (hw' : w ≤ 8) :
    AllPass (digitChecks label s w) := by
  refine .cons (beq_self_eq_true _) (.cons (beq_self_eq_true _) (.cons ?_ (.cons ?_
    (.cons ?_ .nil))))
  · rw [radix16, ByteRow.toDigits_ofDigits (Digits.radix16_fits s.toOctets), List.all_eq_true]
    intro d hd
    rw [Bool.and_eq_true, decide_eq_true_eq, decide_eq_true_eq]
    exact Digits.radix16_centred hs.value_lt_room d hd
  · exact beq_iff_eq.mpr hs.ofRow_radix16
  · rw [nonAdjacentForm, if_pos ⟨hw, hw'⟩]
    exact beq_iff_eq.mpr (hs.ofRow_nonAdjacent hw hw')

end Expansions

/-- Every expansion of a drawn scalar gives it back. -/
theorem always_digitTrial (i : Nat) : Always (digitTrial i) AllPass := by
  refine always_scalar.bind fun s hs => (always_true next).bind fun r _ => Always.pure ?_
  have hwidth : (r % 7).toNat < 7 := by
    rw [UInt64.toNat_mod]
    exact Nat.mod_lt _ (by decide)
  exact digitChecks_pass hs _ (by omega) (by omega)

end Scalar

end TwistedEdwards
