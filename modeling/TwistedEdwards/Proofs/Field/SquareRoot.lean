import Mathlib.NumberTheory.LegendreSymbol.Basic
import TwistedEdwards.Field.SquareRoot
import TwistedEdwards.Proofs.Field.Canonical
import TwistedEdwards.Proofs.Field.Power

/-!
# Square roots of ratios as residues

For `u` and `v` not zero the candidate `r` has `v r ^ 2 = u w`, where
`w = (u v ^ 7) ^ ((p - 1) / 4)` is a fourth root of one.  The ratio is a square
exactly when `w` is one or minus one, and then `r`, or `r` times a root of minus
one, is a root of the ratio.

Main statements: `FieldElement.sqrtRatio?_isSome_iff`, `FieldElement.sqrtRatio?_eq_some`
and `FieldElement.sqrtRatio_exact`.
-/

namespace TwistedEdwards

namespace FieldElement

variable {u v : FieldElement} {x y : ZMod fieldOrder}

/-- The limbs of the constant are below the radix. -/
theorem sqrtMinusOne_denotes : Denotes (2 ^ 51) sqrtMinusOne sqrtMinusOne.residue :=
  Bounded.denotes (by decide)

theorem sqrtMinusOne_sq : sqrtMinusOne.residue ^ 2 = -1 := by
  have hdvd : ((sqrtMinusOne.toNat ^ 2 + 1 : Nat) : ZMod fieldOrder) = 0 := by
    rw [ZMod.natCast_eq_zero_iff]
    decide
  rw [Nat.cast_add, Nat.cast_pow, Nat.cast_one] at hdvd
  exact eq_neg_of_add_eq_zero_left hdvd

/-- The candidate as a power of both parts of the ratio. -/
theorem rootCandidate_denotes (hu : Denotes (2 ^ 52) u x) (hv : Denotes (2 ^ 53) v y) :
    Denotes (2 ^ 51 + 2 ^ 13) (rootCandidate u v)
      ((x * y ^ 7) ^ ((fieldOrder - 5) / 8) * (x * y ^ 3)) := by
  have h3 : Denotes (2 ^ 51 + 2 ^ 13) (v.square * v) (y ^ 3) := by
    have hprod := hv.square.mul hv
    rw [← pow_succ] at hprod
    exact hprod
  have h7 : Denotes (2 ^ 51 + 2 ^ 13) ((v.square * v).square * v) (y ^ 7) := by
    have hprod := h3.square.mul hv
    rw [← pow_mul, ← pow_succ] at hprod
    exact hprod
  exact (hu.mul h7).rootPower.mul (hu.mul h3)

/-- The square of the candidate misses the ratio by a fourth root of one. -/
theorem candidate_sq (x y : ZMod fieldOrder) :
    ((x * y ^ 7) ^ ((fieldOrder - 5) / 8) * (x * y ^ 3)) ^ 2 * y =
      x * (x * y ^ 7) ^ ((fieldOrder - 1) / 4) := by
  have hexp : (x * y ^ 7) ^ ((fieldOrder - 1) / 4) =
      ((x * y ^ 7) ^ ((fieldOrder - 5) / 8)) ^ 2 * (x * y ^ 7) := by
    have hquarter : (fieldOrder - 1) / 4 = (fieldOrder - 5) / 8 * 2 + 1 := by decide
    rw [hquarter, pow_succ, pow_mul]
  rw [hexp]
  ring

/-- A ratio is a square exactly when that root of one is one or minus one. -/
theorem exists_root_iff (hx : x ≠ 0) (hy : y ≠ 0) :
    (∃ r, y * r ^ 2 = x) ↔
      (x * y ^ 7) ^ ((fieldOrder - 1) / 4) = 1 ∨ (x * y ^ 7) ^ ((fieldOrder - 1) / 4) = -1 := by
  have hprod : x * y ^ 7 ≠ 0 := mul_ne_zero hx (pow_ne_zero 7 hy)
  have hexp : (x * y ^ 7) ^ (fieldOrder / 2) = ((x * y ^ 7) ^ ((fieldOrder - 1) / 4)) ^ 2 := by
    have hhalf : fieldOrder / 2 = (fieldOrder - 1) / 4 * 2 := by decide
    rw [hhalf, pow_mul]
  rw [← sq_eq_one_iff, ← hexp, ← ZMod.euler_criterion fieldOrder hprod]
  constructor
  · rintro ⟨r, hr⟩
    exact ⟨r * y ^ 4, by rw [← hr]; ring⟩
  · rintro ⟨s, hs⟩
    refine ⟨s / y ^ 4, ?_⟩
    field_simp
    rw [pow_two, ← hs]
    ring

/-- Of two opposite residues that are not zero exactly one is even. -/
theorem val_neg_mod_two {r : ZMod fieldOrder} (hr : r ≠ 0) :
    (-r).val % 2 = 1 - r.val % 2 := by
  have hne : NeZero r := ⟨hr⟩
  have hlt := ZMod.val_lt r
  have hodd : fieldOrder % 2 = 1 := by decide
  rw [ZMod.val_neg_of_ne_zero]
  omega

/-- Squares have one root of each parity. -/
theorem eq_of_sq_eq {r s : ZMod fieldOrder} (hsq : r ^ 2 = s ^ 2)
    (hparity : r.val % 2 = s.val % 2) : r = s := by
  rcases sq_eq_sq_iff_eq_or_eq_neg.mp hsq with hsame | hopposite
  · exact hsame
  · by_cases hs : s = 0
    · rw [hopposite, hs, neg_zero]
    · have hother := val_neg_mod_two hs
      rw [← hopposite] at hother
      omega

/-- Negating a root that is odd makes it even. -/
theorem Denotes.negateIf_isNegative {f : FieldElement} {r : ZMod fieldOrder}
    (hf : Denotes (2 ^ 52) f r) :
    ∃ s, Denotes (2 ^ 52) (f.negateIf f.isNegative) s ∧ s ^ 2 = r ^ 2 ∧ s.val % 2 = 0 := by
  have hparity := hf.isNegative_iff
  cases hbit : f.isNegative with
  | false =>
      refine ⟨r, hf, rfl, ?_⟩
      rw [hbit] at hparity
      have hmod := Nat.mod_two_eq_zero_or_one r.val
      simpa using hparity
  | true =>
      have hodd : r.val % 2 = 1 := hparity.mp hbit
      have hne : r ≠ 0 := by
        intro hzero
        rw [hzero, ZMod.val_zero] at hodd
        omega
      refine ⟨-r, hf.neg.mono, neg_sq r, ?_⟩
      rw [val_neg_mod_two hne, hodd]

variable (hu : Denotes (2 ^ 52) u x) (hv : Denotes (2 ^ 53) v y)

include hu hv in
/-- The three comparisons tell the fourth roots of one apart. -/
theorem root_tests :
    let w := (x * y ^ 7) ^ ((fieldOrder - 1) / 4)
    let check := (rootCandidate u v).square * v
    (check.same u = true ↔ x * w = x) ∧ (check.same (-u) = true ↔ x * w = -x) ∧
      (check.same (-u * sqrtMinusOne) = true ↔ x * w = -x * sqrtMinusOne.residue) := by
  intro w check
  have hcheck : Denotes (2 ^ 51 + 2 ^ 13) check (x * w) := by
    rw [← candidate_sq]
    exact (rootCandidate_denotes hu hv).square.mul hv
  exact ⟨hcheck.same_iff hu, hcheck.same_iff hu.neg,
    hcheck.same_iff (hu.neg.mul sqrtMinusOne_denotes)⟩

include hu hv in
/-- **Completeness.**  A root is found exactly when the denominator is not zero and there is
one. -/
theorem sqrtRatio?_isSome_iff :
    (sqrtRatio? u v).isSome = true ↔ y ≠ 0 ∧ ∃ r, y * r ^ 2 = x := by
  obtain ⟨hcorrect, hflipped, -⟩ := root_tests hu hv
  have hnonzero := hv.isNonzero_iff
  have hsome : (sqrtRatio? u v).isSome = true ↔
      (((rootCandidate u v).square * v).same u = true ∨
        ((rootCandidate u v).square * v).same (-u) = true) ∧ v.isNonzero = true := by
    rw [sqrtRatio?]
    exact Option.isSome_ite.trans (by rw [Bool.and_eq_true, Bool.or_eq_true])
  rw [hsome, hcorrect, hflipped, hnonzero, and_comm]
  refine and_congr_right fun hy => ?_
  by_cases hx : x = 0
  · simp [hx]
  · rw [exists_root_iff hx hy, mul_eq_left₀ hx, ← mul_neg_one x, mul_right_inj' hx]

/-- A root of minus one is not minus one. -/
theorem one_add_sqrtMinusOne_ne_zero : 1 + sqrtMinusOne.residue ≠ 0 := by
  intro hzero
  have hsq := sqrtMinusOne_sq
  have htwo : ((2 : Nat) : ZMod fieldOrder) = 0 := by
    push_cast
    linear_combination hsq - (sqrtMinusOne.residue - 1) * hzero
  rw [ZMod.natCast_eq_zero_iff] at htwo
  exact absurd htwo (by decide)

include hu hv in
/-- The root that the tests select squares to the ratio. -/
theorem selected_root (htests : ((rootCandidate u v).square * v).same u = true ∨
      ((rootCandidate u v).square * v).same (-u) = true) :
    ∃ s, Denotes (2 ^ 52) (select (rootCandidate u v) (rootCandidate u v * sqrtMinusOne)
        (((rootCandidate u v).square * v).same (-u) ||
          ((rootCandidate u v).square * v).same (-u * sqrtMinusOne))) s ∧ y * s ^ 2 = x := by
  obtain ⟨hcorrect, hflipped, htwist⟩ := root_tests hu hv
  have hcandidate := rootCandidate_denotes hu hv
  have hsquare := candidate_sq x y
  have hturned := hcandidate.mul sqrtMinusOne_denotes
  generalize (x * y ^ 7) ^ ((fieldOrder - 5) / 8) * (x * y ^ 3) = c at hcandidate hsquare hturned
  generalize (x * y ^ 7) ^ ((fieldOrder - 1) / 4) = w at hcorrect hflipped htwist hsquare
  by_cases hneg : ((rootCandidate u v).square * v).same (-u) = true
  · -- the candidate squares to the negative of the ratio
    have hw := hflipped.mp hneg
    refine ⟨c * sqrtMinusOne.residue, ?_, ?_⟩
    · rw [hneg, Bool.true_or]
      exact hturned.mono
    · linear_combination (c ^ 2 * y) * sqrtMinusOne_sq - hsquare - hw
  · -- it squares to the ratio, and then the last test fails
    have hw := hcorrect.mp (htests.resolve_right hneg)
    have hlast : ((rootCandidate u v).square * v).same (-u * sqrtMinusOne) = false := by
      rw [Bool.eq_false_iff]
      intro hturn
      have hzero : x * (1 + sqrtMinusOne.residue) = 0 := by
        linear_combination htwist.mp hturn - hw
      have hx : x = 0 := (mul_eq_zero.mp hzero).resolve_right one_add_sqrtMinusOne_ne_zero
      exact hneg (hflipped.mpr (by rw [hx]; ring))
    refine ⟨c, ?_, ?_⟩
    · rw [Bool.eq_false_iff.mpr hneg, hlast]
      exact hcandidate.mono
    · linear_combination hsquare + hw

include hu hv in
/-- **Soundness.**  What is found is the even root of the ratio. -/
theorem sqrtRatio?_eq_some {f : FieldElement} (h : sqrtRatio? u v = some f) :
    ∃ r, Denotes (2 ^ 52) f r ∧ y * r ^ 2 = x ∧ r.val % 2 = 0 := by
  rw [sqrtRatio?] at h
  obtain ⟨htests, hroot⟩ := Option.ite_none_right_eq_some.mp h
  obtain rfl := Option.some.inj hroot
  rw [Bool.and_eq_true, Bool.or_eq_true] at htests
  obtain ⟨s, hs, hroot⟩ := selected_root hu hv htests.1
  obtain ⟨r, hr, hsq, heven⟩ := hs.negateIf_isNegative
  exact ⟨r, hr, by rw [hsq, hroot], heven⟩

/-- A ratio is a square exactly when there is a root. -/
theorem isSquare_div_iff (hy : y ≠ 0) : IsSquare (x / y) ↔ ∃ r, y * r ^ 2 = x := by
  rw [isSquare_iff_exists_sq]
  refine exists_congr fun r => ?_
  rw [div_eq_iff hy, mul_comm y, eq_comm]

/-- **The square root of a ratio** is found exactly when the denominator is not zero and the ratio
is a square, zero included.  It is the one root whose canonical number is even. -/
theorem sqrtRatio_exact (hu : u.Bounded (2 ^ 52)) (hv : v.Bounded (2 ^ 52)) :
    ((sqrtRatio? u v).isSome = true ↔ v.residue ≠ 0 ∧ IsSquare (u.residue / v.residue)) ∧
      (v.residue = 0 → sqrtRatio? u v = none) ∧
      ∀ f, sqrtRatio? u v = some f →
        v.residue * f.residue ^ 2 = u.residue ∧ f.isNegative = false ∧
          LittleEndian.value f.toOctets.toList % 2 = 0 ∧
          ∀ r, v.residue * r ^ 2 = u.residue → r.val % 2 = 0 → r = f.residue := by
  have hfound := sqrtRatio?_isSome_iff hu.denotes hv.denotes.mono
  refine ⟨?_, ?_, ?_⟩
  · rw [hfound]
    exact and_congr_right fun hy => (isSquare_div_iff hy).symm
  · intro hzero
    rw [← Option.not_isSome_iff_eq_none, hfound]
    exact fun h => h.1 hzero
  · intro f hf
    have hy : v.residue ≠ 0 := (hfound.mp (Option.isSome_of_eq_some hf)).1
    obtain ⟨s, hs, hroot, heven⟩ := sqrtRatio?_eq_some hu.denotes hv.denotes.mono hf
    have hnegative := hs.isNegative_iff
    rw [hs.residue_eq, hs.value_toOctets, Bool.eq_false_iff, Ne, hnegative]
    refine ⟨hroot, by omega, heven, ?_⟩
    intro r hr hreven
    have hsq : r ^ 2 = s ^ 2 := mul_left_cancel₀ hy (hr.trans hroot.symm)
    exact eq_of_sq_eq hsq (hreven.trans heven.symm)

/-- The even root of four is two. -/
theorem sqrtRatio_exact_four :
    (⟨4, 0, 0, 0, 0⟩ : FieldElement).Bounded (2 ^ 52) ∧ one.Bounded (2 ^ 52) ∧
      ∃ f, sqrtRatio? ⟨4, 0, 0, 0, 0⟩ one = some f ∧ f.residue = 2 := by
  have hu : (⟨4, 0, 0, 0, 0⟩ : FieldElement).Bounded (2 ^ 52) := by decide
  have hv : one.Bounded (2 ^ 52) := by decide
  have hfour : residue ⟨4, 0, 0, 0, 0⟩ = 2 ^ 2 := by rfl
  have hone : residue one = 1 := one_denotes.residue_eq
  obtain ⟨hfound, -, hroot⟩ := sqrtRatio_exact hu hv
  rw [hfour, hone, div_one] at hfound
  obtain ⟨f, hf⟩ := Option.isSome_iff_exists.mp (hfound.mpr ⟨one_ne_zero, IsSquare.sq 2⟩)
  obtain ⟨-, -, -, hunique⟩ := hroot f hf
  refine ⟨hu, hv, f, hf, (hunique 2 ?_ ?_).symm⟩
  · rw [hfour, hone, one_mul]
  · decide

end FieldElement

end TwistedEdwards
