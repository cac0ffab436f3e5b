import TwistedEdwards.Multiscalar.Interleaved
import TwistedEdwards.Proofs.Digits.NonAdjacent
import TwistedEdwards.Proofs.Multiscalar.Combination
import TwistedEdwards.Proofs.Point.Table

/-!
# The interleaved sum

The positions start where the longest form does and leave out zeros only, so the sum is the
combination with the numbers of the non-adjacent forms.

Main statements: `Interleaved.sum_denotes` and `Interleaved.formValue_eq_counted`.
-/

namespace TwistedEdwards

open Multiscalar

namespace Interleaved

/-- The number of the digits of the non-adjacent form. -/
def formValue (scalar : Octets 32) : Int :=
  Digits.value 2 (Digits.nonAdjacent nonAdjacentWidth scalar)

/-- What a scalar counts for: its number, without a carry that its form leaves pending. -/
def counted (scalar : Octets 32) : Int :=
  if Digits.pendingCarry nonAdjacentWidth scalar = 1 then
    LittleEndian.value scalar.toList - 2 ^ 256
  else LittleEndian.value scalar.toList

/-- The positions below 256 are all that is counted. -/
theorem formValue_eq_counted (scalar : Octets 32) : formValue scalar = counted scalar := by
  rw [formValue, counted]
  rcases Digits.value_nonAdjacent_cases scalar (by decide : 2 ≤ nonAdjacentWidth) (by decide) with
    ⟨hnone, hvalue⟩ | ⟨hone, hvalue⟩
  · rw [hvalue, hnone, if_neg (by decide)]
  · rw [hvalue, if_pos hone]

/-- Below `2 ^ 255` the form stands for the number. -/
theorem formValue_eq {scalar : Octets 32} (hscalar : LittleEndian.value scalar.toList < 2 ^ 255) :
    formValue scalar = LittleEndian.value scalar.toList :=
  Digits.value_nonAdjacent_of_lt hscalar (by decide) (by decide)

/-- Below `2 ^ 255` nothing is left out. -/
theorem counted_eq {scalar : Octets 32} (hscalar : LittleEndian.value scalar.toList < 2 ^ 255) :
    counted scalar = LittleEndian.value scalar.toList := by
  rw [← formValue_eq_counted, formValue_eq hscalar]

/-- The digit of a form at a position. -/
def formDigit (scalar : Octets 32) (pos : Nat) : Int :=
  (Digits.nonAdjacent nonAdjacentWidth scalar).getD pos 0

/-- A digit of a form is zero, or odd and below sixteen. -/
theorem formDigit_range (scalar : Octets 32) (pos : Nat) :
    formDigit scalar pos = 0 ∨
      formDigit scalar pos % 2 = 1 ∧ (formDigit scalar pos).natAbs < 16 :=
  Digits.forall_getD (Or.inl rfl) (Digits.nonAdjacent_range scalar (by decide) (by decide)) pos

theorem digit_prepare (term : Term) (pos : Nat) :
    (prepare term).digits.digit pos = formDigit term.scalar pos :=
  ByteRow.digit_ofDigits (Digits.nonAdjacent_fits term.scalar (by decide) (by decide)) pos

/-- The positions reach every digit that is not zero, and no form is longer than they can be. -/
theorem foldl_raise_spec (terms : List Prepared) (top : Nat) :
    top ≤ terms.foldl (fun top term => raise term.digits top 256) top ∧
      (∀ term ∈ terms, term.digits.significant 256 ≤
        terms.foldl (fun top term => raise term.digits top 256) top) ∧
      (top ≤ 256 → terms.foldl (fun top term => raise term.digits top 256) top ≤ 256) := by
  induction terms generalizing top with
  | nil =>
      refine ⟨Nat.le_refl top, ?_, id⟩
      intro term hterm
      cases hterm
  | cons first rest ih =>
      have hfirst := raise_eq first.digits top 256
      have hlong := first.digits.significant_le 256
      obtain ⟨htop, hrest, hmost⟩ := ih (raise first.digits top 256)
      rw [List.foldl_cons]
      refine ⟨by omega, ?_, fun hle => hmost (by omega)⟩
      intro term hterm
      rcases List.mem_cons.mp hterm with rfl | hterm
      · omega
      · exact hrest term hterm

theorem positions_le (terms : List Prepared) : positions terms ≤ 256 :=
  (foldl_raise_spec terms 0).2.2 (Nat.zero_le 256)

/-- From the positions on every digit is zero. -/
theorem formDigit_eq_zero {terms : List Term} {term : Term} (hterm : term ∈ terms) {pos : Nat}
    (hpos : positions (terms.map prepare) ≤ pos) (hlt : pos < 256) :
    formDigit term.scalar pos = 0 := by
  have hsignificant := (foldl_raise_spec (terms.map prepare) 0).2.1 (prepare term)
    (List.mem_map_of_mem hterm)
  rw [← digit_prepare]
  exact ByteRow.digit_eq_zero_of_significant_le _ (hsignificant.trans hpos) hlt

/-- The digits below the positions stand for the whole form. -/
theorem sum_formDigit {terms : List Term} {term : Term} (hterm : term ∈ terms) :
    ∑ i ∈ Finset.range (positions (terms.map prepare)),
      (2 : Int) ^ i * formDigit term.scalar i = formValue term.scalar := by
  rw [formValue, Digits.value_eq_sum, Digits.length_nonAdjacent]
  apply Finset.sum_subset
  · exact Finset.range_subset_range.mpr (positions_le _)
  · intro i hi hout
    rw [Finset.mem_range] at hi hout
    have hzero := formDigit_eq_zero hterm (Nat.le_of_not_lt hout) hi
    rw [hzero, mul_zero]

variable {terms : List Term} (hterms : ∀ term ∈ terms, term.point.Valid)

include hterms in
/-- One position. -/
theorem position_denotes (pos : Nat) {acc : Point} {A : AffinePoint} (hacc : acc.Denotes A) :
    (position (terms.map prepare) pos acc).Denotes
      (2 • A + combination (fun scalar => formDigit scalar pos) terms) := by
  rw [position, List.foldl_map, two_nsmul]
  apply foldl_denotes _ hacc.double
  intro term hterm acc A hacc
  rw [addDigit, digit_prepare]
  exact OddTable.addDigit_denotes hacc (hterms term hterm).denotes_toAffine
    (formDigit_range term.scalar pos)

include hterms in
/-- The interleaved sum is the combination with the numbers of the forms. -/
theorem sum_denotes : (sum terms).Denotes (combination formValue terms) := by
  have hrun := run_denotes 2 (positions (terms.map prepare))
    (fun pos _ acc A hacc _ => position_denotes hterms pos hacc)
  rw [Nat.cast_ofNat, combination_congr (fun term hterm => sum_formDigit hterm)] at hrun
  exact hrun

end Interleaved

end TwistedEdwards
