import TwistedEdwards.Proofs.Digits.Radix16
import TwistedEdwards.Proofs.Multiscalar.Combination
import TwistedEdwards.Proofs.Point.Table

/-!
# The uniform sum

A position adds for each term the multiple by its digit, or nothing for a digit that the
table does not keep, so the sum is the combination with the numbers of the kept digits.
Only a top digit above 8 is not kept, and below `2 ^ 255` there is none.

Main statements: `Uniform.sum_denotes` and `Uniform.keptValue_eq_counted`.
-/

namespace TwistedEdwards

open Multiscalar

namespace Uniform

/-- The number of the digits that the table keeps. -/
def keptValue (scalar : Octets 32) : Int :=
  Digits.value 16 ((Digits.radix16 scalar).map CentredTable.kept)

/-- The value that is kept as a sum over the places. -/
theorem keptValue_eq_sum (scalar : Octets 32) :
    keptValue scalar = ∑ i ∈ Finset.range 64,
      (16 : Int) ^ i * CentredTable.kept ((Digits.radix16 scalar).getD i 0) := by
  rw [keptValue, Digits.value_eq_sum, List.length_map, Digits.length_radix16]
  apply Finset.sum_congr rfl
  intro i _
  rw [List.getD_eq_getElem?_getD, List.getElem?_map, List.getD_eq_getElem?_getD]
  cases (Digits.radix16 scalar)[i]? with
  | none => rfl
  | some d => rfl

/-- What a scalar counts for: its number, without a top digit that the table does not keep. -/
def counted (scalar : Octets 32) : Int :=
  if Digits.topDigit scalar ≤ 8 then LittleEndian.value scalar.toList
  else LittleEndian.value scalar.toList - Digits.topDigit scalar * 16 ^ 63

/-- Only the top digit can be left out. -/
theorem keptValue_eq_counted (scalar : Octets 32) : keptValue scalar = counted scalar := by
  obtain ⟨low, hsplit, hlen, hlow, hleast, -⟩ := Digits.radix16_split scalar
  have hvalue := Digits.value_radix16 scalar
  have hkept : low.map CentredTable.kept = low := by
    refine (List.map_congr_left ?_).trans (List.map_id low)
    intro d hd
    have hrange := hlow d hd
    exact if_pos (by omega)
  rw [hsplit, Digits.value_append, hlen] at hvalue
  rw [keptValue, hsplit, List.map_append, hkept, List.map_singleton, Digits.value_append, hlen,
    counted, ← hvalue]
  simp only [Digits.value, CentredTable.kept]
  by_cases htop : Digits.topDigit scalar ≤ 8
  · rw [if_pos (by omega), if_pos htop]
  · rw [if_neg (by omega), if_neg htop]
    ring

/-- Below `2 ^ 255` the kept digits are all of them. -/
theorem keptValue_eq {scalar : Octets 32} (hscalar : LittleEndian.value scalar.toList < 2 ^ 255) :
    keptValue scalar = LittleEndian.value scalar.toList := by
  rw [keptValue_eq_counted, counted, if_pos (Digits.topDigit_le hscalar)]

/-- The row of a term holds its digits as they are. -/
theorem digit_prepare (term : Term) (pos : Nat) :
    (prepare term).digits.digit pos = (Digits.radix16 term.scalar).getD pos 0 :=
  ByteRow.digit_ofDigits (Digits.radix16_fits term.scalar) pos

variable {terms : List Term} (hterms : ∀ term ∈ terms, term.point.Valid)

include hterms in
/-- One position. -/
theorem position_denotes (pos : Nat) {acc : Point} {A : AffinePoint} (hacc : acc.Denotes A)
    (htop : pos = 63 → A = 0) :
    (position (terms.map prepare) pos acc).Denotes (16 • A + combination
      (fun scalar => CentredTable.kept ((Digits.radix16 scalar).getD pos 0)) terms) := by
  have hsixteen : 16 = 2 ^ 4 := rfl
  rw [position, List.foldl_map, hsixteen]
  apply foldl_denotes _ (doubled_denotes hacc 4 htop)
  intro term hterm acc A hacc
  rw [addDigit, digit_prepare]
  have hpoint := (hterms term hterm).denotes_toAffine
  exact (hacc.addCached (CentredTable.select_denotes hpoint _)).extended

include hterms in
/-- The uniform sum is the combination with the numbers of the kept digits. -/
theorem sum_denotes : (sum terms).Denotes (combination keptValue terms) := by
  unfold sum
  by_cases hempty : terms.isEmpty
  · rw [if_pos hempty, List.isEmpty_iff.mp hempty]
    exact Point.identity_denotes
  · have hrun := run_denotes 16 64 (fun pos _ acc A hacc htop =>
      position_denotes hterms pos hacc (fun hlast => htop (by omega)))
    rw [Nat.cast_ofNat] at hrun
    rw [if_neg hempty, evaluate, funext keptValue_eq_sum]
    exact hrun

end Uniform

end TwistedEdwards
