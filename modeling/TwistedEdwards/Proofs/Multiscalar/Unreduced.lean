import TwistedEdwards.Multiscalar.Single
import TwistedEdwards.Proofs.Multiscalar.Buckets
import TwistedEdwards.Proofs.Multiscalar.Interleaved
import TwistedEdwards.Proofs.Multiscalar.Uniform

/-!
# Sums with scalars that are not reduced

A scalar of 32 bytes can be any number below `2 ^ 256`, and the ways of summing do not treat
the largest ones alike.  The uniform sum leaves out a top digit that its table does not
hold, the interleaved sum loses a carry that is pending after its 256 places, and the
buckets lose the carry of their last window if a window has eight bits.  Each way makes the
combination of the points with what it counts the scalars for.  Below `2 ^ 254` that is the
scalar in every way, and below `2 ^ 255` in the first two.

Main statements: `Uniform.sum_counts_kept`, `Interleaved.sum_counts_form` and
`Buckets.sum_counts_windows`.
-/

namespace TwistedEdwards

open Multiscalar

/-- The largest number of 32 bytes. -/
def Octets.largest : Octets 32 := Vector.replicate 32 255

/-- The largest number times the base point. -/
def Term.largest : Term := ⟨Octets.largest, Point.base⟩

/-- Copies of one term have one valid point. -/
theorem Term.valid_replicate_largest (n : Nat) :
    ∀ term ∈ List.replicate n Term.largest, term.point.Valid := by
  intro term hterm
  rw [List.eq_of_mem_replicate hterm]
  exact Point.base_denotes.valid

namespace Uniform

variable {terms : List Term}

/-- **The uniform sum of any scalars** counts each for its number, without a top digit above 8, and
so does the multiple of a single point. -/
theorem sum_counts_kept (hterms : ∀ term ∈ terms, term.point.Valid) :
    (sum terms).Valid ∧ (sum terms).toAffine = combination counted terms ∧
      (∀ scalar : Octets 32, 0 ≤ Digits.topDigit scalar ∧ Digits.topDigit scalar ≤ 16 ∧
        (LittleEndian.value scalar.toList < 2 ^ 255 → Digits.topDigit scalar ≤ 8)) ∧
      ∀ scalar p, terms = [⟨scalar, p⟩] →
        (p.mulOctets scalar).Valid ∧
          (p.mulOctets scalar).toAffine = counted scalar • p.toAffine := by
  have hsum := sum_denotes hterms
  rw [funext keptValue_eq_counted] at hsum
  refine ⟨hsum.valid, hsum.toAffine_eq, ?_, ?_⟩
  · intro scalar
    obtain ⟨-, -, -, -, hleast, hmost⟩ := Digits.radix16_split scalar
    exact ⟨hleast, hmost, Digits.topDigit_le⟩
  · rintro scalar p rfl
    rw [combination_singleton] at hsum
    exact ⟨hsum.valid, hsum.toAffine_eq⟩

/-- The top digit of the largest number is 16, and without it the number is minus one. -/
theorem sum_counts_kept_largest :
    (∀ term ∈ List.replicate 1 Term.largest, term.point.Valid) ∧
      (Point.base.mulOctets Octets.largest).toAffine = (-1 : Int) • Point.base.toAffine := by
  have hvalid := Term.valid_replicate_largest 1
  obtain ⟨-, -, -, hsingle⟩ := sum_counts_kept hvalid
  have hcounted : counted Octets.largest = -1 := by decide +kernel
  have hmultiple := (hsingle Octets.largest Point.base rfl).2
  rw [hcounted] at hmultiple
  exact ⟨hvalid, hmultiple⟩

end Uniform

namespace Interleaved

variable {terms : List Term}

/-- **The interleaved sum of any scalars** counts each for its number, without the carry that its
form leaves pending.  That carry is the digit that place 256 would have. -/
theorem sum_counts_form (hterms : ∀ term ∈ terms, term.point.Valid) :
    (sum terms).Valid ∧ (sum terms).toAffine = combination counted terms ∧
      ∀ scalar : Octets 32,
        (LittleEndian.value scalar.toList < 2 ^ 255 →
          counted scalar = LittleEndian.value scalar.toList) ∧
        (counted scalar = LittleEndian.value scalar.toList ∨
          counted scalar = LittleEndian.value scalar.toList - 2 ^ 256) ∧
        (counted scalar = LittleEndian.value scalar.toList - 2 ^ 256 ↔
          Digits.pendingCarry nonAdjacentWidth scalar = 1) ∧
        Digits.nonAdjacentFrom (Word256.ofOctets scalar) nonAdjacentWidth 257 0 0 0 =
          Digits.nonAdjacent nonAdjacentWidth scalar ++
            [(Digits.pendingCarry nonAdjacentWidth scalar : Int)] := by
  have hsum := sum_denotes hterms
  rw [funext formValue_eq_counted] at hsum
  refine ⟨hsum.valid, hsum.toAffine_eq, fun scalar => ⟨counted_eq, ?_, ?_, ?_⟩⟩
  · unfold counted
    split
    · exact Or.inr rfl
    · exact Or.inl rfl
  · unfold counted
    split
    · next hone => exact iff_of_true rfl hone
    · next hone => exact iff_of_false (by omega) hone
  · exact Digits.nonAdjacentFrom_257 scalar (by decide) (by decide)

/-- The form of the largest number ends with a carry, and the number counts for minus one. -/
theorem sum_counts_form_largest :
    (∀ term ∈ List.replicate 2 Term.largest, term.point.Valid) ∧
      Digits.pendingCarry nonAdjacentWidth Octets.largest = 1 ∧
      (sum (List.replicate 2 Term.largest)).toAffine = (-2 : Int) • Point.base.toAffine := by
  have hvalid := Term.valid_replicate_largest 2
  have hcarry : Digits.pendingCarry nonAdjacentWidth Octets.largest = 1 := by decide +kernel
  have hvalue : LittleEndian.value Octets.largest.toList = 2 ^ 256 - 1 := by decide +kernel
  obtain ⟨-, hsum, hscalar⟩ := sum_counts_form hvalid
  obtain ⟨-, -, hlost, -⟩ := hscalar Octets.largest
  have hcounted : counted Octets.largest = -1 := by
    rw [hlost.mpr hcarry, hvalue]
    rfl
  refine ⟨hvalid, hcarry, ?_⟩
  rw [hsum, combination_replicate, Term.largest, hcounted]
  rfl

end Interleaved

namespace Buckets

variable {terms : List Term}

/-- **The sum of any scalars by buckets** counts each for its number, unless windows have eight bits
and the number is beyond the reach of 32 of their digits. -/
theorem sum_counts_windows (hterms : ∀ term ∈ terms, term.point.Valid) :
    (sum terms).Valid ∧
      (sum terms).toAffine = combination (counted (windowWidth terms.length)) terms ∧
      (windowWidth terms.length ≠ 8 ∨ (∀ term ∈ terms,
          255 * LittleEndian.value term.scalar.toList ≤ 127 * (2 ^ 256 - 1)) →
        (sum terms).toAffine =
          combination (fun scalar => LittleEndian.value scalar.toList) terms) ∧
      ((∀ term ∈ terms, LittleEndian.value term.scalar.toList < 2 ^ 254) →
        (sum terms).toAffine =
          combination (fun scalar => LittleEndian.value scalar.toList) terms) := by
  obtain ⟨hleast, hmost⟩ := windowWidth_range terms.length
  have hsum := sum_denotes hterms
  have hcounted : ∀ scalar, windowsValue (windowWidth terms.length) scalar =
      counted (windowWidth terms.length) scalar :=
    fun scalar => windowsValue_eq_counted scalar hleast hmost
  rw [funext hcounted] at hsum
  have hexact : windowWidth terms.length ≠ 8 ∨ (∀ term ∈ terms,
        255 * LittleEndian.value term.scalar.toList ≤ 127 * (2 ^ 256 - 1)) →
      (sum terms).toAffine =
        combination (fun scalar => LittleEndian.value scalar.toList) terms := by
    intro hroom
    rw [hsum.toAffine_eq]
    apply combination_congr
    intro term hterm
    apply if_neg
    rintro ⟨height, hbeyond⟩
    rcases hroom with hwidth | hwithin
    · exact hwidth height
    · have hreach := hwithin term hterm
      omega
  refine ⟨hsum.valid, hsum.toAffine_eq, hexact, ?_⟩
  intro hsmall
  refine hexact (Or.inr ?_)
  intro term hterm
  have hlt := hsmall term hterm
  omega

/-- With 800 terms the windows have eight bits, and the largest number counts for minus one. -/
theorem sum_counts_windows_largest :
    (∀ term ∈ List.replicate 800 Term.largest, term.point.Valid) ∧
      (sum (List.replicate 800 Term.largest)).toAffine = (-800 : Int) • Point.base.toAffine := by
  have hvalid := Term.valid_replicate_largest 800
  obtain ⟨-, hsum, -⟩ := sum_counts_windows hvalid
  have hwidth : windowWidth (List.replicate 800 Term.largest).length = 8 := by
    rw [List.length_replicate]
    rfl
  have hcounted : counted 8 Octets.largest = -1 := by decide +kernel
  refine ⟨hvalid, ?_⟩
  rw [hsum, hwidth, combination_replicate, Term.largest, hcounted]
  rfl

end Buckets

end TwistedEdwards
