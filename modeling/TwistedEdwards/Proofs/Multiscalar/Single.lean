import TwistedEdwards.Multiscalar.Single
import TwistedEdwards.Proofs.Multiscalar.Interleaved

/-!
# The loop for a single point

The loop for a single point looks for the highest digit on its own, returns at once if there
is none, and otherwise goes down with the one accumulator and the one table.  The interleaved
sum raises a number of positions by every term and goes over a list of terms at every
position.  With one term both begin at the same place and do the same at every place, so they
return the same limbs.  Nothing of this looks into the coordinates or the digits, so it holds
for any four coordinates and any row.

Main statements: `Interleaved.position_singleton`, `Point.mulDigits_eq_evaluate`,
`Point.mulOctetsVartime_eq_sum` and `Point.loops_agree`.
-/

namespace TwistedEdwards

namespace Interleaved

variable (term : Prepared)

/-- The highest digit of one term is found the same in both ways. -/
theorem positions_singleton : positions [term] = term.digits.significant 256 := by
  rw [positions, List.foldl_cons, List.foldl_nil, raise_eq, Nat.zero_max]

/-- A position of one term is a step of the loop for a single point. -/
theorem position_singleton (pos : Nat) (acc : Point) :
    position [term] pos acc = Point.nonAdjacentStep term.digits term.table pos acc := by
  rw [position, List.foldl_cons, List.foldl_nil, addDigit, Point.nonAdjacentStep]

/-- From any place and any accumulator on, both loops run to the same end. -/
theorem foldRev_position_singleton (n : Nat) (acc : Point) :
    n.foldRev (fun pos _ acc => position [term] pos acc) acc =
      n.foldRev (fun pos _ acc => Point.nonAdjacentStep term.digits term.table pos acc) acc := by
  induction n generalizing acc with
  | zero => rfl
  | succ n ih => rw [Nat.foldRev_succ, Nat.foldRev_succ, position_singleton, ih]

/-- For one term both loops start at its highest digit. -/
theorem evaluate_singleton :
    evaluate [term] =
      Point.evaluateDigits term.digits term.table (term.digits.significant 256) := by
  rw [evaluate, positions_singleton, foldRev_position_singleton, Point.evaluateDigits]

/-- A form has no significant digit exactly for the scalar zero. -/
theorem significant_prepare_eq_zero_iff (term : Term) :
    (prepare term).digits.significant 256 = 0 ↔ LittleEndian.value term.scalar.toList = 0 := by
  have hlength := Digits.length_nonAdjacent nonAdjacentWidth term.scalar
  rw [ByteRow.significant_eq_zero_iff, ← hlength,
    ← Digits.nonAdjacent_eq_zero_iff term.scalar (by decide : 2 ≤ nonAdjacentWidth) (by decide),
    List.forall_mem_iff_getElem]
  refine forall₂_congr fun i hi => ?_
  rw [digit_prepare, formDigit, List.getD_eq_getElem?_getD, List.getElem?_eq_getElem hi,
    Option.getD_some]

end Interleaved

namespace Point

/-- A row of zeros gives what the loop gives without a position. -/
theorem mulDigits_eq (digits : ByteRow) (p : Point) :
    mulDigits digits p =
      evaluateDigits digits (OddTable.ofPoint p) (digits.significant 256) := by
  unfold mulDigits
  cases digits.significant 256 with
  | zero => rfl
  | succ top => rfl

/-- On any row of digits the loop is the evaluation of one term. -/
theorem mulDigits_eq_evaluate (digits : ByteRow) (p : Point) :
    mulDigits digits p = Interleaved.evaluate [⟨digits, OddTable.ofPoint p⟩] := by
  rw [mulDigits_eq, Interleaved.evaluate_singleton]

/-- The loop for a single point is the interleaved sum of one term, limb for limb. -/
theorem mulOctetsVartime_eq_sum (scalar : Octets 32) (p : Point) :
    p.mulOctetsVartime scalar = Interleaved.sum [⟨scalar, p⟩] := by
  rw [mulOctetsVartime, mulDigits_eq_evaluate, Interleaved.sum, List.map_singleton,
    Interleaved.prepare]

/-- The loop multiplies by the number of the form. -/
theorem Denotes.mulOctetsVartime {p : Point} {P : AffinePoint} (hp : p.Denotes P)
    (scalar : Octets 32) :
    (p.mulOctetsVartime scalar).Denotes (Interleaved.formValue scalar • P) := by
  have hvalid : ∀ term ∈ [(⟨scalar, p⟩ : Term)], term.point.Valid :=
    List.forall_mem_singleton.mpr hp.valid
  have hsum := Interleaved.sum_denotes hvalid
  rw [Multiscalar.combination_singleton, hp.toAffine_eq] at hsum
  rw [mulOctetsVartime_eq_sum]
  exact hsum

/-- Without a digit nothing is added and nothing doubled. -/
theorem mulOctetsVartime_of_zero {scalar : Octets 32}
    (hscalar : LittleEndian.value scalar.toList = 0) (p : Point) :
    p.mulOctetsVartime scalar = identity := by
  have hnone := (Interleaved.significant_prepare_eq_zero_iff ⟨scalar, p⟩).mpr hscalar
  rw [mulOctetsVartime_eq_sum, Interleaved.sum, List.map_singleton, Interleaved.evaluate_singleton,
    hnone]
  rfl

/-- **The two loops agree** on every scalar and any four coordinates, on the curve or not.  They
begin at the same place and take every accumulator to the same one at every place, so they return
the same limbs.  The scalar zero is the only one without a digit, and both give the neutral element
for it. -/
theorem loops_agree (scalar : Octets 32) (p : Point) :
    let term := Interleaved.prepare ⟨scalar, p⟩
    Interleaved.positions [term] = term.digits.significant 256 ∧
      (∀ pos acc, Interleaved.position [term] pos acc =
        nonAdjacentStep term.digits term.table pos acc) ∧
      p.mulOctetsVartime scalar = Interleaved.sum [⟨scalar, p⟩] ∧
      (term.digits.significant 256 = 0 ↔ LittleEndian.value scalar.toList = 0) ∧
      (LittleEndian.value scalar.toList = 0 →
        p.mulOctetsVartime scalar = identity ∧ Interleaved.sum [⟨scalar, p⟩] = identity) := by
  intro term
  refine ⟨Interleaved.positions_singleton term, Interleaved.position_singleton term,
    mulOctetsVartime_eq_sum scalar p, Interleaved.significant_prepare_eq_zero_iff ⟨scalar, p⟩, ?_⟩
  intro hzero
  rw [← mulOctetsVartime_eq_sum]
  exact ⟨mulOctetsVartime_of_zero hzero p, mulOctetsVartime_of_zero hzero p⟩

/-- The widest limbs, which are on no curve, times the largest scalar and times zero. -/
theorem loops_agree_widest :
    let widest : FieldElement := ⟨-1, -1, -1, -1, -1⟩
    let p : Point := ⟨widest, widest, widest, widest⟩
    p.mulOctetsVartime (Vector.replicate 32 0xff) =
        Interleaved.sum [⟨Vector.replicate 32 0xff, p⟩] ∧
      LittleEndian.value (Vector.replicate 32 (0 : UInt8)).toList = 0 ∧
      p.mulOctetsVartime (Vector.replicate 32 0) = identity ∧
      Interleaved.sum [⟨Vector.replicate 32 0, p⟩] = identity := by
  intro widest p
  have hzero : LittleEndian.value (Vector.replicate 32 (0 : UInt8)).toList = 0 := by decide
  obtain ⟨-, -, hlargest, -, -⟩ := loops_agree (Vector.replicate 32 0xff) p
  obtain ⟨-, -, -, -, hneutral⟩ := loops_agree (Vector.replicate 32 0) p
  exact ⟨hlargest, hzero, hneutral hzero⟩

end Point

end TwistedEdwards
