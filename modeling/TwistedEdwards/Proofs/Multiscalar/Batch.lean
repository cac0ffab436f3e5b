import TwistedEdwards.Check.Batches
import TwistedEdwards.Proofs.Multiscalar.Buckets
import TwistedEdwards.Proofs.Multiscalar.Single
import TwistedEdwards.Proofs.Multiscalar.Uniform
import TwistedEdwards.Proofs.Point.Encoding
import TwistedEdwards.Proofs.Scalar.Octets

/-!
# Every sum of a batch is the sum in the group

A reduced scalar is short enough for every expansion to stand for its number: the digits
of radix 16 are all in the table, no window is left with a carry and no non-adjacent form
runs out of positions.  The combinations that the ways of summing make are then one and
the same, the sum in the group, and what is written depends on that alone.

Main statements: `Batch.Admissible.uniform_denotes`, `Batch.Admissible.algorithm_denotes`,
`Batch.Admissible.plainSum_denotes` and `Batch.sums_agree`.
-/

namespace TwistedEdwards

open Multiscalar

namespace Batch

/-- The sum in the group of the points, each times the number of its scalar. -/
def groupSum (scalars : List Scalar) (points : List Point) : AffinePoint :=
  ((scalars.zip points).map fun (s, p) => s.toNat • p.toAffine).sum

variable {scalars : List Scalar} {points : List Point}

theorem length_pairedTerms (hlength : scalars.length = points.length) :
    (pairedTerms scalars points).length = scalars.length := by
  rw [pairedTerms, List.length_map, List.length_zip, ← hlength, Nat.min_self]

section Results

/-- The length of equally long lists takes all their terms. -/
theorem flatten_length (hlength : scalars.length = points.length)
    (hmax : scalars.length ≤ maxCount) :
    flatten scalars.length scalars points = .ok (pairedTerms scalars points) := by
  rw [flatten_eq hmax, List.take_length, hlength, List.take_length]

/-- The first terms are summed, and there is nothing to sum where the count is zero. -/
theorem sumFirst_eq {sum : List Term → Point} {n : Nat} (hempty : sum [] = .identity)
    (hn : n ≤ maxCount) (scalars : List Scalar) (points : List Point) :
    sumFirst sum n (some scalars) (some points) =
      .ok (sum (pairedTerms (scalars.take n) (points.take n))) := by
  rw [sumFirst_some]
  split
  · next hzero =>
    subst hzero
    rw [List.take_zero, List.take_zero, pairedTerms, List.zip_nil_left, List.map_nil, hempty]
  · rw [flatten_eq hn]
    rfl

/-- The count of the whole batch takes all its terms. -/
theorem sumFirst_length {sum : List Term → Point} (hempty : sum [] = .identity)
    (hlength : scalars.length = points.length) (hmax : scalars.length ≤ maxCount) :
    sumFirst sum scalars.length (some scalars) (some points) =
      .ok (sum (pairedTerms scalars points)) := by
  rw [sumFirst_eq hempty hmax, List.take_length, hlength, List.take_length]

theorem mul_eq (hlength : scalars.length = points.length) (hmax : scalars.length ≤ maxCount) :
    mul scalars points = .ok (Uniform.sum (pairedTerms scalars points)) := by
  rw [mul, checkLengths_eq hlength, mulFirst, sumFirst_length Uniform.sum_nil hlength hmax]
  rfl

/-- The sum of two lists of one length in variable time. -/
theorem mulVartime_eq (hlength : scalars.length = points.length)
    (hmax : scalars.length ≤ maxCount) :
    mulVartime scalars points = .ok (sumVartime (pairedTerms scalars points)) := by
  rw [mulVartime, checkLengths_eq hlength, mulFirstVartime,
    sumFirst_length sumVartime_nil hlength hmax]
  rfl

/-- The sum of two lists of one length by a chosen algorithm. -/
theorem mulWith_eq (algorithm : Algorithm) (hlength : scalars.length = points.length)
    (hmax : scalars.length ≤ maxCount) :
    mulWith algorithm scalars points = .ok (algorithm.sum (pairedTerms scalars points)) := by
  rw [mulWith, checkLengths_eq hlength, flatten_length hlength hmax]
  rfl

/-- A count of one takes a single term, whose sum is the multiple of its point. -/
theorem mulFirst_one (s : Scalar) (p : Point) :
    mulFirst 1 (some [s]) (some [p]) = .ok (p.mul s) := by
  have hterms : pairedTerms ([s].take 1) ([p].take 1) = [⟨s.toOctets, p⟩] := rfl
  have hone : 1 ≤ maxCount := by decide
  rw [mulFirst, sumFirst_eq Uniform.sum_nil hone, hterms, Point.mul, Point.mulOctets]

end Results

/-- Reduced scalars and valid points, equally many.  A scalar is held in 40 bytes, so no list has
more of them than can be addressed in 32 bytes each. -/
structure Admissible (scalars : List Scalar) (points : List Point) : Prop where
  length_eq : scalars.length = points.length
  length_le : scalars.length ≤ maxCount
  reduced : ∀ s ∈ scalars, s.Reduced
  valid : ∀ p ∈ points, p.Valid

namespace Admissible

variable (h : Admissible scalars points)

include h in
/-- The points of the terms are those of the batch. -/
theorem point_valid : ∀ term ∈ pairedTerms scalars points, term.point.Valid := by
  intro term hterm
  obtain ⟨⟨s, p⟩, hpair, rfl⟩ := List.mem_map.mp hterm
  exact h.valid p (List.of_mem_zip hpair).2

include h in
/-- An expansion that stands for every number below `2 ^ 253` makes the sum in the group. -/
theorem combination_eq {number : Octets 32 → Int}
    (hnumber : ∀ scalar : Octets 32, LittleEndian.value scalar.toList < 2 ^ 253 →
      number scalar = LittleEndian.value scalar.toList) :
    combination number (pairedTerms scalars points) = groupSum scalars points := by
  rw [combination, pairedTerms, groupSum, List.map_map]
  congr 1
  apply List.map_congr_left
  rintro ⟨s, p⟩ hpair
  have hs := h.reduced s (List.of_mem_zip hpair).1
  rw [Function.comp_apply, hnumber s.toOctets hs.value_toOctets_lt, hs.value_toOctets,
    natCast_zsmul]

include h in
/-- The uniform sum keeps the digits of a reduced scalar. -/
theorem uniform_denotes :
    (Uniform.sum (pairedTerms scalars points)).Denotes (groupSum scalars points) := by
  rw [← h.combination_eq fun scalar hscalar => Uniform.keptValue_eq (hscalar.trans (by decide))]
  exact Uniform.sum_denotes h.point_valid

include h in
/-- No form of a reduced scalar runs out of positions. -/
theorem combination_formValue :
    combination Interleaved.formValue (pairedTerms scalars points) = groupSum scalars points :=
  h.combination_eq fun scalar hscalar => Interleaved.formValue_eq (hscalar.trans (by decide))

include h in
/-- Both algorithms, the buckets at the width that they choose. -/
theorem algorithm_denotes (algorithm : Algorithm) :
    (algorithm.sum (pairedTerms scalars points)).Denotes (groupSum scalars points) := by
  cases algorithm with
  | straus =>
      rw [← h.combination_formValue]
      exact Interleaved.sum_denotes h.point_valid
  | pippenger =>
      obtain ⟨hleast, hmost⟩ := Buckets.windowWidth_range (pairedTerms scalars points).length
      have hleast' : 2 ≤ Buckets.windowWidth (pairedTerms scalars points).length := by omega
      have hmost' : Buckets.windowWidth (pairedTerms scalars points).length ≤ 16 := by omega
      rw [← h.combination_eq fun scalar hscalar =>
        Buckets.windowsValue_eq (hscalar.trans (by decide)) hleast' hmost']
      exact Buckets.sum_denotes h.point_valid

include h in
/-- The sum of single multiples adds in the order of the batch. -/
theorem plainSum_denotes : (plainSum scalars points).Denotes (groupSum scalars points) := by
  have hstep : ∀ term ∈ pairedTerms scalars points, ∀ acc A, acc.Denotes A →
      (acc + term.point.mulOctetsVartime term.scalar).Denotes
        (A + Interleaved.formValue term.scalar • term.point.toAffine) := by
    intro term hterm acc A hacc
    exact hacc.add ((h.point_valid term hterm).denotes_toAffine.mulOctetsVartime term.scalar)
  have hrun := foldl_denotes hstep Point.identity_denotes
  rw [zero_add, h.combination_formValue, pairedTerms, List.foldl_map] at hrun
  exact hrun

end Admissible

/-- With every point present the terms are those of the points. -/
theorem allPresent?_map_some (pairs : List (Octets 32 × Point)) :
    allPresent? (pairs.map (Prod.map id some)) =
      some (pairs.map fun (scalar, point) => ⟨scalar, point⟩) := by
  induction pairs with
  | nil => rfl
  | cons pair rest ih =>
      rw [List.map_cons, List.map_cons]
      simp only [Prod.map, allPresent?, ih, id]

/-- With every point present there is a sum, by the algorithm for the count. -/
theorem sumPresent_map_some (scalars : List Scalar) (points : List Point) :
    sumPresent ((scalars.map Scalar.toOctets).zip (points.map some)) =
      ⟨true, sumVartime (pairedTerms scalars points)⟩ := by
  have hterms : ((scalars.map Scalar.toOctets).zip points).map
      (fun (scalar, point) => (⟨scalar, point⟩ : Term)) = pairedTerms scalars points := by
    rw [List.zip_map_left, List.map_map]
    rfl
  rw [List.zip_map_right, sumPresent, allPresent?_map_some, hterms]

/-- With every point present the optional sum is the sum. -/
theorem mulOptional_map_some (scalars : List Scalar) (points : List Point)
    (hmax : scalars.length ≤ maxCount) :
    mulOptional scalars (points.map some) = (mulVartime scalars points).map some := by
  by_cases hlength : scalars.length = points.length
  · have hpresent : scalars.length = (points.map some).length := by rwa [List.length_map]
    rw [mulVartime_eq hlength hmax, mulOptional, checkLengths_eq hpresent, checkCount_eq hmax,
      sumPresent_map_some]
    rfl
  · rw [mulOptional, mulVartime, List.length_map, checkLengths_of_ne hlength]
    rfl

/-- The sum in variable time is that of the interleaved sum or of the buckets, as the count says. -/
theorem mulVartime_eq_mulWith (hlength : scalars.length = points.length)
    (hmax : scalars.length ≤ maxCount) :
    mulVartime scalars points =
      mulWith (if scalars.length < 190 then .straus else .pippenger) scalars points := by
  rw [mulVartime_eq hlength hmax, mulWith_eq _ hlength hmax, sumVartime,
    length_pairedTerms hlength]
  rfl

/-- **Every way of summing a batch** gives a result, and what it writes is the string of the sum in
the group.  A batch of one term is a multiple of its point. -/
theorem sums_agree (h : Admissible scalars points) :
    (mul scalars points).map Point.toOctets = .ok (groupSum scalars points).toOctets ∧
      (mulVartime scalars points).map Point.toOctets = .ok (groupSum scalars points).toOctets ∧
      mulVartime scalars points =
        mulWith (if scalars.length < 190 then .straus else .pippenger) scalars points ∧
      (∀ algorithm, (mulWith algorithm scalars points).map Point.toOctets =
        .ok (groupSum scalars points).toOctets) ∧
      (mulOptional scalars (points.map some)).map (Option.map Point.toOctets) =
        .ok (some (groupSum scalars points).toOctets) ∧
      (plainSum scalars points).toOctets = (groupSum scalars points).toOctets ∧
      ∀ s p, scalars = [s] → points = [p] →
        (p.mul s).toOctets = (groupSum scalars points).toOctets ∧
          (p.mulVartime s).toOctets = (groupSum scalars points).toOctets ∧
          (mulFirst 1 (some [s]) (some [p])).map Point.toOctets =
            .ok (groupSum scalars points).toOctets := by
  have hmul : (mul scalars points).map Point.toOctets = .ok (groupSum scalars points).toOctets := by
    rw [mul_eq h.length_eq h.length_le]
    exact congrArg Except.ok h.uniform_denotes.toOctets_eq
  have hwith : ∀ algorithm, (mulWith algorithm scalars points).map Point.toOctets =
      .ok (groupSum scalars points).toOctets := by
    intro algorithm
    rw [mulWith_eq algorithm h.length_eq h.length_le]
    exact congrArg Except.ok (h.algorithm_denotes algorithm).toOctets_eq
  have hvartime := mulVartime_eq_mulWith h.length_eq h.length_le
  refine ⟨hmul, ?_, hvartime, hwith, ?_, h.plainSum_denotes.toOctets_eq, ?_⟩
  · rw [hvartime]
    exact hwith _
  · rw [mulOptional_map_some scalars points h.length_le, mulVartime_eq h.length_eq h.length_le]
    exact congrArg (Except.ok ∘ some) (h.algorithm_denotes _).toOctets_eq
  · rintro s p rfl rfl
    refine ⟨h.uniform_denotes.toOctets_eq, ?_, hmul⟩
    rw [Point.mulVartime, Point.mulOctetsVartime_eq_sum]
    exact (h.algorithm_denotes .straus).toOctets_eq

/-- One times the base point, by buckets and as a multiple. -/
theorem sums_agree_base :
    Admissible [Scalar.one] [Point.base] ∧
      (mulWith .pippenger [Scalar.one] [Point.base]).map Point.toOctets =
        .ok (groupSum [Scalar.one] [Point.base]).toOctets ∧
      (Point.base.mul Scalar.one).toOctets = (groupSum [Scalar.one] [Point.base]).toOctets := by
  have hbase : Admissible [Scalar.one] [Point.base] := by
    refine ⟨rfl, by decide, ?_, ?_⟩
    · intro s hs
      rw [List.mem_singleton.mp hs]
      decide
    · intro p hp
      rw [List.mem_singleton.mp hp]
      exact Point.base_denotes.valid
  obtain ⟨-, -, -, hwith, -, -, hsingle⟩ := sums_agree hbase
  exact ⟨hbase, hwith .pippenger, (hsingle Scalar.one Point.base rfl rfl).1⟩

end Batch

end TwistedEdwards
