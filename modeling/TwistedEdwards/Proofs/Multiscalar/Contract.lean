import TwistedEdwards.Proofs.Multiscalar.Batch

/-!
# What the sums take and refuse

A batch of two lists is refused for its counts and for nothing else, also when a point is
absent: they differ, or they are equal and the scalars cannot all be addressed, which no list
reaches.  One absent point leaves no sum, wherever it stands and whatever its scalar; with
every point present the optional sum is the sum.

A batch of two lists and a count is neutral without terms or without a list.  Else it is the
batch of the first terms, for every count that both lists have; a count whose scalars cannot
be addressed is refused by both in the same way.

Main statements: `Batch.refusedForCounts_mul`, `Batch.allPresent?_eq_none_iff`,
`Batch.mulFirst_eq_mul` and `Batch.input_contract`.
-/

namespace TwistedEdwards

namespace Batch

/-- The result is a refusal exactly for the counts: they differ, or they are equal and above the
largest. -/
structure RefusedForCounts {α β : Type} (scalars : List Scalar) (points : List α)
    (result : Except BatchError β) : Prop where
  countMismatch_iff : result = .error .countMismatch ↔ scalars.length ≠ points.length
  tooLarge_iff : result = .error .tooLarge ↔
    scalars.length = points.length ∧ maxCount < scalars.length

section Lists

variable {α β : Type} {scalars : List Scalar} {points : List α}

/-- After the lengths were compared only the count of equally long lists can be refused. -/
theorem refusedForCounts_of {rest : Except BatchError β}
    (hrest : scalars.length = points.length → scalars.length ≤ maxCount → ∃ x, rest = .ok x)
    (hlarge : scalars.length = points.length → maxCount < scalars.length →
      rest = .error .tooLarge) :
    RefusedForCounts scalars points (do
      checkLengths scalars.length points.length
      rest) := by
  by_cases hlength : scalars.length = points.length
  · rw [checkLengths_eq hlength]
    change RefusedForCounts scalars points rest
    rcases Nat.lt_or_ge maxCount scalars.length with hmax | hmax
    · rw [hlarge hlength hmax]
      exact ⟨by simp [hlength], by simp [hlength, hlength ▸ hmax]⟩
    · obtain ⟨x, hx⟩ := hrest hlength hmax
      rw [hx]
      refine ⟨by simp [hlength], ?_⟩
      simp only [reduceCtorEq, false_iff, not_and, not_lt]
      exact fun _ => hmax
  · rw [checkLengths_of_ne hlength]
    change RefusedForCounts scalars points (.error .countMismatch)
    exact ⟨by simp [hlength], by simp [hlength]⟩

end Lists

section Sums

variable {scalars : List Scalar} {points : List Point}

/-- A count above the largest is no count of zero, and both lists are there. -/
theorem sumFirst_of_lt {sum : List Term → Point} {n : Nat} (hn : maxCount < n)
    (scalars : List Scalar) (points : List Point) :
    sumFirst sum n (some scalars) (some points) = .error .tooLarge := by
  have hpositive : n ≠ 0 := Nat.ne_zero_of_lt hn
  rw [sumFirst_some, if_neg hpositive, flatten_of_lt hn]
  rfl

/-- Without terms or without a list nothing is looked at. -/
theorem sumFirst_of_missing {sum : List Term → Point} {n : Nat} {scalars : Option (List Scalar)}
    {points : Option (List Point)} (h : n = 0 ∨ scalars = none ∨ points = none) :
    sumFirst sum n scalars points = .ok .identity := by
  obtain rfl | rfl | rfl := h
  · exact if_pos rfl
  · exact ite_self _
  · cases scalars <;> exact ite_self _

/-- The sum of the whole batch is refused for its counts. -/
theorem refusedForCounts_sumFirst {sum : List Term → Point} (hempty : sum [] = .identity) :
    RefusedForCounts scalars points (do
      checkLengths scalars.length points.length
      sumFirst sum scalars.length (some scalars) (some points)) := by
  apply refusedForCounts_of
  · intro _ hmax
    exact ⟨_, sumFirst_eq hempty hmax scalars points⟩
  · intro _ hmax
    exact sumFirst_of_lt hmax scalars points

theorem refusedForCounts_mul : RefusedForCounts scalars points (mul scalars points) :=
  refusedForCounts_sumFirst Uniform.sum_nil

theorem refusedForCounts_mulVartime :
    RefusedForCounts scalars points (mulVartime scalars points) :=
  refusedForCounts_sumFirst sumVartime_nil

/-- The sum by a chosen algorithm makes the same checks on its own. -/
theorem refusedForCounts_mulWith (algorithm : Algorithm) :
    RefusedForCounts scalars points (mulWith algorithm scalars points) := by
  apply refusedForCounts_of
  · intro hlength hmax
    rw [flatten_length hlength hmax]
    exact ⟨_, rfl⟩
  · intro _ hmax
    rw [flatten_of_lt hmax]
    rfl

/-- So does the optional sum, before any point is looked at. -/
theorem refusedForCounts_mulOptional {points : List (Option Point)} :
    RefusedForCounts scalars points (mulOptional scalars points) := by
  apply refusedForCounts_of
  · intro _ hmax
    rw [checkCount_eq hmax]
    exact ⟨_, rfl⟩
  · intro _ hmax
    rw [checkCount_of_lt hmax]
    rfl

/-- The first terms as lists of their own have the count for their length. -/
theorem sumFirst_take {sum : List Term → Point} {n : Nat} (hscalars : n ≤ scalars.length)
    (hpoints : n ≤ points.length) :
    sumFirst sum n (some scalars) (some points) = (do
      checkLengths (scalars.take n).length (points.take n).length
      sumFirst sum (scalars.take n).length (some (scalars.take n)) (some (points.take n))) := by
  have htaken : flatten n (scalars.take n) (points.take n) = flatten n scalars points := by
    rw [flatten, flatten, List.take_take, List.take_take, Nat.min_self]
  rw [List.length_take_of_le hscalars, List.length_take_of_le hpoints, checkLengths_eq rfl]
  change _ = sumFirst sum n (some (scalars.take n)) (some (points.take n))
  rw [sumFirst_some, sumFirst_some, htaken]

/-- **A count and two lists** that have so many terms are the batch of the first terms. -/
theorem mulFirst_eq_mul {n : Nat} (hscalars : n ≤ scalars.length) (hpoints : n ≤ points.length) :
    mulFirst n (some scalars) (some points) = mul (scalars.take n) (points.take n) :=
  sumFirst_take hscalars hpoints

/-- The same for the sum in variable time. -/
theorem mulFirstVartime_eq_mulVartime {n : Nat} (hscalars : n ≤ scalars.length)
    (hpoints : n ≤ points.length) :
    mulFirstVartime n (some scalars) (some points) =
      mulVartime (scalars.take n) (points.take n) :=
  sumFirst_take hscalars hpoints

end Sums

section Absent

variable (pairs : List (Octets 32 × Option Point))

/-- One absent point is enough. -/
theorem allPresent?_eq_none_iff : allPresent? pairs = none ↔ ∃ pair ∈ pairs, pair.2 = none := by
  induction pairs with
  | nil => simp [allPresent?]
  | cons pair rest ih =>
      obtain ⟨scalar, _ | point⟩ := pair
      · simp [allPresent?]
      · simp only [List.mem_cons, exists_eq_or_imp, reduceCtorEq, false_or, ← ih]
        cases hrest : allPresent? rest <;> simp [allPresent?, hrest]

/-- There is a sum of every term or none at all. -/
theorem sumPresent_cases :
    ((∃ pair ∈ pairs, pair.2 = none) ∧ sumPresent pairs = ⟨false, Point.identity⟩) ∨
      ((∀ pair ∈ pairs, pair.2 ≠ none) ∧
        ∃ terms, allPresent? pairs = some terms ∧ sumPresent pairs = ⟨true, sumVartime terms⟩) := by
  have habsent := allPresent?_eq_none_iff pairs
  rw [sumPresent]
  cases hterms : allPresent? pairs with
  | none => exact .inl ⟨habsent.mp hterms, rfl⟩
  | some terms =>
      refine .inr ⟨fun pair hpair hnone => ?_, terms, rfl, rfl⟩
      have hrefused := habsent.mpr ⟨pair, hpair, hnone⟩
      rw [hterms] at hrefused
      cases hrefused

/-- The sum is complete exactly if every point is present. -/
theorem sumPresent_complete_iff :
    (sumPresent pairs).complete = true ↔ ∀ pair ∈ pairs, pair.2 ≠ none := by
  obtain ⟨⟨pair, hpair, hnone⟩, hsum⟩ | ⟨hpresent, terms, -, hsum⟩ := sumPresent_cases pairs
  · simp only [hsum, Bool.false_eq_true, false_iff]
    exact fun h => h pair hpair hnone
  · simp only [hsum, true_iff]
    exact hpresent

/-- It is refused, and neutral, exactly if a point is absent. -/
theorem sumPresent_eq_refused_iff :
    sumPresent pairs = ⟨false, Point.identity⟩ ↔ ∃ pair ∈ pairs, pair.2 = none := by
  obtain ⟨habsent, hsum⟩ | ⟨hpresent, terms, -, hsum⟩ := sumPresent_cases pairs
  · simp only [hsum, true_iff]
    exact habsent
  · simp only [hsum, PresentSum.mk.injEq, Bool.true_eq_false, false_and, false_iff]
    rintro ⟨pair, hpair, hnone⟩
    exact hpresent pair hpair hnone

/-- In equally long lists a point is absent in the one exactly if it is among the terms. -/
theorem exists_zip_eq_none_iff {scalars : List (Octets 32)} {points : List (Option Point)}
    (h : scalars.length = points.length) :
    (∃ pair ∈ scalars.zip points, pair.2 = none) ↔ none ∈ points := by
  have hpoints : (scalars.zip points).map Prod.snd = points :=
    List.map_snd_zip (Nat.le_of_eq h.symm)
  conv_rhs => rw [← hpoints, List.mem_map]

/-- With equal counts there is no sum exactly if a point is absent. -/
theorem mulOptional_eq_none_iff {scalars : List Scalar} {points : List (Option Point)}
    (h : scalars.length = points.length) (hmax : scalars.length ≤ maxCount) :
    mulOptional scalars points = .ok none ↔ none ∈ points := by
  have hlength : (scalars.map Scalar.toOctets).length = points.length := by
    rwa [List.length_map]
  have hcomplete := sumPresent_complete_iff ((scalars.map Scalar.toOctets).zip points)
  rw [mulOptional, checkLengths_eq h, checkCount_eq hmax, ← exists_zip_eq_none_iff hlength]
  change Except.ok _ = _ ↔ _
  simp only [Except.ok.injEq, ite_eq_right_iff, reduceCtorEq, imp_false, hcomplete,
    not_forall, exists_prop, not_not, ne_eq]

/-- A list without an absent entry is one of present entries. -/
theorem exists_eq_map_some {α : Type} {points : List (Option α)} (h : none ∉ points) :
    ∃ present : List α, points = present.map some := by
  induction points with
  | nil => exact ⟨[], rfl⟩
  | cons point rest ih =>
      rw [List.mem_cons, not_or] at h
      obtain ⟨p, rfl⟩ := Option.ne_none_iff_exists'.mp (Ne.symm h.1)
      obtain ⟨present, rfl⟩ := ih h.2
      exact ⟨p :: present, rfl⟩

/-- With equal counts and every point present the optional sum is the sum. -/
theorem exists_mulOptional_eq {scalars : List Scalar} {points : List (Option Point)}
    (h : scalars.length = points.length) (hmax : scalars.length ≤ maxCount)
    (hpresent : none ∉ points) :
    ∃ present sum, points = present.map some ∧ mulVartime scalars present = .ok sum ∧
      mulOptional scalars points = .ok (some sum) := by
  obtain ⟨present, rfl⟩ := exists_eq_map_some hpresent
  have hlength : scalars.length = present.length := by rwa [List.length_map] at h
  have hsum := mulVartime_eq hlength hmax
  refine ⟨present, _, rfl, hsum, ?_⟩
  rw [mulOptional_map_some scalars present hmax, hsum]
  rfl

end Absent

/-- **What the sums take and refuse.**  The sums of two lists are refused exactly for differing
counts, and for equal counts above the largest, which no list reaches.  With equal counts the
optional sum is absent exactly if a point is, and is the sum otherwise.  The sums of a count and
two lists are neutral without terms or without a list, and else are those of the first terms; a
count above the largest is refused.  The sum of terms some of which may be absent is refused with
the neutral element exactly if one is. -/
theorem input_contract :
    (∀ (scalars : List Scalar) (points : List Point),
      RefusedForCounts scalars points (mul scalars points) ∧
        RefusedForCounts scalars points (mulVartime scalars points) ∧
        ∀ algorithm, RefusedForCounts scalars points (mulWith algorithm scalars points)) ∧
    (∀ (scalars : List Scalar) (points : List (Option Point)),
      RefusedForCounts scalars points (mulOptional scalars points) ∧
        (scalars.length = points.length → scalars.length ≤ maxCount →
          (mulOptional scalars points = .ok none ↔ none ∈ points) ∧
          (none ∉ points → ∃ present sum, points = present.map some ∧
            mulVartime scalars present = .ok sum ∧
              mulOptional scalars points = .ok (some sum)))) ∧
    (∀ (n : Nat) (scalars : Option (List Scalar)) (points : Option (List Point)),
      n = 0 ∨ scalars = none ∨ points = none →
        mulFirst n scalars points = .ok Point.identity ∧
          mulFirstVartime n scalars points = .ok Point.identity) ∧
    (∀ (n : Nat) (scalars : List Scalar) (points : List Point),
      (n ≤ scalars.length → n ≤ points.length →
        mulFirst n (some scalars) (some points) = mul (scalars.take n) (points.take n) ∧
          mulFirstVartime n (some scalars) (some points) =
            mulVartime (scalars.take n) (points.take n)) ∧
      (maxCount < n →
        mulFirst n (some scalars) (some points) = .error .tooLarge ∧
          mulFirstVartime n (some scalars) (some points) = .error .tooLarge)) ∧
    ∀ pairs : List (Octets 32 × Option Point),
      (sumPresent pairs = ⟨false, Point.identity⟩ ↔ ∃ pair ∈ pairs, pair.2 = none) ∧
        ((sumPresent pairs).complete = true ↔ ∀ pair ∈ pairs, pair.2 ≠ none) := by
  refine ⟨?_, ?_, ?_, ?_, ?_⟩
  · intro scalars points
    exact ⟨refusedForCounts_mul, refusedForCounts_mulVartime, refusedForCounts_mulWith⟩
  · intro scalars points
    exact ⟨refusedForCounts_mulOptional, fun h hmax =>
      ⟨mulOptional_eq_none_iff h hmax, exists_mulOptional_eq h hmax⟩⟩
  · intro n scalars points h
    exact ⟨sumFirst_of_missing h, sumFirst_of_missing h⟩
  · intro n scalars points
    refine ⟨fun hscalars hpoints => ?_, fun hmax => ?_⟩
    · exact ⟨mulFirst_eq_mul hscalars hpoints, mulFirstVartime_eq_mulVartime hscalars hpoints⟩
    · exact ⟨sumFirst_of_lt hmax scalars points, sumFirst_of_lt hmax scalars points⟩
  · intro pairs
    exact ⟨sumPresent_eq_refused_iff pairs, sumPresent_complete_iff pairs⟩

/-- An absent point under a zero scalar leaves no sum, a present point leaves the sum, one scalar
is too few for two points, and a count of one takes the first of two terms. -/
theorem input_contract_one :
    mulOptional [Scalar.zero, Scalar.one] [none, some Point.base] = .ok none ∧
      (∃ sum, mulVartime [Scalar.one] [Point.base] = .ok sum ∧
        mulOptional [Scalar.one] [some Point.base] = .ok (some sum)) ∧
      mulOptional [Scalar.one] [none, some Point.base] = .error .countMismatch ∧
      mulFirst 1 (some [Scalar.one, Scalar.zero]) (some [Point.base]) =
        mul [Scalar.one] [Point.base] ∧
      mulFirst (2 ^ 64 - 1) none (some [Point.base]) = .ok Point.identity := by
  obtain ⟨-, hoptional, hempty, hfirst, -⟩ := input_contract
  refine ⟨?_, ?_, ?_, ?_, ?_⟩
  · have htwo := (hoptional [Scalar.zero, Scalar.one] [none, some Point.base]).2 rfl (by decide)
    exact htwo.1.mpr List.mem_cons_self
  · obtain ⟨present, sum, hpresent, hsum, hpresentSum⟩ :=
      ((hoptional [Scalar.one] [some Point.base]).2 rfl (by decide)).2 (by simp)
    obtain rfl : present = [Point.base] :=
      List.map_injective_iff.mpr (Option.some_injective Point) hpresent.symm
    exact ⟨sum, hsum, hpresentSum⟩
  · exact (hoptional [Scalar.one] [none, some Point.base]).1.countMismatch_iff.mpr (by decide)
  · exact ((hfirst 1 [Scalar.one, Scalar.zero] [Point.base]).1 (by decide) (by decide)).1
  · exact (hempty _ _ _ (.inr (.inl rfl))).1

end Batch

end TwistedEdwards
