import TwistedEdwards.Proofs.Check.Points
import TwistedEdwards.Proofs.Multiscalar.Contract

/-!
# Sums of batches that are checked

Whatever batch is drawn has reduced scalars, and its points are neutral or drawn, so every way
of summing it stands for the sum in the group, and so does the plain sum.  Pairs of opposite
points under equal scalars cancel, whatever the scalars are: that is the cancelling batch, and
with all scalars zero or all minus one it is the two batches after it.  An index below the
count stands in the batch, so the point that it takes away is missed.

Main statements: `Batch.Admissible.exists_mulVartime_eq`, `Batch.randomChecks_pass`,
`Batch.thresholdChecks_pass`, `Batch.cancelChecks_pass` and `Batch.optionalChecks_pass`.
-/

namespace TwistedEdwards

open Generator

namespace Batch

variable {scalars : List Scalar} {points : List Point}

/-- The result is a sum that stands for the point of the group. -/
def IsSumOf (result : Except BatchError Point) (P : AffinePoint) : Prop :=
  ∃ sum, result = .ok sum ∧ sum.Denotes P

/-- Results that stand for one point write the same string. -/
theorem IsSumOf.sameOctets {result : Except BatchError Point} {p : Point} {P : AffinePoint}
    (h : IsSumOf result P) (hp : p.Denotes P) :
    sumSatisfies result (Point.sameOctets · p) = true := by
  obtain ⟨sum, rfl, hsum⟩ := h
  rw [sumSatisfies_ok]
  exact hsum.sameOctets hp rfl

namespace Admissible

variable (h : Admissible scalars points)

include h in
theorem mul_isSumOf : IsSumOf (mul scalars points) (groupSum scalars points) :=
  ⟨_, mul_eq h.length_eq h.length_le, h.uniform_denotes⟩

include h in
/-- The sum of an admissible batch by a chosen algorithm. -/
theorem mulWith_isSumOf (algorithm : Algorithm) :
    IsSumOf (mulWith algorithm scalars points) (groupSum scalars points) :=
  ⟨_, mulWith_eq algorithm h.length_eq h.length_le, h.algorithm_denotes algorithm⟩

include h in
/-- The sum of an admissible batch in variable time. -/
theorem mulVartime_isSumOf : IsSumOf (mulVartime scalars points) (groupSum scalars points) := by
  rw [mulVartime_eq_mulWith h.length_eq h.length_le]
  exact h.mulWith_isSumOf _

end Admissible

/-- Pairs of reduced scalars and valid points make an admissible batch. -/
theorem admissible_unzip {pairs : List (Scalar × Point)} {n : Nat} (hn : n ≤ maxCount)
    (h : pairs.length = n ∧ ∀ pair ∈ pairs, pair.1.Reduced ∧ pair.2.Valid) :
    Admissible (pairs.map Prod.fst) (pairs.map Prod.snd) := by
  obtain ⟨hlength, h⟩ := h
  refine ⟨?_, ?_, ?_, ?_⟩
  · rw [List.length_map, List.length_map]
  · rwa [List.length_map, hlength]
  · intro s hs
    obtain ⟨pair, hpair, rfl⟩ := List.mem_map.mp hs
    exact (h pair hpair).1
  · intro p hp
    obtain ⟨pair, hpair, rfl⟩ := List.mem_map.mp hp
    exact (h pair hpair).2

theorem always_randomPairs (n : Nat) : Always (randomPairs n) fun pairs =>
    pairs.length = n ∧ ∀ pair ∈ pairs, pair.1.Reduced ∧ pair.2.Valid := by
  have hpair : ∀ i ∈ List.range n, Always (do
      let s ← Generator.scalar
      let p ← Generator.point
      return (s, p)) fun pair : Scalar × Point => pair.1.Reduced ∧ pair.2.Valid :=
    fun _ _ => always_scalar.bind fun _ hs => always_point.bind fun _ hp =>
      Always.pure ⟨hs, hp.valid⟩
  have hall := Always.mapM hpair
  rw [List.length_range] at hall
  exact hall

/-- Trials that pass at every size pass together. -/
theorem always_sizedTrials (name : String) {sizes : List Nat} (count : Nat)
    {trial : String → Nat → Draw (List Check)}
    (h : ∀ label, ∀ n ∈ sizes, Always (trial label n) AllPass) :
    Always (sizedTrials name sizes count trial) AllPass :=
  always_flatten_mapM fun n hn => always_trials fun _ => h _ n hn

/-- Every way of summing agrees with the plain sum. -/
theorem randomChecks_pass (label : String) (h : Admissible scalars points) :
    AllPass (randomChecks label scalars points) :=
  .cons (h.mulVartime_isSumOf.sameOctets h.plainSum_denotes)
    (.cons (h.mul_isSumOf.sameOctets h.plainSum_denotes)
      (.cons ((h.mulWith_isSumOf .pippenger).sameOctets h.plainSum_denotes) .nil))

/-- A random batch of any size that lists can have. -/
theorem always_randomTrial (label : String) {n : Nat} (hn : n ≤ maxCount) :
    Always (randomTrial label n) AllPass :=
  (always_randomPairs n).bind fun _ hpairs =>
    Always.pure (randomChecks_pass label (admissible_unzip hn hpairs))

theorem always_randomTrials : Always randomTrials AllPass := by
  have hsizes : ∀ n ∈ [1, 2, 3, 8, 16, 33, 64], n ≤ maxCount := by decide
  exact always_sizedTrials _ _ fun label n hn => always_randomTrial label (hsizes n hn)

/-- Both algorithms agree, and with them the one chosen for the count. -/
theorem thresholdChecks_pass (label : String) (h : Admissible scalars points) :
    AllPass (thresholdChecks label scalars points) := by
  obtain ⟨straus, hstraus, hdenotes⟩ := h.mulWith_isSumOf .straus
  have hagrees : ∀ {result}, IsSumOf result (groupSum scalars points) →
      ((mulWith .straus scalars points).toOption.any fun expected =>
        sumSatisfies result (Point.sameOctets · expected)) = true := by
    intro result hresult
    rw [hstraus, Except.toOption, Option.any_some]
    exact hresult.sameOctets hdenotes
  have hselection : (Algorithm.ofCount scalars.length ==
      if scalars.length < 190 then .straus else .pippenger) = true := beq_self_eq_true _
  unfold thresholdChecks
  dsimp only
  refine .cons hselection (.cons ?_ (.cons ?_ (.cons ?_ .nil)))
  · exact hagrees (h.mulWith_isSumOf .pippenger)
  · exact hagrees h.mulVartime_isSumOf
  · exact hagrees h.mul_isSumOf

/-- The batches around the threshold, on both sides of it. -/
theorem always_thresholdTrials : Always thresholdTrials AllPass := by
  have hsizes : ∀ n ∈ [188, 189, 190, 191, 256, 511, 800], n ≤ maxCount := by decide
  exact always_flatten_mapM fun n hn => (always_randomPairs n).bind fun _ hpairs =>
    Always.pure (thresholdChecks_pass _ (admissible_unzip (hsizes n hn) hpairs))

/-- Neither the neutral point nor the zero scalar is drawn, and both are admissible. -/
theorem always_sparsePair (j : Nat) :
    Always (sparsePair j) fun pair => pair.1.Reduced ∧ pair.2.Valid := by
  have hpair : ∀ p : Point, p.Valid → Always (if j % 3 = 0 then do
      let s ← pure Scalar.zero
      return (s, p)
    else do
      let s ← Generator.scalar
      return (s, p)) fun pair : Scalar × Point => pair.1.Reduced ∧ pair.2.Valid := by
    intro p hp
    split
    · exact Always.pure ⟨Scalar.zero_denotes.reduced, hp⟩
    · exact always_scalar.bind fun s hs => Always.pure ⟨hs, hp⟩
  unfold sparsePair
  dsimp only
  split
  · exact hpair Point.identity Point.identity_denotes.valid
  · exact always_point.bind fun p hp => hpair p hp.valid

/-- An entry is replaced, none is added. -/
theorem length_repeatLast (points : List Point) : (repeatLast points).length = points.length := by
  fun_induction repeatLast points with
  | case1 => rfl
  | case2 => rfl
  | case3 => rfl
  | case4 p q r rest ih => exact congrArg (· + 1) ih

/-- The entry that replaces another is in the list. -/
theorem mem_of_mem_repeatLast {p : Point} (h : p ∈ repeatLast points) : p ∈ points := by
  fun_induction repeatLast points with
  | case1 => exact h
  | case2 => exact h
  | case3 q r =>
      obtain rfl : p = q := by simpa using h
      exact List.mem_cons_self
  | case4 q r s rest ih =>
      obtain rfl | h := List.mem_cons.mp h
      · exact List.mem_cons_self
      · exact List.mem_cons_of_mem q (ih h)

/-- Repeating a point keeps a batch admissible. -/
theorem Admissible.repeatLast (h : Admissible scalars points) :
    Admissible scalars (Batch.repeatLast points) :=
  ⟨h.length_eq.trans (length_repeatLast points).symm, h.length_le, h.reduced,
    fun p hp => h.valid p (mem_of_mem_repeatLast hp)⟩

/-- Zero scalars, neutral points and a repeated point change nothing. -/
theorem sparseChecks_pass (label : String) (h : Admissible scalars points) :
    AllPass (sparseChecks label scalars points) :=
  .cons (h.mulVartime_isSumOf.sameOctets h.plainSum_denotes)
    (.cons (h.mul_isSumOf.sameOctets h.plainSum_denotes)
      (.cons ((h.mulWith_isSumOf .straus).sameOctets h.plainSum_denotes) .nil))

/-- A sparse batch of any size that lists can have. -/
theorem always_sparseTrial (label : String) {n : Nat} (hn : n ≤ maxCount) :
    Always (sparseTrial label n) AllPass := by
  have hrange : (List.range n).length ≤ maxCount := by rwa [List.length_range]
  exact (Always.mapM fun j _ => always_sparsePair j).bind fun _ hpairs =>
    Always.pure (sparseChecks_pass label (admissible_unzip hrange hpairs).repeatLast)

section Cancelling

variable {pairs : List (Scalar × Point)}

/-- Every scalar of a pair twice. -/
def twice (pairs : List (Scalar × Point)) : List Scalar := pairs.flatMap fun (s, _) => [s, s]

/-- Every point of a pair and its negative. -/
def opposite (pairs : List (Scalar × Point)) : List Point := pairs.flatMap fun (_, p) => [p, -p]

theorem twice_cons (pair : Scalar × Point) (rest : List (Scalar × Point)) :
    twice (pair :: rest) = pair.1 :: pair.1 :: twice rest := rfl

theorem opposite_cons (pair : Scalar × Point) (rest : List (Scalar × Point)) :
    opposite (pair :: rest) = pair.2 :: -pair.2 :: opposite rest := rfl

/-- Two entries for every one. -/
theorem length_flatMap_pair {α β : Type} (f g : α → β) (xs : List α) :
    (xs.flatMap fun x => [f x, g x]).length = 2 * xs.length := by
  induction xs with
  | nil => rfl
  | cons x rest ih =>
      rw [List.flatMap_cons, List.length_append, ih, List.length_cons, List.length_cons,
        List.length_cons, List.length_nil]
      omega

theorem length_twice (pairs : List (Scalar × Point)) :
    (twice pairs).length = 2 * pairs.length :=
  length_flatMap_pair Prod.fst Prod.fst pairs

theorem length_opposite (pairs : List (Scalar × Point)) :
    (opposite pairs).length = 2 * pairs.length :=
  length_flatMap_pair Prod.snd (fun pair => -pair.2) pairs

/-- A cancelling batch is admissible if its pairs are. -/
theorem admissible_cancelling (hlength : 2 * pairs.length ≤ maxCount)
    (h : ∀ pair ∈ pairs, pair.1.Reduced ∧ pair.2.Valid) :
    Admissible (twice pairs) (opposite pairs) := by
  refine ⟨?_, ?_, ?_, ?_⟩
  · rw [length_twice, length_opposite]
  · rwa [length_twice]
  · intro s hs
    obtain ⟨pair, hpair, hs⟩ := List.mem_flatMap.mp hs
    rcases List.mem_pair.mp hs with rfl | rfl
    · exact (h pair hpair).1
    · exact (h pair hpair).1
  · intro p hp
    obtain ⟨pair, hpair, hp⟩ := List.mem_flatMap.mp hp
    rcases List.mem_pair.mp hp with rfl | rfl
    · exact (h pair hpair).2
    · exact (h pair hpair).2.denotes.neg.valid

/-- The first term is added to the sum of the rest. -/
theorem groupSum_cons (s : Scalar) (p : Point) (scalars : List Scalar) (points : List Point) :
    groupSum (s :: scalars) (p :: points) = s.toNat • p.toAffine + groupSum scalars points := by
  rw [groupSum, List.zip_cons_cons, List.map_cons, List.sum_cons, groupSum]

/-- Opposite points under equal scalars cancel. -/
theorem groupSum_cancelling (h : ∀ pair ∈ pairs, pair.2.Valid) :
    groupSum (twice pairs) (opposite pairs) = 0 := by
  induction pairs with
  | nil => rfl
  | cons pair rest ih =>
      obtain ⟨hp, hrest⟩ := List.forall_mem_cons.mp h
      have hp := hp.denotes_toAffine
      have hneg := hp.neg.toAffine_eq
      rw [twice_cons, opposite_cons, groupSum_cons, groupSum_cons, ih hrest, hneg, smul_neg,
        add_zero, add_neg_cancel]

/-- Opposite points are subtracted to nothing. -/
theorem foldl_sub_denotes (h : ∀ pair ∈ pairs, pair.2.Valid) {acc : Point} {A : AffinePoint}
    (hacc : acc.Denotes A) : ((opposite pairs).foldl (fun acc p => acc - p) acc).Denotes A := by
  induction pairs generalizing acc with
  | nil => exact hacc
  | cons pair rest ih =>
      obtain ⟨hp, hrest⟩ := List.forall_mem_cons.mp h
      have hstep := (hacc.sub hp.denotes).sub hp.denotes.neg
      rw [sub_neg_eq_add, sub_add_cancel] at hstep
      rw [opposite_cons, List.foldl_cons, List.foldl_cons]
      exact ih hrest hstep

/-- The same scalar throughout is that scalar twice for every pair. -/
theorem replicate_eq_twice (s : Scalar) (pairs : List (Scalar × Point)) :
    List.replicate (2 * pairs.length) s = twice (pairs.map fun pair => (s, pair.2)) := by
  induction pairs with
  | nil => rfl
  | cons pair rest ih =>
      rw [List.length_cons, Nat.mul_succ, List.replicate_succ, List.replicate_succ, ih,
        List.map_cons, twice_cons]

/-- The points of the pairs do not depend on the scalars. -/
theorem opposite_map (s : Scalar) (pairs : List (Scalar × Point)) :
    opposite (pairs.map fun pair => (s, pair.2)) = opposite pairs := by
  rw [opposite, List.flatMap_map, opposite]

/-- Both sums of a cancelling batch are neutral. -/
theorem bothSatisfy_pass (label : String) {property : Point → Bool}
    (hproperty : ∀ p : Point, p.Denotes 0 → property p = true)
    (hlength : 2 * pairs.length ≤ maxCount)
    (h : ∀ pair ∈ pairs, pair.1.Reduced ∧ pair.2.Valid) :
    AllPass (bothSatisfy label (twice pairs) (opposite pairs) property) := by
  have hadmissible := admissible_cancelling hlength h
  have hsum := groupSum_cancelling fun pair hpair => (h pair hpair).2
  have hneutral : ∀ {result}, IsSumOf result (groupSum (twice pairs) (opposite pairs)) →
      sumSatisfies result property = true := by
    rintro result ⟨sum, rfl, hdenotes⟩
    rw [hsum] at hdenotes
    rw [sumSatisfies_ok]
    exact hproperty sum hdenotes
  exact .cons (hneutral hadmissible.mulVartime_isSumOf)
    (.cons (hneutral hadmissible.mul_isSumOf) .nil)

/-- The cancelling batch, then its points under zero and under minus one. -/
theorem cancelChecks_pass {n : Nat} (hn : 2 * pairs.length = n) (hmax : n ≤ maxCount)
    (h : ∀ pair ∈ pairs, pair.1.Reduced ∧ pair.2.Valid) : AllPass (cancelChecks n pairs) := by
  have hlength : 2 * pairs.length ≤ maxCount := hn ▸ hmax
  have hconstantLength : ∀ s : Scalar,
      2 * (pairs.map fun pair => (s, pair.2)).length ≤ maxCount := by
    intro s
    rwa [List.length_map]
  have hconstant : ∀ s : Scalar, s.Reduced →
      ∀ pair ∈ pairs.map fun pair => (s, pair.2), pair.1.Reduced ∧ pair.2.Valid := by
    intro s hs pair hpair
    obtain ⟨drawn, hdrawn, rfl⟩ := List.mem_map.mp hpair
    exact ⟨hs, (h drawn hdrawn).2⟩
  have hidentity : ∀ p : Point, p.Denotes 0 → p.isIdentity = true :=
    fun p hp => hp.isIdentity_iff.mpr rfl
  have hexpected := foldl_sub_denotes (fun pair hpair => (h pair hpair).2) Point.identity_denotes
  have hzero := bothSatisfy_pass ("all_zero[n=" ++ toString n ++ "]") hidentity
    (hconstantLength Scalar.zero) (hconstant Scalar.zero Scalar.zero_denotes.reduced)
  have hminus := bothSatisfy_pass ("minus_one[n=" ++ toString n ++ "]")
    (fun p hp => hp.sameOctets hexpected rfl) (hconstantLength (-Scalar.one))
    (hconstant (-Scalar.one) Scalar.one_denotes.neg.reduced)
  rw [opposite_map, ← replicate_eq_twice, hn] at hzero hminus
  exact .append (.append (bothSatisfy_pass _ hidentity hlength h) hzero) hminus

/-- Both sizes of the sparse batches, with the cancelling one after each. -/
theorem always_sparseTrials : Always sparseTrials AllPass := by
  have hsize : ∀ n ∈ [8, 200], Always (sparseSize n) AllPass := by
    intro n hn
    have heven : ∀ n ∈ [8, 200], 2 * (n / 2) = n := by decide
    have hmax : ∀ n ∈ [8, 200], n ≤ maxCount := by decide
    have hsparse : ∀ label, ∀ m ∈ [n], Always (sparseTrial label m) AllPass := by
      intro label m hm
      obtain rfl := List.mem_singleton.mp hm
      exact always_sparseTrial label (hmax m hn)
    refine (always_sizedTrials _ _ hsparse).bind
      fun _ hsparse => (always_randomPairs (n / 2)).bind fun pairs hpairs => ?_
    have hpaired : 2 * pairs.length = n := hpairs.1 ▸ heven n hn
    exact Always.pure (hsparse.append (cancelChecks_pass hpaired (hmax n hn) hpairs.2))
  exact always_flatten_mapM hsize

end Cancelling

/-- With every point present the optional sum is the sum, and without one there is none. -/
theorem optionalChecks_pass (label : String) (h : Admissible scalars points) {index : Nat}
    (hindex : index < points.length) : AllPass (optionalChecks label scalars points index) := by
  obtain ⟨sum, hsum, hdenotes⟩ := h.mulVartime_isSumOf
  have hpresent : mulOptional scalars (points.map some) = .ok (some sum) := by
    rw [mulOptional_map_some scalars points h.length_le, hsum]
    rfl
  have hlength : scalars.length = ((points.map some).set index none).length := by
    rw [List.length_set, List.length_map, h.length_eq]
  have habsent : none ∈ (points.map some).set index none := by
    apply List.mem_set
    rwa [List.length_map]
  have hlacking : mulOptional scalars ((points.map some).set index none) = .ok none :=
    (mulOptional_eq_none_iff hlength h.length_le).mpr habsent
  have hsame : sumSatisfies (mulVartime scalars points) sum.sameOctets = true := by
    rw [hsum, sumSatisfies_ok]
    exact hdenotes.sameOctets hdenotes rfl
  unfold optionalChecks
  dsimp only
  rw [hpresent, hlacking, Except.toOption, Except.toOption, Option.join_some, Option.any_some]
  exact .cons hsame (.cons rfl .nil)

/-- The index that is drawn is taken modulo the size, so it is in the batch. -/
theorem always_optionalTrials : Always optionalTrials AllPass := by
  refine always_sizedTrials _ _ fun label n hn => ?_
  have hsizes : ∀ n ∈ [1, 5, 190], 0 < n ∧ n ≤ maxCount := by decide
  obtain ⟨hpositive, hmax⟩ := hsizes n hn
  refine (always_randomPairs n).bind fun pairs hpairs => (always_true next).bind fun r _ => ?_
  refine Always.pure (optionalChecks_pass label (admissible_unzip hmax hpairs) ?_)
  rw [List.length_map, hpairs.1]
  exact Nat.mod_lt _ hpositive

end Batch

end TwistedEdwards
