import TwistedEdwards.Multiscalar.Buckets
import TwistedEdwards.Proofs.Digits.Window
import TwistedEdwards.Proofs.Multiscalar.Combination

/-!
# The sum by buckets

The bucket of a magnitude collects the points of the terms whose digit has that magnitude,
each with the sign of its digit.  The running sum on the way down is the sum of the
buckets gone through, so the sum of the running sums counts the bucket of magnitude `m`
just `m` times, which makes the combination with the digits.  A running sum that has not
begun stands for the neutral element, and so does the total then, so leaving both out of an
addition changes nothing.

Main statements: `Buckets.fill_holds`, `Buckets.collapse_denotes` and
`Buckets.sumWith_denotes`.
-/

namespace TwistedEdwards

open Multiscalar

namespace Buckets

/-- What a digit puts into the bucket of a magnitude: its sign, or nothing. -/
def share (magnitude : Nat) (digit : Int) : Int :=
  if digit.natAbs = magnitude then digit.sign else 0

/-- A digit is the sum of what it puts into the buckets, each counted by its magnitude. -/
theorem sum_share {n : Nat} {digit : Int} (hdigit : digit.natAbs ≤ n) :
    ∑ j ∈ Finset.range n, ((j + 1 : Nat) : Int) * share (j + 1) digit = digit := by
  by_cases hzero : digit = 0
  · rw [hzero]
    apply Finset.sum_eq_zero
    intro j _
    unfold share
    rw [if_neg (by simp), mul_zero]
  · have hplace : digit.natAbs - 1 + 1 = digit.natAbs := by omega
    rw [Finset.sum_eq_single (digit.natAbs - 1)]
    · unfold share
      rw [hplace, if_pos rfl, mul_comm]
      exact Int.sign_mul_natAbs digit
    · intro j _ hne
      unfold share
      rw [if_neg (by omega), mul_zero]
    · intro hout
      rw [Finset.mem_range] at hout
      omega

/-- Bucket `j` of the row stands for the point `B j`. -/
def Holds (buckets : Row) (B : Nat → AffinePoint) : Prop :=
  ∀ j, ∀ bucket ∈ buckets[j]?, (content bucket).Denotes (B j)

variable {buckets : Row} {B : Nat → AffinePoint}

/-- The points that the buckets stand for may be written in another way. -/
theorem Holds.of_eq {B' : Nat → AffinePoint} (hbuckets : Holds buckets B)
    (h : ∀ j, B j = B' j) : Holds buckets B' := by
  intro j bucket hbucket
  rw [← h j]
  exact hbuckets j bucket hbucket

/-- A change that adds a point does so in one bucket. -/
theorem Holds.modify (hbuckets : Holds buckets B) {f : Option Point → Option Point}
    {Q : AffinePoint}
    (hf : ∀ bucket X, (content bucket).Denotes X → (content (f bucket)).Denotes (X + Q)) (k : Nat) :
    Holds (buckets.modify k f) (fun j => if k = j then B j + Q else B j) := by
  intro j bucket hbucket
  dsimp only
  rw [Array.getElem?_modify] at hbucket
  by_cases hplace : k = j
  · rw [if_pos hplace] at hbucket ⊢
    obtain ⟨before, hbefore, rfl⟩ := Option.map_eq_some_iff.mp hbucket
    exact hf before (B j) (hbuckets j before hbefore)
  · rw [if_neg hplace] at hbucket ⊢
    exact hbuckets j bucket hbucket

/-- A deposit adds its share to every bucket. -/
theorem Holds.deposit (hbuckets : Holds buckets B) {point : CachedPoint} {P : AffinePoint}
    (hpoint : point.Denotes P) (digit : Int) :
    Holds (deposit buckets digit point) (fun j => B j + share (j + 1) digit • P) := by
  unfold Buckets.deposit
  rcases lt_trichotomy digit 0 with hneg | rfl | hpos
  · have hsub : ∀ bucket X, (content bucket).Denotes X →
        (content (some ((content bucket).subCached point).extended)).Denotes (X + -P) := by
      intro bucket X hX
      rw [← sub_eq_add_neg]
      exact (hX.subCached hpoint).extended
    rw [if_neg (by omega), if_pos hneg]
    refine (hbuckets.modify hsub (place digit)).of_eq ?_
    intro j
    unfold place share
    rw [Int.sign_eq_neg_one_of_neg hneg]
    by_cases hj : digit.natAbs - 1 = j
    · rw [if_pos hj, if_pos (by omega), neg_one_zsmul]
    · rw [if_neg hj, if_neg (by omega), zero_zsmul, add_zero]
  · rw [if_neg (by decide), if_neg (by decide)]
    refine hbuckets.of_eq ?_
    intro j
    rw [share, if_neg (by simp), zero_zsmul, add_zero]
  · have hadd : ∀ bucket X, (content bucket).Denotes X →
        (content (some ((content bucket).addCached point).extended)).Denotes (X + P) :=
      fun bucket X hX => (hX.addCached hpoint).extended
    rw [if_pos hpos]
    refine (hbuckets.modify hadd (place digit)).of_eq ?_
    intro j
    unfold place share
    rw [Int.sign_eq_one_of_pos hpos]
    by_cases hj : digit.natAbs - 1 = j
    · rw [if_pos hj, if_pos (by omega), one_zsmul]
    · rw [if_neg hj, if_neg (by omega), zero_zsmul, add_zero]

/-- The digit of a window. -/
def windowDigit (w : Nat) (scalar : Octets 32) (i : Nat) : Int :=
  (Digits.signedWindows w scalar).getD i 0

variable {w : Nat}

/-- A digit of a window of `w` bits has a bucket, unless it is zero. -/
theorem natAbs_le_of_range {digit : Int}
    (hdigit : -2 ^ (w - 1) ≤ digit ∧ digit ≤ 2 ^ (w - 1) - 1) : digit.natAbs ≤ 2 ^ (w - 1) := by
  have hcast : ((2 ^ (w - 1) : Nat) : Int) = 2 ^ (w - 1) := Nat.cast_pow 2 (w - 1)
  omega

/-- The magnitude of a window digit is at most half the radix. -/
theorem windowDigit_range (scalar : Octets 32) (hw : 1 ≤ w) (hw' : w ≤ 16) (i : Nat) :
    (windowDigit w scalar i).natAbs ≤ 2 ^ (w - 1) := by
  have hsmall : ∀ d ∈ Digits.signedWindows w scalar, d.natAbs ≤ 2 ^ (w - 1) :=
    fun d hd => natAbs_le_of_range (Digits.signedWindows_range scalar hw hw' d hd)
  exact Digits.forall_getD (Nat.zero_le _) hsmall i

/-- The row of a term holds its windows as they are. -/
theorem digit_prepare (term : Term) (hw : 1 ≤ w) (hw' : w ≤ 16) (i : Nat) :
    (prepare w term).digits.digit i = windowDigit w term.scalar i :=
  ShortRow.digit_ofDigits (Digits.signedWindows_fits term.scalar hw hw') i

/-- Depositing a list of points adds all their shares. -/
theorem Holds.foldl_deposit {ι : Type} (hbuckets : Holds buckets B) (digit : ι → Int)
    (point : ι → Point) {items : List ι} (hitems : ∀ t ∈ items, (point t).Valid) :
    Holds (items.foldl (fun buckets t =>
        Buckets.deposit buckets (digit t) (point t).cached) buckets)
      (fun j => B j + (items.map fun t => share (j + 1) (digit t) • (point t).toAffine).sum) := by
  induction items generalizing buckets B with
  | nil => exact hbuckets.of_eq fun j => (add_zero _).symm
  | cons t rest ih =>
      have hpoint := (hitems t List.mem_cons_self).denotes_toAffine.cached
      have hfirst := hbuckets.deposit hpoint (digit t)
      have hrest := ih hfirst (fun t' ht' => hitems t' (List.mem_cons_of_mem t ht'))
      refine hrest.of_eq ?_
      intro j
      rw [List.map_cons, List.sum_cons, add_assoc]

/-- **The buckets of a window.**  Each collects the signed points of its magnitude, whatever rows
of digits the points come with. -/
theorem fill_holds {ι : Type} (row : ι → ShortRow) (point : ι → Point) {items : List ι}
    (hitems : ∀ t ∈ items, (point t).Valid) (w i : Nat) :
    Holds (fill w (items.map fun t => ⟨row t, (point t).cached⟩) i) (fun j =>
      (items.map fun t => share (j + 1) ((row t).digit i) • (point t).toAffine).sum) := by
  have hempty : Holds (Array.replicate (2 ^ (w - 1)) none) (fun _ => 0) := by
    intro j bucket hbucket
    obtain ⟨hj, rfl⟩ := Array.getElem?_eq_some_iff.mp hbucket
    rw [Array.getElem_replicate]
    exact Point.identity_denotes
  have hfull := hempty.foldl_deposit (fun t => (row t).digit i) point hitems
  unfold fill
  rw [List.foldl_map]
  exact hfull.of_eq fun j => zero_add _

variable {terms : List Term} (hterms : ∀ term ∈ terms, term.point.Valid)

include hterms in
/-- The buckets of a window of the scalars. -/
theorem fill_denotes (hw : 1 ≤ w) (hw' : w ≤ 16) (i : Nat) :
    Holds (fill w (terms.map (prepare w)) i) (fun j =>
      combination (fun scalar => share (j + 1) (windowDigit w scalar i)) terms) := by
  refine (fill_holds _ Term.point hterms w i).of_eq ?_
  intro j
  unfold combination
  congr 1
  apply List.map_congr_left
  intro term _
  have hdigit := digit_prepare term hw hw' i
  rw [prepare] at hdigit
  rw [hdigit]

theorem size_foldl_deposit (terms : List Prepared) (i : Nat) (buckets : Row) :
    (terms.foldl (fun buckets term =>
      Buckets.deposit buckets (term.digits.digit i) term.point) buckets).size = buckets.size := by
  induction terms generalizing buckets with
  | nil => rfl
  | cons term rest ih => rw [List.foldl_cons, ih, size_deposit]

theorem size_fill (terms : List Prepared) (i : Nat) : (fill w terms i).size = 2 ^ (w - 1) := by
  rw [fill, size_foldl_deposit, Array.size_replicate]

/-- The running sum and the total stand for `R` and `T`, and a total to which nothing has been
added is the neutral element. -/
structure RunningSum.Denotes (s : RunningSum) (R T : AffinePoint) : Prop where
  running : (content s.running).Denotes R
  total : s.total.Denotes T
  untouched : s.running = none → s.total = Point.identity

/-- One bucket down. -/
theorem RunningSum.Denotes.descend {s : RunningSum} {R T : AffinePoint} (hs : s.Denotes R T)
    {bucket : Option Point} {Q : AffinePoint} (hbucket : (content bucket).Denotes Q) :
    (descend bucket s).Denotes (R + Q) (T + (R + Q)) := by
  obtain ⟨running, total⟩ := s
  obtain ⟨hrunning, htotal, huntouched⟩ := hs
  dsimp only at hrunning htotal huntouched
  cases bucket with
  | some p =>
      have hsum := hrunning.add hbucket
      refine ⟨hsum, htotal.add hsum, ?_⟩
      intro hnone
      cases hnone
  | none =>
      -- an empty bucket stands for the neutral element
      have hQ : Q = 0 := hbucket.unique Point.identity_denotes
      rw [hQ, add_zero]
      cases running with
      | some r =>
          refine ⟨hrunning, htotal.add hrunning, ?_⟩
          intro hnone
          cases hnone
      | none =>
          have hR : R = 0 := hrunning.unique Point.identity_denotes
          rw [hR, add_zero]
          exact ⟨Point.identity_denotes, htotal, huntouched⟩

/-- The running sum adds the buckets up from the last one on, and bucket `j` is in the running
sum for `j + 1` of the steps. -/
theorem foldr_descend_denotes {row : List (Option Point)} {B : Nat → AffinePoint}
    (hrow : ∀ j, ∀ bucket ∈ row[j]?, (content bucket).Denotes (B j)) :
    (row.foldr descend ⟨none, Point.identity⟩).Denotes (∑ j ∈ Finset.range row.length, B j)
      (∑ j ∈ Finset.range row.length, (j + 1) • B j) := by
  induction row generalizing B with
  | nil => exact ⟨Point.identity_denotes, Point.identity_denotes, fun _ => rfl⟩
  | cons bucket rest ih =>
      have hrest := ih (B := fun j => B (j + 1)) (fun j => hrow (j + 1))
      have hstep := hrest.descend (hrow 0 bucket rfl)
      have htotal : ∑ j ∈ Finset.range rest.length, (j + 1 + 1) • B (j + 1) =
          ∑ j ∈ Finset.range rest.length, (j + 1) • B (j + 1) +
            ∑ j ∈ Finset.range rest.length, B (j + 1) := by
        rw [← Finset.sum_add_distrib]
        exact Finset.sum_congr rfl fun j _ => succ_nsmul _ _
      rw [List.foldr_cons, List.length_cons, Finset.sum_range_succ', Finset.sum_range_succ',
        htotal, Nat.zero_add, one_nsmul, add_assoc]
      exact hstep

/-- **The way down.**  The running sum adds the buckets up, and the total counts bucket `j` for
`j + 1` times. -/
theorem collapse_denotes (hbuckets : Holds buckets B) :
    (collapse buckets).Denotes (∑ j ∈ Finset.range buckets.size, B j)
      (∑ j ∈ Finset.range buckets.size, (j + 1) • B j) := by
  unfold collapse
  rw [← Array.foldr_toList]
  apply foldr_descend_denotes
  intro j bucket hbucket
  rw [Array.getElem?_toList] at hbucket
  exact hbuckets j bucket hbucket

/-- Joining adds the total, also when it is left out. -/
theorem join_denotes {acc : Point} {A : AffinePoint} (hacc : acc.Denotes A) {s : RunningSum}
    {R T : AffinePoint} (hs : s.Denotes R T) : (join acc s).Denotes (A + T) := by
  obtain ⟨running, total⟩ := s
  obtain ⟨_, htotal, huntouched⟩ := hs
  dsimp only at htotal huntouched
  cases running with
  | some r => exact hacc.add htotal
  | none =>
      rw [huntouched rfl] at htotal
      rw [htotal.unique Point.identity_denotes, add_zero]
      exact hacc

include hterms in
/-- The buckets of a window make the combination with its digits. -/
theorem collapse_fill_denotes (hw : 1 ≤ w) (hw' : w ≤ 16) (i : Nat) : ∃ R,
    (collapse (fill w (terms.map (prepare w)) i)).Denotes R
      (combination (fun scalar => windowDigit w scalar i) terms) := by
  have hdown := collapse_denotes (fill_denotes hterms hw hw' i)
  have hdigits : combination (fun scalar => ∑ j ∈ Finset.range (2 ^ (w - 1)),
        ((j + 1 : Nat) : Int) * share (j + 1) (windowDigit w scalar i)) terms =
      combination (fun scalar => windowDigit w scalar i) terms :=
    combination_congr fun term _ => sum_share (windowDigit_range term.scalar hw hw' i)
  rw [size_fill, sum_combination (fun j => j + 1), hdigits] at hdown
  exact ⟨_, hdown⟩

include hterms in
/-- One window. -/
theorem window_denotes (hw : 1 ≤ w) (hw' : w ≤ 16) (i : Nat) {acc : Point} {A : AffinePoint}
    (hacc : acc.Denotes A) (htop : i + 1 = Digits.windowCount w → A = 0) :
    (window w (terms.map (prepare w)) i acc).Denotes
      (2 ^ w • A + combination (fun scalar => windowDigit w scalar i) terms) := by
  obtain ⟨R, htotal⟩ := collapse_fill_denotes hterms hw hw' i
  exact join_denotes (doubled_denotes hacc w htop) htotal

/-- The number of the digits of the signed windows. -/
def windowsValue (w : Nat) (scalar : Octets 32) : Int :=
  Digits.value (2 ^ w) (Digits.signedWindows w scalar)

/-- The value of all windows as a sum over the places. -/
theorem windowsValue_eq_sum (w : Nat) (scalar : Octets 32) :
    windowsValue w scalar =
      ∑ i ∈ Finset.range (Digits.windowCount w), (2 ^ w) ^ i * windowDigit w scalar i := by
  have hlength : (Digits.signedWindows w scalar).length = Digits.windowCount w :=
    Digits.length_signedWindowsFrom _ _ _ _ _
  rw [windowsValue, Digits.value_eq_sum, hlength]
  rfl

/-- What a scalar counts for with windows of `w` bits.  Windows of eight bits end at bit 256, and
the carry of a number beyond their reach is lost. -/
def counted (w : Nat) (scalar : Octets 32) : Int :=
  if w = 8 ∧ 127 * (2 ^ 256 - 1) < 255 * LittleEndian.value scalar.toList then
    LittleEndian.value scalar.toList - 2 ^ 256
  else LittleEndian.value scalar.toList

/-- Of the widths that are used only eight divides 256. -/
theorem windowsValue_eq_counted (scalar : Octets 32) (hw : 6 ≤ w) (hw' : w ≤ 11) :
    windowsValue w scalar = counted w scalar := by
  rw [windowsValue, counted]
  by_cases height : w = 8
  · have hcount : Digits.windowCount 8 = 32 := rfl
    rw [height, Digits.value_signedWindows scalar (by decide) (by decide), Digits.lastCarry_eight,
      hcount]
    by_cases hbeyond : 127 * (2 ^ 256 - 1) < 255 * LittleEndian.value scalar.toList
    · rw [if_pos hbeyond, if_pos ⟨rfl, hbeyond⟩, mul_one, ← pow_mul]
    · rw [if_neg hbeyond, if_neg (fun h => hbeyond h.2), mul_zero, sub_zero]
  · have hdvd : ¬w ∣ 256 := by
      have hall : ∀ v ≤ 11, 6 ≤ v → v ≠ 8 → ¬v ∣ 256 := by decide
      exact hall w hw' hw height
    rw [if_neg (fun h => height h.1)]
    exact (Digits.value_signedWindows_eq_iff scalar (by omega) (by omega)).mpr
      (Digits.lastCarry_eq_zero_of_not_dvd scalar (by omega) (by omega) hdvd)

/-- Below `2 ^ 254` the windows stand for the number. -/
theorem windowsValue_eq {scalar : Octets 32} (hscalar : LittleEndian.value scalar.toList < 2 ^ 254)
    (hw : 2 ≤ w) (hw' : w ≤ 16) : windowsValue w scalar = LittleEndian.value scalar.toList :=
  (Digits.value_signedWindows_eq_iff scalar (by omega) hw').mpr
    (Digits.lastCarry_eq_zero hscalar hw hw')

include hterms in
/-- The sum by buckets is the combination with the numbers of the windows. -/
theorem sumWith_denotes (hw : 1 ≤ w) (hw' : w ≤ 16) :
    (sumWith w terms).Denotes (combination (windowsValue w) terms) := by
  have hrun := run_denotes (2 ^ w) (Digits.windowCount w)
    (fun i _ acc A hacc htop => window_denotes hterms hw hw' i hacc htop)
  rw [Nat.cast_pow, Nat.cast_ofNat] at hrun
  rw [sumWith, evaluate, funext (windowsValue_eq_sum w)]
  exact hrun

theorem windowWidth_range (n : Nat) : 6 ≤ windowWidth n ∧ windowWidth n ≤ 11 := by
  unfold windowWidth
  split_ifs <;> omega

include hterms in
/-- The sum by buckets, with the width for the number of terms. -/
theorem sum_denotes :
    (sum terms).Denotes (combination (windowsValue (windowWidth terms.length)) terms) := by
  obtain ⟨hleast, hmost⟩ := windowWidth_range terms.length
  unfold sum
  by_cases hempty : terms.isEmpty
  · rw [if_pos hempty, List.isEmpty_iff.mp hempty]
    exact Point.identity_denotes
  · rw [if_neg hempty]
    exact sumWith_denotes hterms (by omega) (by omega)

end Buckets

end TwistedEdwards
