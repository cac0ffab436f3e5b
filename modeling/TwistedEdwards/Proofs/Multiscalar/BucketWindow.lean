import TwistedEdwards.Proofs.Multiscalar.Buckets

/-!
# One window by buckets

The pass over the terms of a window and the way down through its buckets, for any width, any rows
of digits and any valid points.  Two shortcuts are taken on the way: a bucket that no term was
put into is left out of the running sum, and a running sum that has not begun is left out of
the total.  A bucket is empty exactly if no digit has its magnitude, so a bucket whose points
cancelled is still gone through, and the whole window is left out only if all its digits are zero.

Main statements: `Buckets.sum_smul_signedSum`, `Buckets.collapse_fill_running_eq_none_iff` and
`Buckets.window_exact`.
-/

namespace TwistedEdwards

open Multiscalar

namespace Buckets

/-- A deposit leaves the buckets of other magnitudes alone. -/
theorem getElem?_deposit_of_ne {digit : Int} {j : Nat} (hne : digit.natAbs ≠ j + 1)
    (buckets : Row) (point : CachedPoint) :
    (deposit buckets digit point)[j]? = buckets[j]? := by
  unfold deposit place
  rcases lt_trichotomy digit 0 with hneg | rfl | hpos
  · rw [if_neg (by omega), if_pos hneg, Array.getElem?_modify, if_neg (by omega)]
  · rfl
  · rw [if_pos hpos, Array.getElem?_modify, if_neg (by omega)]

/-- The bucket of the digit's magnitude is not empty after a deposit, whatever its sum. -/
theorem getElem?_deposit_of_eq {digit : Int} {j : Nat} (heq : digit.natAbs = j + 1)
    (buckets : Row) (point : CachedPoint) :
    (deposit buckets digit point)[j]? ≠ some none := by
  unfold deposit place
  rcases lt_trichotomy digit 0 with hneg | rfl | hpos
  · rw [if_neg (by omega), if_pos hneg, Array.getElem?_modify, if_pos (by omega)]
    cases buckets[j]? <;> simp
  · simp at heq
  · rw [if_pos hpos, Array.getElem?_modify, if_pos (by omega)]
    cases buckets[j]? <;> simp

/-- One deposit: a bucket stays empty if the digit is of another magnitude. -/
theorem deposit_eq_none_iff (buckets : Row) (digit : Int) (point : CachedPoint) (j : Nat) :
    (deposit buckets digit point)[j]? = some none ↔
      buckets[j]? = some none ∧ digit.natAbs ≠ j + 1 := by
  by_cases hplace : digit.natAbs = j + 1
  · have hused := getElem?_deposit_of_eq hplace buckets point
    exact iff_of_false hused (fun h => h.2 hplace)
  · rw [getElem?_deposit_of_ne hplace]
    exact (and_iff_left hplace).symm

/-- The buckets of a window are empty where no digit puts anything. -/
theorem fill_eq_none_iff (w : Nat) (terms : List Prepared) (i j : Nat) :
    (fill w terms i)[j]? = some none ↔
      j < 2 ^ (w - 1) ∧ ∀ term ∈ terms, (term.digits.digit i).natAbs ≠ j + 1 := by
  have hfold : ∀ buckets : Row, (terms.foldl (fun buckets term =>
        deposit buckets (term.digits.digit i) term.point) buckets)[j]? = some none ↔
      buckets[j]? = some none ∧
        ∀ term ∈ terms, (term.digits.digit i).natAbs ≠ j + 1 := by
    induction terms with
    | nil => simp
    | cons term rest ih =>
        intro buckets
        rw [List.foldl_cons, ih, deposit_eq_none_iff, and_assoc, List.forall_mem_cons]
  rw [fill, hfold, Array.getElem?_replicate]
  simp

/-- One bucket down: the running sum begins with the first bucket that is not empty. -/
theorem descend_running_eq_none_iff (bucket : Option Point) (s : RunningSum) :
    (descend bucket s).running = none ↔ bucket = none ∧ s.running = none := by
  obtain ⟨running, total⟩ := s
  cases bucket with
  | some p => exact iff_of_false (fun h => by cases h) (fun h => by cases h.1)
  | none =>
      cases running with
      | some r => exact iff_of_false (fun h => by cases h) (fun h => by cases h.2)
      | none => exact iff_of_true rfl ⟨rfl, rfl⟩

/-- The way down: the running sum never begins exactly if all buckets are empty. -/
theorem collapse_running_eq_none_iff (buckets : Row) :
    (collapse buckets).running = none ↔ ∀ bucket ∈ buckets, bucket = none := by
  have hdown : ∀ row : List (Option Point),
      (row.foldr descend ⟨none, Point.identity⟩).running = none ↔
        ∀ bucket ∈ row, bucket = none := by
    intro row
    induction row with
    | nil => exact iff_of_true rfl (by simp)
    | cons bucket rest ih =>
        rw [List.foldr_cons, descend_running_eq_none_iff, ih, List.forall_mem_cons]
  unfold collapse
  rw [← Array.foldr_toList, hdown]
  simp only [Array.mem_toList_iff]

/-- A point with the digits of its multiple. -/
structure DigitTerm where
  digits : ShortRow
  point : Point

namespace DigitTerm

/-- The digit of a window. -/
def digit (term : DigitTerm) (i : Nat) : Int := term.digits.digit i

/-- A term with its digits given, made ready for its buckets. -/
def prepared (term : DigitTerm) : Prepared := ⟨term.digits, term.point.cached⟩

end DigitTerm

variable (w i : Nat) (terms : List DigitTerm)

/-- The sum of the points whose digits have a magnitude, each with the sign of its digit. -/
def signedSum (magnitude : Nat) : AffinePoint :=
  ((terms.filter fun term => (term.digit i).natAbs = magnitude).map fun term =>
    (term.digit i).sign • term.point.toAffine).sum

/-- The sum of the points, each times its digit. -/
def digitSum : AffinePoint := (terms.map fun term => term.digit i • term.point.toAffine).sum

/-- What a bucket gets of the terms is their signed sum. -/
theorem sum_share_smul (magnitude : Nat) :
    (terms.map fun term => share magnitude (term.digit i) • term.point.toAffine).sum =
      signedSum i terms magnitude := by
  induction terms with
  | nil => rfl
  | cons term rest ih =>
      unfold signedSum at ih ⊢
      rw [List.map_cons, List.sum_cons, ih, share]
      by_cases hplace : (term.digit i).natAbs = magnitude
      · rw [if_pos hplace, List.filter_cons_of_pos (by simpa using hplace), List.map_cons,
          List.sum_cons]
      · rw [if_neg hplace, List.filter_cons_of_neg (by simpa using hplace), zero_zsmul, zero_add]

variable {w i terms}

/-- The signed sums, each times its magnitude, make the sum by the digits. -/
theorem sum_smul_signedSum
    (hdigits : ∀ term ∈ terms, -2 ^ (w - 1) ≤ term.digit i ∧ term.digit i ≤ 2 ^ (w - 1) - 1) :
    ∑ j ∈ Finset.range (2 ^ (w - 1)), (j + 1) • signedSum i terms (j + 1) =
      digitSum i terms := by
  have hwhole : ∀ term ∈ terms,
      (∑ j ∈ Finset.range (2 ^ (w - 1)), ((j + 1 : Nat) : Int) * share (j + 1) (term.digit i)) •
        term.point.toAffine = term.digit i • term.point.toAffine := by
    intro term hterm
    rw [sum_share (natAbs_le_of_range (hdigits term hterm))]
  simp only [← sum_share_smul]
  rw [sum_smul_sum_map (fun j => j + 1), digitSum, List.map_congr_left hwhole]

/-- The bucket at a place, the empty one off the row. -/
def bucketAt (buckets : Row) (j : Nat) : Option Point := buckets.getD j none

variable {buckets : Row} {j : Nat}

theorem getElem?_eq_bucketAt (hj : j < buckets.size) :
    buckets[j]? = some (bucketAt buckets j) := by
  rw [bucketAt, Array.getD_eq_getD_getElem?, Array.getElem?_eq_getElem hj, Option.getD_some]

theorem Holds.bucketAt_denotes {B : Nat → AffinePoint} (hbuckets : Holds buckets B)
    (hj : j < buckets.size) : (content (bucketAt buckets j)).Denotes (B j) :=
  hbuckets j _ (getElem?_eq_bucketAt hj)

theorem forall_mem_iff_forall_bucketAt (property : Option Point → Prop) :
    (∀ bucket ∈ buckets, property bucket) ↔ ∀ j < buckets.size, property (bucketAt buckets j) := by
  constructor
  · intro h j hj
    exact h _ (Array.mem_of_getElem? (getElem?_eq_bucketAt hj))
  · intro h bucket hbucket
    obtain ⟨j, hj, rfl⟩ := Array.mem_iff_getElem.mp hbucket
    have hread := getElem?_eq_bucketAt hj
    rw [Array.getElem?_eq_getElem hj, Option.some_inj] at hread
    rw [hread]
    exact h j hj

/-- A window whose buckets were all empty adds nothing. -/
theorem join_of_eq_none {sums : RunningSum} (hnone : sums.running = none) (acc : Point) :
    join acc sums = acc := by
  unfold join
  rw [hnone]

/-- Any other window adds its total. -/
theorem join_of_ne_none {sums : RunningSum} (hsome : sums.running ≠ none) (acc : Point) :
    join acc sums = acc + sums.total := by
  obtain ⟨r, hr⟩ := Option.ne_none_iff_exists'.mp hsome
  unfold join
  rw [hr]

/-- The buckets of a window hold the signed sums of their magnitudes. -/
theorem fill_prepared_holds (w i : Nat) (hpoints : ∀ term ∈ terms, term.point.Valid) :
    Holds (fill w (terms.map DigitTerm.prepared) i) (fun j => signedSum i terms (j + 1)) :=
  (fill_holds DigitTerm.digits DigitTerm.point hpoints w i).of_eq fun j =>
    sum_share_smul i terms (j + 1)

/-- A bucket stays empty exactly if no digit has its magnitude. -/
theorem bucketAt_fill_eq_none_iff (i : Nat) (terms : List DigitTerm) (hj : j < 2 ^ (w - 1)) :
    bucketAt (fill w (terms.map DigitTerm.prepared) i) j = none ↔
      ∀ term ∈ terms, (term.digit i).natAbs ≠ j + 1 := by
  have hempty := fill_eq_none_iff w (terms.map DigitTerm.prepared) i j
  rw [getElem?_eq_bucketAt (by rwa [size_fill]), Option.some_inj, and_iff_right hj,
    List.forall_mem_map] at hempty
  exact hempty

/-- **The running sum of a window** never begins exactly if all digits are zero: any other digit has
a bucket in the row, and that bucket is not empty. -/
theorem collapse_fill_running_eq_none_iff
    (hdigits : ∀ term ∈ terms, -2 ^ (w - 1) ≤ term.digit i ∧ term.digit i ≤ 2 ^ (w - 1) - 1) :
    (collapse (fill w (terms.map DigitTerm.prepared) i)).running = none ↔
      ∀ term ∈ terms, term.digit i = 0 := by
  rw [collapse_running_eq_none_iff, forall_mem_iff_forall_bucketAt, size_fill]
  constructor
  · intro hnone term hterm
    by_contra hdigit
    have hmost := natAbs_le_of_range (hdigits term hterm)
    have hplace : (term.digit i).natAbs - 1 < 2 ^ (w - 1) := by omega
    have hunused := (bucketAt_fill_eq_none_iff i terms hplace).mp (hnone _ hplace)
    exact hunused term hterm (by omega)
  · intro hzero j hj
    rw [bucketAt_fill_eq_none_iff i terms hj]
    intro term hterm
    rw [hzero term hterm]
    exact Nat.zero_ne_add_one j

/-- What the pass over the terms leaves in the buckets of a window, and what the way down through
them and the joining make of it. -/
structure WindowPass (w i : Nat) (terms : List DigitTerm) (buckets : Row) (sums : RunningSum) :
    Prop where
  size : buckets.size = 2 ^ (w - 1)
  /-- Every bucket holds the signed sum of its magnitude. -/
  held : ∀ j < 2 ^ (w - 1), (content (bucketAt buckets j)).Valid ∧
    (content (bucketAt buckets j)).toAffine = signedSum i terms (j + 1)
  /-- A bucket is empty only if no digit has its magnitude. -/
  unused : ∀ j < 2 ^ (w - 1),
    bucketAt buckets j = none ↔ ∀ term ∈ terms, (term.digit i).natAbs ≠ j + 1
  valid : sums.total.Valid
  weighted : sums.total.toAffine = ∑ j ∈ Finset.range (2 ^ (w - 1)),
    (j + 1) • (content (bucketAt buckets j)).toAffine
  total : sums.total.toAffine = digitSum i terms
  /-- The window is left out only if all its digits are zero. -/
  skipped : sums.running = none ↔ ∀ term ∈ terms, term.digit i = 0
  left : sums.running = none → ∀ acc, join acc sums = acc
  taken : sums.running ≠ none → ∀ acc, join acc sums = acc + sums.total
  /-- Joined or left out, the sum by the digits is added. -/
  joined : ∀ acc : Point, acc.Valid →
    (join acc sums).Valid ∧ (join acc sums).toAffine = acc.toAffine + digitSum i terms

/-- **One window.**  Its buckets hold the signed sums of their magnitudes, the way down through them
counts each by its magnitude, and the shortcuts for empty buckets and for a running sum that has
not begun leave nothing out. -/
theorem window_exact (w i : Nat) {terms : List DigitTerm}
    (hpoints : ∀ term ∈ terms, term.point.Valid)
    (hdigits : ∀ term ∈ terms, -2 ^ (w - 1) ≤ term.digit i ∧ term.digit i ≤ 2 ^ (w - 1) - 1) :
    WindowPass w i terms (fill w (terms.map DigitTerm.prepared) i)
      (collapse (fill w (terms.map DigitTerm.prepared) i)) := by
  have hsize : (fill w (terms.map DigitTerm.prepared) i).size = 2 ^ (w - 1) := size_fill _ i
  have hholds := fill_prepared_holds w i hpoints
  have hheld : ∀ j < 2 ^ (w - 1),
      (content (bucketAt (fill w (terms.map DigitTerm.prepared) i) j)).Denotes
        (signedSum i terms (j + 1)) :=
    fun j hj => hholds.bucketAt_denotes (hsize.symm ▸ hj)
  have hdown := collapse_denotes hholds
  rw [hsize, sum_smul_signedSum hdigits] at hdown
  have htotal := hdown.total
  refine ⟨hsize, fun j hj => ⟨(hheld j hj).valid, (hheld j hj).toAffine_eq⟩,
    fun j hj => bucketAt_fill_eq_none_iff i terms hj, htotal.valid, ?_, htotal.toAffine_eq,
    collapse_fill_running_eq_none_iff hdigits, join_of_eq_none, join_of_ne_none, ?_⟩
  · rw [htotal.toAffine_eq, ← sum_smul_signedSum hdigits]
    apply Finset.sum_congr rfl
    intro j hj
    rw [(hheld j (Finset.mem_range.mp hj)).toAffine_eq]
  · intro acc hacc
    have hjoin := join_denotes hacc.denotes_toAffine hdown
    exact ⟨hjoin.valid, hjoin.toAffine_eq⟩

/-- The base point with two opposite digits. -/
def opposite : List DigitTerm := [⟨#[1], Point.base⟩, ⟨#[-1], Point.base⟩]

/-- Opposite digits of one point: their bucket cancels, and it is gone through all the same. -/
theorem window_exact_opposite :
    (∀ term ∈ opposite, term.point.Valid) ∧
      (∀ term ∈ opposite, -2 ^ (6 - 1) ≤ term.digit 0 ∧ term.digit 0 ≤ 2 ^ (6 - 1) - 1) ∧
      WindowPass 6 0 opposite (fill 6 (opposite.map DigitTerm.prepared) 0)
        (collapse (fill 6 (opposite.map DigitTerm.prepared) 0)) := by
  have hpoints : ∀ term ∈ opposite, term.point.Valid := by
    simp only [opposite, List.forall_mem_cons, List.not_mem_nil, false_implies, implies_true,
      and_true, and_self]
    exact Point.base_denotes.valid
  have hdigits :
      ∀ term ∈ opposite, -2 ^ (6 - 1) ≤ term.digit 0 ∧ term.digit 0 ≤ 2 ^ (6 - 1) - 1 := by
    simp only [opposite, List.forall_mem_cons, List.not_mem_nil, false_implies, implies_true,
      and_true]
    decide
  exact ⟨hpoints, hdigits, window_exact 6 0 hpoints hdigits⟩

end Buckets

end TwistedEdwards
