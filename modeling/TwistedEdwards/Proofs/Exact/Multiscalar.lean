import TwistedEdwards.Multiscalar.Batch
import TwistedEdwards.Multiscalar.Single
import TwistedEdwards.Proofs.Exact.Table

/-!
# Sums of multiples on a machine

The accumulators, the tables and the buckets hold small points from beginning to end, for
any number of terms and any scalars, so every way of summing runs on every faithful
machine.  Which operations are made depends on the digits, and the digits are read from
the bytes of the scalars as the sums themselves read them.

Main statements: `Uniform.sumOn_eq`, `Interleaved.sumOn_eq`, `Buckets.sumOn_eq`,
`Point.mulDigitsOn_eq` and `Batch.sumPresentOn_eq`.
-/

namespace TwistedEdwards

section Definitions

variable (M : Machine)

/-- The doublings before a position, which the top one leaves out. -/
def Point.scaleOn (top : Prop) [Decidable top] (n : Nat) (acc : Point) : Option Point :=
  if top then some acc else acc.doubleTimesOn M n

namespace Uniform

/-- The digits of a term, and its table computed on the machine. -/
def prepareOn (term : Term) : Option Prepared := do
  return ⟨ByteRow.ofDigits (Digits.radix16 term.scalar), ← CentredTable.ofPointOn M term.point⟩

/-- Adds the selected multiple, that of a zero digit too. -/
def addDigitOn (pos : Nat) (acc : Point) (term : Prepared) : Option Point := do
  acc.plusOn M (← term.table.selectOn M (term.digits.digit pos))

/-- The doublings of a position and the digit of every term. -/
def positionOn (terms : List Prepared) (pos : Nat) (acc : Point) : Option Point := do
  terms.foldlM (addDigitOn M pos) (← acc.scaleOn M (pos = 63) 4)

/-- All 64 positions, from the highest down. -/
def evaluateOn (terms : List Prepared) : Option Point :=
  Machine.descendOn (positionOn M terms) 64 Point.identity

/-- The uniform sum, which prepares nothing for an empty batch. -/
def sumOn (terms : List Term) : Option Point :=
  if terms.isEmpty then some Point.identity else do evaluateOn M (← terms.mapM (prepareOn M))

end Uniform

namespace Interleaved

/-- The form of a term, and the odd multiples of its point. -/
def prepareOn (term : Term) : Option Prepared := do
  return ⟨ByteRow.ofDigits (Digits.nonAdjacent nonAdjacentWidth term.scalar),
    ← OddTable.ofPointOn M term.point⟩

/-- Adds or subtracts the odd multiple of a digit, if the digit is not zero. -/
def addDigitOn (pos : Nat) (acc : Point) (term : Prepared) : Option Point :=
  term.table.addDigitOn M (term.digits.digit pos) acc

/-- A doubling and the digit of every term. -/
def positionOn (terms : List Prepared) (pos : Nat) (acc : Point) : Option Point := do
  terms.foldlM (addDigitOn M pos) (← acc.doubleOn M)

/-- The positions up to the highest digit of the batch. -/
def evaluateOn (terms : List Prepared) : Option Point :=
  Machine.descendOn (positionOn M terms) (positions terms) Point.identity

/-- The interleaved sum. -/
def sumOn (terms : List Term) : Option Point := do
  evaluateOn M (← terms.mapM (prepareOn M))

end Interleaved

namespace Point

/-- A doubling and a digit of a single term. -/
def nonAdjacentStepOn (digits : ByteRow) (table : OddTable) (pos : Nat) (acc : Point) :
    Option Point := do
  table.addDigitOn M (digits.digit pos) (← acc.doubleOn M)

/-- The `n` low digits of a single term. -/
def evaluateDigitsOn (digits : ByteRow) (table : OddTable) (n : Nat) : Option Point :=
  Machine.descendOn (nonAdjacentStepOn M digits table) n identity

/-- The multiple by a row of digits, which builds no table if all are zero. -/
def mulDigitsOn (digits : ByteRow) (p : Point) : Option Point :=
  match digits.significant 256 with
  | 0 => some identity
  | top + 1 => do evaluateDigitsOn M digits (← OddTable.ofPointOn M p) (top + 1)

/-- The multiple in constant time: the uniform sum of one term. -/
def mulOn (p : Point) (s : Scalar) : Option Point := Uniform.sumOn M [⟨s.toOctets, p⟩]

/-- The multiple in variable time. -/
def mulVartimeOn (p : Point) (s : Scalar) : Option Point :=
  mulDigitsOn M (ByteRow.ofDigits (Digits.nonAdjacent nonAdjacentWidth s.toOctets)) p

end Point

namespace Buckets

/-- The windows of a term, and its point in the form that is added. -/
def prepareOn (w : Nat) (term : Term) : Option Prepared := do
  return ⟨ShortRow.ofDigits (Digits.signedWindows w term.scalar), ← term.point.cachedOn M⟩

/-- Changes what is in a bucket, if there is one at the place. -/
def changeOn (buckets : Row) (i : Nat) (f : Point → Option Point) : Option Row :=
  match buckets[i]? with
  | some bucket => do return buckets.setIfInBounds i (some (← f (content bucket)))
  | none => some buckets

/-- Adds the point to the bucket of a positive digit, subtracts it for a negative one. -/
def depositOn (buckets : Row) (digit : Int) (point : CachedPoint) : Option Row :=
  if 0 < digit then changeOn buckets (place digit) fun p => p.plusOn M point
  else if digit < 0 then changeOn buckets (place digit) fun p => p.minusOn M point
  else some buckets

/-- The buckets of one window, filled term by term. -/
def fillOn (w : Nat) (terms : List Prepared) (window : Nat) : Option Row :=
  terms.foldlM (fun buckets term => depositOn M buckets (term.digits.digit window) term.point)
    (Array.replicate (2 ^ (w - 1)) none)

/-- The running sum takes in a bucket, if something is in it. -/
def extendOn (sum : Option Point) : Option Point → Option (Option Point)
  | some p => do return some (← (content sum).addOn M p)
  | none => some sum

/-- The total takes in the running sum, if that was begun. -/
def accumulateOn (total : Point) : Option Point → Option RunningSum
  | some r => do return ⟨some r, ← total.addOn M r⟩
  | none => some ⟨none, total⟩

/-- One bucket: first the running sum, then the total. -/
def descendOn (s : RunningSum) (bucket : Option Point) : Option RunningSum := do
  accumulateOn M s.total (← extendOn M s.running bucket)

/-- The weighted sum of the buckets, from the last down. -/
def collapseOn (buckets : Row) : Option RunningSum :=
  buckets.toList.reverse.foldlM (descendOn M) ⟨none, Point.identity⟩

/-- The total is added to the accumulator, unless every bucket was empty. -/
def joinOn (acc : Point) (s : RunningSum) : Option Point :=
  match s.running with
  | some _ => acc.addOn M s.total
  | none => some acc

/-- The doublings of a window, then its buckets. -/
def windowOn (w : Nat) (terms : List Prepared) (i : Nat) (acc : Point) : Option Point := do
  let acc ← acc.scaleOn M (i + 1 = Digits.windowCount w) w
  joinOn M acc (← collapseOn M (← fillOn M w terms i))

/-- All windows of width `w`, from the highest down. -/
def evaluateOn (w : Nat) (terms : List Prepared) : Option Point :=
  Machine.descendOn (windowOn M w terms) (Digits.windowCount w) Point.identity

/-- The sum by buckets with windows of width `w`. -/
def sumWithOn (w : Nat) (terms : List Term) : Option Point := do
  evaluateOn M w (← terms.mapM (prepareOn M w))

/-- The sum by buckets with the width for the number of terms. -/
def sumOn (terms : List Term) : Option Point :=
  if terms.isEmpty then some Point.identity else sumWithOn M (windowWidth terms.length) terms

end Buckets

/-- The sum by either algorithm. -/
def Algorithm.sumOn : Algorithm → List Term → Option Point
  | straus, terms => Interleaved.sumOn M terms
  | pippenger, terms => Buckets.sumOn M terms

namespace Batch

/-- The sum by the algorithm for the number of terms. -/
def sumVartimeOn (terms : List Term) : Option Point :=
  (Algorithm.ofCount terms.length).sumOn M terms

/-- The sum if every point is present; else the machine has nothing to do. -/
def sumPresentOn (terms : List (Octets 32 × Option Point)) : Option PresentSum :=
  match allPresent? terms with
  | some terms => do return ⟨true, ← sumVartimeOn M terms⟩
  | none => some ⟨false, Point.identity⟩

end Batch

end Definitions

section Laws

variable {M : Machine} (hM : M.Faithful) {terms : List Term}
include hM

/-- The doublings of a position run, made or left out. -/
theorem Point.Small.scaleOn_eq {acc : Point} (hacc : acc.Small) (top : Prop) [Decidable top]
    (n : Nat) :
    acc.scaleOn M top n = some (if top then acc else acc.doubleTimes n) ∧
      (if top then acc else acc.doubleTimes n).Small := by
  unfold Point.scaleOn
  split
  · exact ⟨rfl, hacc⟩
  · exact hacc.doubleTimesOn_eq hM n

namespace Uniform

/-- A term with a small point is made ready for the uniform sum. -/
theorem prepareOn_eq {term : Term} (hterm : term.point.Small) :
    prepareOn M term = some (prepare term) ∧ (prepare term).table.Small := by
  obtain ⟨hrun, hsmall⟩ := CentredTable.ofPointOn_eq hM hterm
  refine ⟨?_, hsmall⟩
  rw [prepareOn, hrun]
  rfl

theorem addDigitOn_eq {term : Prepared} (hterm : term.table.Small) {acc : Point}
    (hacc : acc.Small) (pos : Nat) :
    addDigitOn M pos acc term = some (addDigit pos acc term) ∧ (addDigit pos acc term).Small := by
  obtain ⟨hselect, hsmall⟩ := hterm.selectOn_eq hM (term.digits.digit pos)
  rw [addDigitOn, hselect]
  exact hacc.plusOn_eq hM hsmall

theorem positionOn_eq {terms : List Prepared} (hterms : ∀ term ∈ terms, term.table.Small)
    {acc : Point} (hacc : acc.Small) (pos : Nat) :
    positionOn M terms pos acc = some (position terms pos acc) ∧
      (position terms pos acc).Small := by
  have hstart := hacc.scaleOn_eq hM (pos = 63) 4
  have hstep : ∀ (acc : Point) (term : Prepared), acc.Small → term.table.Small →
      addDigitOn M pos acc term = some (addDigit pos acc term) ∧
        (addDigit pos acc term).Small :=
    fun _ _ hacc hterm => addDigitOn_eq hM hterm hacc pos
  rw [positionOn, hstart.1]
  exact Machine.foldlM_eq hstep hstart.2 hterms

/-- Every position in turn, from a neutral accumulator. -/
theorem evaluateOn_eq {terms : List Prepared} (hterms : ∀ term ∈ terms, term.table.Small) :
    evaluateOn M terms = some (evaluate terms) := by
  have hstep : ∀ (pos : Nat) (acc : Point), acc.Small →
      positionOn M terms pos acc = some (position terms pos acc) ∧
        (position terms pos acc).Small :=
    fun pos _ hacc => positionOn_eq hM hterms hacc pos
  exact (Machine.descendOn_eq hstep Point.identity_small 64).1

/-- The uniform sum runs on any batch of small points. -/
theorem sumOn_eq (hterms : ∀ term ∈ terms, term.point.Small) :
    sumOn M terms = some (sum terms) := by
  unfold sumOn sum
  split
  · rfl
  · obtain ⟨hprepare, htables⟩ :=
      Machine.mapM_eq_and_forall (P := fun term : Prepared => term.table.Small)
        fun term hterm => prepareOn_eq hM (hterms term hterm)
    rw [hprepare]
    exact evaluateOn_eq hM htables

end Uniform

namespace Interleaved

/-- A term with a small point is made ready for the interleaved sum. -/
theorem prepareOn_eq {term : Term} (hterm : term.point.Small) :
    prepareOn M term = some (prepare term) ∧ (prepare term).table.Small := by
  obtain ⟨hrun, hsmall⟩ := OddTable.ofPointOn_eq hM hterm
  refine ⟨?_, hsmall⟩
  rw [prepareOn, hrun]
  rfl

/-- One position, whatever the digits of the terms are. -/
theorem positionOn_eq {terms : List Prepared} (hterms : ∀ term ∈ terms, term.table.Small)
    {acc : Point} (hacc : acc.Small) (pos : Nat) :
    positionOn M terms pos acc = some (position terms pos acc) ∧
      (position terms pos acc).Small := by
  obtain ⟨hdouble, hsmall⟩ := hacc.doubleOn_eq hM
  have hstep : ∀ (acc : Point) (term : Prepared), acc.Small → term.table.Small →
      addDigitOn M pos acc term = some (addDigit pos acc term) ∧
        (addDigit pos acc term).Small :=
    fun _ term hacc hterm => hterm.addDigitOn_eq hM hacc (term.digits.digit pos)
  rw [positionOn, hdouble]
  exact Machine.foldlM_eq hstep hsmall hterms

/-- Every position that the batch has digits at. -/
theorem evaluateOn_eq {terms : List Prepared} (hterms : ∀ term ∈ terms, term.table.Small) :
    evaluateOn M terms = some (evaluate terms) := by
  have hstep : ∀ (pos : Nat) (acc : Point), acc.Small →
      positionOn M terms pos acc = some (position terms pos acc) ∧
        (position terms pos acc).Small :=
    fun pos _ hacc => positionOn_eq hM hterms hacc pos
  exact (Machine.descendOn_eq hstep Point.identity_small (positions terms)).1

/-- The interleaved sum runs on any batch of small points. -/
theorem sumOn_eq (hterms : ∀ term ∈ terms, term.point.Small) :
    sumOn M terms = some (sum terms) := by
  obtain ⟨hprepare, htables⟩ :=
    Machine.mapM_eq_and_forall (P := fun term : Prepared => term.table.Small)
      fun term hterm => prepareOn_eq hM (hterms term hterm)
  rw [sumOn, hprepare]
  exact evaluateOn_eq hM htables

end Interleaved

namespace Point

variable {p : Point}

/-- The digits of a single term, with a small table. -/
theorem evaluateDigitsOn_eq {table : OddTable} (htable : table.Small) (digits : ByteRow)
    (n : Nat) : evaluateDigitsOn M digits table n = some (evaluateDigits digits table n) := by
  have hstep : ∀ (pos : Nat) (acc : Point), acc.Small →
      nonAdjacentStepOn M digits table pos acc = some (nonAdjacentStep digits table pos acc) ∧
        (nonAdjacentStep digits table pos acc).Small := by
    intro pos acc hacc
    obtain ⟨hdouble, hsmall⟩ := hacc.doubleOn_eq hM
    rw [nonAdjacentStepOn, hdouble]
    exact htable.addDigitOn_eq hM hsmall (digits.digit pos)
  exact (Machine.descendOn_eq hstep identity_small n).1

theorem Small.mulDigitsOn_eq (hp : p.Small) (digits : ByteRow) :
    mulDigitsOn M digits p = some (mulDigits digits p) := by
  unfold mulDigitsOn mulDigits
  cases digits.significant 256 with
  | zero => rfl
  | succ top =>
    obtain ⟨htable, hsmall⟩ := OddTable.ofPointOn_eq hM hp
    simp only [htable, Option.bind_eq_bind, Option.bind_some]
    exact evaluateDigitsOn_eq hM hsmall digits (top + 1)

/-- The multiple in constant time is a uniform sum. -/
theorem Small.mulOn_eq (hp : p.Small) (s : Scalar) : p.mulOn M s = some (p.mul s) :=
  Uniform.sumOn_eq hM (List.forall_mem_singleton.mpr hp)

/-- The multiple in variable time runs on its row of digits. -/
theorem Small.mulVartimeOn_eq (hp : p.Small) (s : Scalar) :
    p.mulVartimeOn M s = some (p.mulVartime s) :=
  hp.mulDigitsOn_eq hM _

end Point

namespace Buckets

omit hM in
/-- Every bucket that is not empty holds a small point. -/
def Row.Small (buckets : Row) : Prop := ∀ bucket ∈ buckets, (content bucket).Small

/-- The sums on the way down are small. -/
structure RunningSum.Small (s : RunningSum) : Prop where
  running : (content s.running).Small
  total : s.total.Small

/-- A term with a small point is made ready for its buckets. -/
theorem prepareOn_eq (w : Nat) {term : Term} (hterm : term.point.Small) :
    prepareOn M w term = some (prepare w term) ∧ (prepare w term).point.Small := by
  obtain ⟨hrun, hsmall⟩ := hterm.cachedOn_eq hM
  refine ⟨?_, hsmall⟩
  rw [prepareOn, hrun]
  rfl

omit hM in
/-- A change that keeps small points small does so in any bucket. -/
theorem changeOn_eq {buckets : Row} (hbuckets : Row.Small buckets) (i : Nat)
    {f : Point → Option Point} {g : Point → Point}
    (hfg : ∀ p, p.Small → f p = some (g p) ∧ (g p).Small) :
    changeOn buckets i f = some (buckets.modify i fun bucket => some (g (content bucket))) ∧
      Row.Small (buckets.modify i fun bucket => some (g (content bucket))) := by
  refine ⟨?_, ?_⟩
  · unfold changeOn
    cases hfound : buckets[i]? with
    | none =>
      refine congrArg some ?_
      apply Array.ext_getElem?
      intro j
      rw [Array.getElem?_modify]
      split
      · next hij => rw [← hij, hfound]; rfl
      · rfl
    | some bucket =>
      obtain ⟨hrun, -⟩ := hfg (content bucket) (hbuckets bucket (Array.mem_of_getElem? hfound))
      obtain ⟨hi, -⟩ := Array.getElem?_eq_some_iff.mp hfound
      simp only [hrun, Option.bind_eq_bind, Option.bind_some]
      congr 1
      apply Array.ext_getElem?
      intro j
      rw [Array.getElem?_modify, Array.getElem?_setIfInBounds]
      split
      · next hij => rw [← hij, hfound]; rfl
      · rfl
  · intro bucket hbucket
    obtain ⟨j, hj⟩ := Array.getElem?_of_mem hbucket
    rw [Array.getElem?_modify] at hj
    split at hj
    · obtain ⟨before, hbefore, rfl⟩ := Option.map_eq_some_iff.mp hj
      exact (hfg _ (hbuckets before (Array.mem_of_getElem? hbefore))).2
    · exact hbuckets bucket (Array.mem_of_getElem? hj)

theorem depositOn_eq {buckets : Row} (hbuckets : Row.Small buckets) {point : CachedPoint}
    (hpoint : point.Small) (digit : Int) :
    depositOn M buckets digit point = some (deposit buckets digit point) ∧
      Row.Small (deposit buckets digit point) := by
  unfold depositOn deposit
  split
  · exact changeOn_eq hbuckets (place digit) fun _ hp => hp.plusOn_eq hM hpoint
  · split
    · exact changeOn_eq hbuckets (place digit) fun _ hp => hp.minusOn_eq hM hpoint
    · exact ⟨rfl, hbuckets⟩

theorem fillOn_eq (w : Nat) {terms : List Prepared} (hterms : ∀ term ∈ terms, term.point.Small)
    (window : Nat) :
    fillOn M w terms window = some (fill w terms window) ∧ Row.Small (fill w terms window) := by
  have hempty : Row.Small (Array.replicate (2 ^ (w - 1)) none) := by
    intro bucket hbucket
    rw [(Array.mem_replicate.mp hbucket).2]
    exact Point.identity_small
  have hstep : ∀ (buckets : Row) (term : Prepared), Row.Small buckets → term.point.Small →
      depositOn M buckets (term.digits.digit window) term.point =
          some (deposit buckets (term.digits.digit window) term.point) ∧
        Row.Small (deposit buckets (term.digits.digit window) term.point) :=
    fun _ term hbuckets hterm => depositOn_eq hM hbuckets hterm _
  exact Machine.foldlM_eq hstep hempty hterms

/-- One bucket down: the running sum takes it in, and the total takes in the running sum. -/
theorem descendOn_eq {s : RunningSum} (hs : s.Small) {bucket : Option Point}
    (hbucket : (content bucket).Small) :
    descendOn M s bucket = some (descend bucket s) ∧ (descend bucket s).Small := by
  obtain ⟨running, total⟩ := s
  obtain ⟨hrunning, htotal⟩ := hs
  dsimp only at hrunning htotal
  have haccumulate : ∀ r : Point, r.Small →
      accumulateOn M total (some r) = some ⟨some r, total + r⟩ ∧
        RunningSum.Small ⟨some r, total + r⟩ := by
    intro r hr
    obtain ⟨hrun, hsmall⟩ := htotal.addOn_eq hM hr
    refine ⟨?_, hr, hsmall⟩
    rw [accumulateOn, hrun]
    rfl
  cases bucket with
  | some p =>
    have hp : p.Small := hbucket
    obtain ⟨hrun, hsmall⟩ := hrunning.addOn_eq hM hp
    have hextend : extendOn M running (some p) = some (some (content running + p)) := by
      rw [extendOn, hrun]
      rfl
    rw [descendOn, hextend]
    exact haccumulate (content running + p) hsmall
  | none =>
    cases running with
    | some r => exact haccumulate r hrunning
    | none => exact ⟨rfl, hrunning, htotal⟩

/-- The running sum and the total stay small along the buckets. -/
theorem collapseOn_eq {buckets : Row} (hbuckets : Row.Small buckets) :
    collapseOn M buckets = some (collapse buckets) ∧ (collapse buckets).Small := by
  have hstart : RunningSum.Small ⟨none, Point.identity⟩ :=
    ⟨Point.identity_small, Point.identity_small⟩
  have hstep : ∀ (s : RunningSum) (bucket : Option Point), s.Small → (content bucket).Small →
      descendOn M s bucket = some (descend bucket s) ∧ (descend bucket s).Small :=
    fun _ _ hs hbucket => descendOn_eq hM hs hbucket
  have hrow : ∀ bucket ∈ buckets.toList.reverse, (content bucket).Small := fun bucket hbucket =>
    hbuckets bucket (Array.mem_toList_iff.mp (List.mem_reverse.mp hbucket))
  have hdown := Machine.foldlM_eq hstep hstart hrow
  rw [List.foldl_reverse, Array.foldr_toList] at hdown
  exact hdown

/-- Joining a window adds a small total or nothing. -/
theorem joinOn_eq {acc : Point} (hacc : acc.Small) {s : RunningSum} (hs : s.Small) :
    joinOn M acc s = some (join acc s) ∧ (join acc s).Small := by
  obtain ⟨running, total⟩ := s
  cases running with
  | some r => exact hacc.addOn_eq hM hs.total
  | none => exact ⟨rfl, hacc⟩

/-- One window: doublings, buckets, weighted sum. -/
theorem windowOn_eq (w : Nat) {terms : List Prepared}
    (hterms : ∀ term ∈ terms, term.point.Small) {acc : Point} (hacc : acc.Small) (i : Nat) :
    windowOn M w terms i acc = some (window w terms i acc) ∧ (window w terms i acc).Small := by
  obtain ⟨hscale, hstart⟩ := hacc.scaleOn_eq hM (i + 1 = Digits.windowCount w) w
  obtain ⟨hfill, hrow⟩ := fillOn_eq hM w hterms i
  obtain ⟨hcollapse, hsum⟩ := collapseOn_eq hM hrow
  simp only [windowOn, hscale, hfill, hcollapse, Option.bind_eq_bind, Option.bind_some]
  exact joinOn_eq hM hstart hsum

/-- Every window in turn. -/
theorem evaluateOn_eq (w : Nat) {terms : List Prepared}
    (hterms : ∀ term ∈ terms, term.point.Small) :
    evaluateOn M w terms = some (evaluate w terms) := by
  have hstep : ∀ (i : Nat) (acc : Point), acc.Small →
      windowOn M w terms i acc = some (window w terms i acc) ∧ (window w terms i acc).Small :=
    fun i _ hacc => windowOn_eq hM w hterms hacc i
  exact (Machine.descendOn_eq hstep Point.identity_small (Digits.windowCount w)).1

theorem sumWithOn_eq (w : Nat) (hterms : ∀ term ∈ terms, term.point.Small) :
    sumWithOn M w terms = some (sumWith w terms) := by
  obtain ⟨hprepare, hpoints⟩ :=
    Machine.mapM_eq_and_forall (P := fun term : Prepared => term.point.Small)
      fun term hterm => prepareOn_eq hM w (hterms term hterm)
  rw [sumWithOn, hprepare]
  exact evaluateOn_eq hM w hpoints

/-- The sum by buckets runs at the width that it chooses. -/
theorem sumOn_eq (hterms : ∀ term ∈ terms, term.point.Small) :
    sumOn M terms = some (sum terms) := by
  unfold sumOn sum
  split
  · rfl
  · exact sumWithOn_eq hM _ hterms

end Buckets

/-- Either algorithm runs on a batch of small points. -/
theorem Algorithm.sumOn_eq (algorithm : Algorithm) (hterms : ∀ term ∈ terms, term.point.Small) :
    algorithm.sumOn M terms = some (algorithm.sum terms) := by
  cases algorithm with
  | straus => exact Interleaved.sumOn_eq hM hterms
  | pippenger => exact Buckets.sumOn_eq hM hterms

namespace Batch

/-- The algorithm that is chosen runs. -/
theorem sumVartimeOn_eq (hterms : ∀ term ∈ terms, term.point.Small) :
    sumVartimeOn M terms = some (sumVartime terms) :=
  (Algorithm.ofCount terms.length).sumOn_eq hM hterms

omit hM in
/-- What holds of every point that is present holds of every term. -/
theorem forall_mem_allPresent? {kept : Point → Prop} {terms : List (Octets 32 × Option Point)}
    {present : List Term} (hterms : ∀ term ∈ terms, ∀ p ∈ term.2, kept p)
    (hpresent : allPresent? terms = some present) : ∀ term ∈ present, kept term.point := by
  induction terms generalizing present with
  | nil =>
    obtain rfl := Option.some.inj hpresent
    exact List.forall_mem_nil _
  | cons first rest ih =>
    obtain ⟨scalar, point⟩ := first
    obtain ⟨hfirst, hrest⟩ := List.forall_mem_cons.mp hterms
    cases point with
    | none => cases hpresent
    | some p =>
      cases hlater : allPresent? rest with
      | none => simp [allPresent?, hlater] at hpresent
      | some later =>
        simp only [allPresent?, hlater] at hpresent
        obtain rfl := Option.some.inj hpresent
        exact List.forall_mem_cons.mpr ⟨hfirst p rfl, ih hrest hlater⟩

/-- The points that are present are asked to be small, the absent ones nothing. -/
theorem sumPresentOn_eq {terms : List (Octets 32 × Option Point)}
    (hterms : ∀ term ∈ terms, ∀ p ∈ term.2, p.Small) :
    sumPresentOn M terms = some (sumPresent terms) := by
  unfold sumPresentOn sumPresent
  cases hpresent : allPresent? terms with
  | none => rfl
  | some present =>
    have hsmall := forall_mem_allPresent? hterms hpresent
    simp only [sumVartimeOn_eq hM hsmall, Option.bind_eq_bind, Option.bind_some]
    rfl

end Batch

end Laws

end TwistedEdwards
