import TwistedEdwards.Multiscalar.Single
import TwistedEdwards.Proofs.Multiscalar.Buckets
import TwistedEdwards.Proofs.Multiscalar.Interleaved
import TwistedEdwards.Proofs.Range.Digits

/-!
# Sums of multiples with checks

The ways of summing are written a second time with checked expansions and a check on every
index that depends on a digit: a digit is read inside the row of its term, an odd multiple
inside the table, and a point goes into a bucket that there is.  Nothing is asked of the
points and the scalars, and the number of terms is free, so that the sums come to their end
says that no index is ever out of range.

The rows of a batch lie one after the other.  A place of a row read at its distance from
the first row is the same place read in the row.

Main statements: `Uniform.sumChecked_eq`, `Interleaved.sumChecked_eq`,
`Buckets.sumWithChecked_eq`, `Point.mulOctetsVartimeChecked_eq` and
`Multiscalar.all_in_range`.
-/

namespace TwistedEdwards

open Digits Word256

section Definitions

namespace Uniform

/-- The digits of a term with their checks, and its table. -/
def prepareChecked (term : Term) : Option Prepared := do
  return ⟨← radix16Checked term.scalar, CentredTable.ofPoint term.point⟩

/-- Reads the digit inside the row. -/
def addDigitChecked (pos : Nat) (acc : Point) (term : Prepared) : Option Point := do
  let digit ← readChecked Int8.toInt term.digits pos
  return (acc.addCached (term.table.select digit)).extended

/-- One position for every term. -/
def positionChecked (terms : List Prepared) (pos : Nat) (acc : Point) : Option Point :=
  terms.foldlM (addDigitChecked pos) (if pos = 63 then acc else acc.doubleTimes 4)

/-- The uniform sum with its checks. -/
def sumChecked (terms : List Term) : Option Point :=
  if terms.isEmpty then some Point.identity
  else do Machine.descendOn (positionChecked (← terms.mapM prepareChecked)) 64 Point.identity

end Uniform

/-- Reads the multiple for a digit inside the table. -/
def OddTable.addDigitChecked (table : OddTable) (digit : Int) (acc : Point) : Option Point :=
  if 0 < digit then (table[place digit]?).map fun q => (acc.addCached q).extended
  else if digit < 0 then (table[place digit]?).map fun q => (acc.subCached q).extended
  else some acc

namespace Interleaved

/-- The form of a term with its checks, and its odd multiples. -/
def prepareChecked (term : Term) : Option Prepared := do
  return ⟨← nonAdjacentChecked nonAdjacentWidth term.scalar, OddTable.ofPoint term.point⟩

/-- Looks for the highest digit of a row inside the row. -/
def raiseChecked (row : ByteRow) (top : Nat) : (n : Nat) → Option Nat
  | 0 => some top
  | n + 1 =>
    if n < top then some top
    else do
      if (← readChecked Int8.toInt row n) = 0 then raiseChecked row top n else return n + 1

/-- The number of positions that the batch has digits at. -/
def positionsChecked (terms : List Prepared) : Option Nat :=
  terms.foldlM (fun top term => raiseChecked term.digits top 256) 0

/-- Reads the digit inside the row and its multiple inside the table. -/
def addDigitChecked (pos : Nat) (acc : Point) (term : Prepared) : Option Point := do
  term.table.addDigitChecked (← readChecked Int8.toInt term.digits pos) acc

/-- One position for every term. -/
def positionChecked (terms : List Prepared) (pos : Nat) (acc : Point) : Option Point :=
  terms.foldlM (addDigitChecked pos) acc.double

/-- All positions, from the highest down. -/
def evaluateChecked (terms : List Prepared) : Option Point := do
  Machine.descendOn (positionChecked terms) (← positionsChecked terms) Point.identity

/-- The interleaved sum with its checks. -/
def sumChecked (terms : List Term) : Option Point := do
  evaluateChecked (← terms.mapM prepareChecked)

end Interleaved

/-- The highest digit of a single row. -/
def ByteRow.significantChecked (row : ByteRow) : (n : Nat) → Option Nat
  | 0 => some 0
  | n + 1 => do
    if (← readChecked Int8.toInt row n) = 0 then significantChecked row n else return n + 1

namespace Point

/-- One position of a single term. -/
def nonAdjacentStepChecked (digits : ByteRow) (table : OddTable) (pos : Nat) (acc : Point) :
    Option Point := do
  table.addDigitChecked (← readChecked Int8.toInt digits pos) acc.double

/-- The multiple by a row of digits with its checks. -/
def mulDigitsChecked (digits : ByteRow) (p : Point) : Option Point := do
  match ← digits.significantChecked 256 with
  | 0 => return identity
  | top + 1 =>
    Machine.descendOn (nonAdjacentStepChecked digits (OddTable.ofPoint p)) (top + 1) identity

/-- The multiple in variable time with its checks. -/
def mulOctetsVartimeChecked (scalar : Octets 32) (p : Point) : Option Point := do
  mulDigitsChecked (← nonAdjacentChecked nonAdjacentWidth scalar) p

end Point

namespace Buckets

/-- The windows of a term with their checks, and its point. -/
def prepareChecked (w : Nat) (term : Term) : Option Prepared := do
  return ⟨← signedWindowsChecked w term.scalar, term.point.cached⟩

/-- Changes the point in a bucket that there is. -/
def changeChecked (buckets : Row) (i : Nat) (f : Point → Point) : Option Row :=
  if i < buckets.size then some (buckets.modify i fun bucket => some (f (content bucket)))
  else none

/-- Deposits in a bucket that there is. -/
def depositChecked (buckets : Row) (digit : Int) (point : CachedPoint) : Option Row :=
  if 0 < digit then changeChecked buckets (place digit) fun p => (p.addCached point).extended
  else if digit < 0 then
    changeChecked buckets (place digit) fun p => (p.subCached point).extended
  else some buckets

/-- Reads the digit inside the row and deposits. -/
def depositDigitChecked (window : Nat) (buckets : Row) (term : Prepared) : Option Row := do
  depositChecked buckets (← readChecked Int16.toInt term.digits window) term.point

/-- The buckets of one window. -/
def fillChecked (w : Nat) (terms : List Prepared) (window : Nat) : Option Row :=
  terms.foldlM (depositDigitChecked window) (Array.replicate (2 ^ (w - 1)) none)

/-- One window of the batch. -/
def windowChecked (w : Nat) (terms : List Prepared) (i : Nat) (acc : Point) : Option Point := do
  let acc := if i + 1 = windowCount w then acc else acc.doubleTimes w
  return join acc (collapse (← fillChecked w terms i))

/-- The sum by buckets of width `w` with its checks. -/
def sumWithChecked (w : Nat) (terms : List Term) : Option Point := do
  Machine.descendOn (windowChecked w (← terms.mapM (prepareChecked w))) (windowCount w)
    Point.identity

/-- The sum by buckets with its checks, at the width that it chooses. -/
def sumChecked (terms : List Term) : Option Point :=
  if terms.isEmpty then some Point.identity
  else sumWithChecked (windowWidth terms.length) terms

end Buckets

end Definitions

namespace Uniform

theorem prepareChecked_eq (term : Term) : prepareChecked term = some (prepare term) := by
  rw [prepareChecked, radix16Checked_eq, Option.bind_eq_bind, Option.bind_some]
  rfl

theorem size_prepare (term : Term) : (prepare term).digits.size = 64 := by
  rw [prepare, ByteRow.ofDigits, List.size_toArray, List.length_map, length_radix16]

theorem addDigitChecked_eq {term : Prepared} (hterm : term.digits.size = 64) {pos : Nat}
    (hpos : pos < 64) (acc : Point) :
    addDigitChecked pos acc term = some (addDigit pos acc term) := by
  rw [addDigitChecked, readChecked_eq (by omega) Int8.toInt 0, Option.bind_eq_bind,
    Option.bind_some]
  rfl

theorem sumChecked_eq (terms : List Term) : sumChecked terms = some (sum terms) := by
  unfold sumChecked sum
  split
  · rfl
  · have hsizes : ∀ term ∈ terms.map prepare, term.digits.size = 64 :=
      List.forall_mem_map.mpr fun term _ => size_prepare term
    have hstep : ∀ pos < 64, ∀ acc, positionChecked (terms.map prepare) pos acc =
        some (position (terms.map prepare) pos acc) := by
      intro pos hpos acc
      apply Machine.foldlM_eq_foldl
      intro term hterm acc
      exact addDigitChecked_eq (hsizes term hterm) hpos acc
    rw [Machine.mapM_eq fun term _ => prepareChecked_eq term, Option.bind_eq_bind,
      Option.bind_some]
    exact Machine.descendOn_eq_foldRev hstep Point.identity

end Uniform

namespace OddTable

/-- A digit below 16 finds its multiple in a table of eight. -/
theorem addDigitChecked_eq {table : OddTable} (htable : table.size = 8) {digit : Int}
    (hdigit : digit.natAbs < 16) (acc : Point) :
    table.addDigitChecked digit acc = some (table.addDigit digit acc) := by
  have hplace : place digit < table.size := by
    unfold place
    omega
  have hentry : table[place digit]? = some (table.entry digit) := by
    rw [entry, Array.getD_eq_getD_getElem?, Array.getElem?_eq_getElem hplace, Option.getD_some]
  unfold addDigitChecked addDigit
  rw [hentry]
  split
  · rfl
  · split
    · rfl
    · rfl

end OddTable

namespace Interleaved

/-- A row of 256 digits below 16 and a table of eight. -/
structure Prepared.Ready (term : Prepared) : Prop where
  digits : term.digits.size = 256
  table : term.table.size = 8
  small : ∀ pos, (term.digits.digit pos).natAbs < 16

theorem prepare_ready (term : Term) : (prepare term).Ready := by
  refine ⟨size_nonAdjacent term.scalar nonAdjacentWidth, OddTable.size_ofPoint term.point, ?_⟩
  intro pos
  have hrange := formDigit_range term.scalar pos
  rw [digit_prepare]
  omega

theorem prepareChecked_eq (term : Term) : prepareChecked term = some (prepare term) := by
  rw [prepareChecked, nonAdjacentChecked_eq term.scalar (by decide) (by decide),
    Option.bind_eq_bind, Option.bind_some]
  rfl

/-- The search starts at the end of the row and goes down. -/
theorem raiseChecked_eq {row : ByteRow} {n : Nat} (hn : n ≤ row.size) (top : Nat) :
    raiseChecked row top n = some (raise row top n) := by
  induction n with
  | zero => rfl
  | succ n ih =>
    rw [raiseChecked, raise, readChecked_eq (by omega) Int8.toInt 0, Option.bind_eq_bind,
      Option.bind_some, ih (by omega)]
    split
    · rfl
    · rw [← ByteRow.digit]
      split <;> rfl

variable {terms : List Prepared} (hterms : ∀ term ∈ terms, term.Ready)
include hterms

theorem positionsChecked_eq : positionsChecked terms = some (positions terms) := by
  apply Machine.foldlM_eq_foldl
  intro term hterm top
  have hsize := (hterms term hterm).digits
  exact raiseChecked_eq (by omega) top

omit hterms in
/-- The digit is in the row and its multiple in the table. -/
theorem addDigitChecked_eq {term : Prepared} (hterm : term.Ready) {pos : Nat} (hpos : pos < 256)
    (acc : Point) : addDigitChecked pos acc term = some (addDigit pos acc term) := by
  have hsize := hterm.digits
  rw [addDigitChecked, readChecked_eq (by omega) Int8.toInt 0, Option.bind_eq_bind,
    Option.bind_some]
  exact OddTable.addDigitChecked_eq hterm.table (hterm.small pos) acc

/-- One position below 256. -/
theorem positionChecked_eq {pos : Nat} (hpos : pos < 256) (acc : Point) :
    positionChecked terms pos acc = some (position terms pos acc) := by
  apply Machine.foldlM_eq_foldl
  intro term hterm acc
  exact addDigitChecked_eq (hterms term hterm) hpos acc

theorem evaluateChecked_eq : evaluateChecked terms = some (evaluate terms) := by
  have hplaces := positions_le terms
  have hstep : ∀ pos < positions terms, ∀ acc,
      positionChecked terms pos acc = some (position terms pos acc) :=
    fun pos hpos acc => positionChecked_eq hterms (by omega) acc
  rw [evaluateChecked, positionsChecked_eq hterms, Option.bind_eq_bind, Option.bind_some]
  exact Machine.descendOn_eq_foldRev hstep Point.identity

omit hterms in
theorem sumChecked_eq (terms : List Term) : sumChecked terms = some (sum terms) := by
  have hready : ∀ term ∈ terms.map prepare, term.Ready :=
    List.forall_mem_map.mpr fun term _ => prepare_ready term
  rw [sumChecked, Machine.mapM_eq fun term _ => prepareChecked_eq term, Option.bind_eq_bind,
    Option.bind_some]
  exact evaluateChecked_eq hready

end Interleaved

/-- The search of a single row passes its checks. -/
theorem ByteRow.significantChecked_eq {row : ByteRow} {n : Nat} (hn : n ≤ row.size) :
    row.significantChecked n = some (row.significant n) := by
  induction n with
  | zero => rfl
  | succ n ih =>
    rw [significantChecked, significant, readChecked_eq (by omega) Int8.toInt 0,
      Option.bind_eq_bind, Option.bind_some, ih (by omega), ← ByteRow.digit]
    split <;> rfl

namespace Point

/-- The loop for a single point on a row and a table that are ready. -/
theorem mulDigitsChecked_eq {digits : ByteRow} (p : Point)
    (hready : Interleaved.Prepared.Ready ⟨digits, OddTable.ofPoint p⟩) :
    mulDigitsChecked digits p = some (mulDigits digits p) := by
  have hsize : digits.size = 256 := hready.digits
  have hlong := digits.significant_le 256
  rw [mulDigitsChecked, ByteRow.significantChecked_eq (by omega), Option.bind_eq_bind,
    Option.bind_some]
  unfold mulDigits
  cases htop : digits.significant 256 with
  | zero => rfl
  | succ top =>
    have hstep : ∀ pos < top + 1, ∀ acc,
        nonAdjacentStepChecked digits (OddTable.ofPoint p) pos acc =
          some (nonAdjacentStep digits (OddTable.ofPoint p) pos acc) := by
      intro pos hpos acc
      rw [nonAdjacentStepChecked, readChecked_eq (by omega) Int8.toInt 0, Option.bind_eq_bind,
        Option.bind_some]
      exact OddTable.addDigitChecked_eq hready.table (hready.small pos) acc.double
    exact Machine.descendOn_eq_foldRev hstep identity

/-- The multiple in variable time passes its checks. -/
theorem mulOctetsVartimeChecked_eq (scalar : Octets 32) (p : Point) :
    p.mulOctetsVartimeChecked scalar = some (p.mulOctetsVartime scalar) := by
  rw [mulOctetsVartimeChecked, nonAdjacentChecked_eq scalar (by decide) (by decide),
    Option.bind_eq_bind, Option.bind_some]
  exact mulDigitsChecked_eq p (Interleaved.prepare_ready ⟨scalar, p⟩)

end Point

namespace Buckets

/-- A row of all windows with digits of their range. -/
structure Prepared.Ready (w : Nat) (term : Prepared) : Prop where
  digits : term.digits.size = windowCount w
  small : ∀ i, (term.digits.digit i).natAbs ≤ 2 ^ (w - 1)

variable {w : Nat}

/-- A term that is made ready for its buckets is ready. -/
theorem prepare_ready (term : Term) (hw : 1 ≤ w) (hw' : w ≤ 16) :
    (prepare w term).Ready w := by
  refine ⟨size_signedWindows term.scalar w, ?_⟩
  intro i
  rw [digit_prepare term hw hw']
  exact windowDigit_range term.scalar hw hw' i

theorem prepareChecked_eq (term : Term) (hw : 1 ≤ w) (hw' : w ≤ 16) :
    prepareChecked w term = some (prepare w term) := by
  rw [prepareChecked, signedWindowsChecked_eq term.scalar hw hw', Option.bind_eq_bind,
    Option.bind_some]
  rfl

/-- There is a bucket for every digit of a window but zero. -/
theorem place_lt {digit : Int} (hdigit : digit.natAbs ≤ 2 ^ (w - 1)) (hne : digit ≠ 0) :
    place digit < 2 ^ (w - 1) := by
  unfold place
  omega

/-- A digit of its range finds its bucket. -/
theorem depositChecked_eq {buckets : Row} (hsize : buckets.size = 2 ^ (w - 1)) {digit : Int}
    (hdigit : digit.natAbs ≤ 2 ^ (w - 1)) (point : CachedPoint) :
    depositChecked buckets digit point = some (deposit buckets digit point) := by
  unfold depositChecked deposit
  split
  · next hpos =>
    have hplace := place_lt hdigit (by omega)
    exact if_pos (by omega)
  · split
    · next hneg =>
      have hplace := place_lt hdigit (by omega)
      exact if_pos (by omega)
    · rfl

variable {terms : List Prepared} (hterms : ∀ term ∈ terms, term.Ready w)
include hterms

/-- The buckets of a window that the rows have. -/
theorem fillChecked_eq {i : Nat} (hi : i < windowCount w) :
    fillChecked w terms i = some (fill w terms i) := by
  have hstep : ∀ (buckets : Row) (term : Prepared), buckets.size = 2 ^ (w - 1) → term.Ready w →
      depositDigitChecked i buckets term =
          some (deposit buckets (term.digits.digit i) term.point) ∧
        (deposit buckets (term.digits.digit i) term.point).size = 2 ^ (w - 1) := by
    intro buckets term hsize hterm
    have hrow := hterm.digits
    refine ⟨?_, (size_deposit _ _ _).trans hsize⟩
    rw [depositDigitChecked, readChecked_eq (by omega) Int16.toInt 0, Option.bind_eq_bind,
      Option.bind_some]
    exact depositChecked_eq hsize (hterm.small i) term.point
  exact (Machine.foldlM_eq hstep Array.size_replicate hterms).1

/-- A window that the rows have passes its checks. -/
theorem windowChecked_eq {i : Nat} (hi : i < windowCount w) (acc : Point) :
    windowChecked w terms i acc = some (window w terms i acc) := by
  rw [windowChecked, fillChecked_eq hterms hi, Option.bind_eq_bind, Option.bind_some]
  rfl

omit hterms in
/-- The sum by buckets passes its checks at every width. -/
theorem sumWithChecked_eq (terms : List Term) (hw : 1 ≤ w) (hw' : w ≤ 16) :
    sumWithChecked w terms = some (sumWith w terms) := by
  have hready : ∀ term ∈ terms.map (prepare w), term.Ready w :=
    List.forall_mem_map.mpr fun term _ => prepare_ready term hw hw'
  have hstep : ∀ i < windowCount w, ∀ acc, windowChecked w (terms.map (prepare w)) i acc =
      some (window w (terms.map (prepare w)) i acc) :=
    fun i hi acc => windowChecked_eq hready hi acc
  rw [sumWithChecked, Machine.mapM_eq fun term _ => prepareChecked_eq term hw hw',
    Option.bind_eq_bind, Option.bind_some]
  exact Machine.descendOn_eq_foldRev hstep Point.identity

omit hterms in
theorem sumChecked_eq (terms : List Term) : sumChecked terms = some (sum terms) := by
  obtain ⟨hleast, hmost⟩ := windowWidth_range terms.length
  unfold sumChecked sum
  split
  · rfl
  · exact sumWithChecked_eq terms (by omega) (by omega)

end Buckets

namespace Multiscalar

/-- The rows of a batch one after the other. -/
def joinRows {α : Type} (rows : List (Array α)) : Array α := (rows.flatMap Array.toList).toArray

/-- A place of a row is found in the joined rows at its distance from the first row. -/
theorem getElem?_joinRows {α : Type} {rows : List (Array α)} {size : Nat}
    (hrows : ∀ row ∈ rows, row.size = size) (i : Nat) {pos : Nat} (hpos : pos < size) :
    (joinRows rows)[i * size + pos]? = rows[i]?.bind (·[pos]?) := by
  rw [joinRows, List.getElem?_toArray]
  induction rows generalizing i with
  | nil => rfl
  | cons row rest ih =>
    obtain ⟨hsize, hrest⟩ := List.forall_mem_cons.mp hrows
    rw [List.flatMap_cons]
    cases i with
    | zero =>
      have hinside : pos < row.toList.length := by
        rw [Array.length_toList]
        omega
      rw [Nat.zero_mul, Nat.zero_add, List.getElem?_append_left hinside, Array.getElem?_toList]
      rfl
    | succ i =>
      have hplace : (i + 1) * size + pos - row.toList.length = i * size + pos := by
        rw [Array.length_toList, hsize, Nat.succ_mul]
        omega
      rw [List.getElem?_append_right (by rw [Array.length_toList, hsize, Nat.succ_mul]; omega),
        hplace, ih hrest, List.getElem?_cons_succ]

/-- What the sums of a batch need: with all checks made they come to the same end, and every digit
that they read is in the row of its term, where the rows lie one after the other. -/
structure SumsInRange (terms : List Term) : Prop where
  uniform : Uniform.sumChecked terms = some (Uniform.sum terms)
  interleaved : Interleaved.sumChecked terms = some (Interleaved.sum terms)
  buckets : Buckets.sumChecked terms = some (Buckets.sum terms)
  bucketsWith : ∀ w, 2 ≤ w → w ≤ 16 →
    Buckets.sumWithChecked w terms = some (Buckets.sumWith w terms)
  single : ∀ term ∈ terms, term.point.mulOctetsVartimeChecked term.scalar =
    some (term.point.mulOctetsVartime term.scalar)
  uniformRows : ∀ i, ∀ pos < 64,
    (joinRows (terms.map fun term => (Uniform.prepare term).digits))[i * 64 + pos]? =
      terms[i]?.bind fun term => (Uniform.prepare term).digits[pos]?
  formRows : ∀ i, ∀ pos < 256,
    (joinRows (terms.map fun term => (Interleaved.prepare term).digits))[i * 256 + pos]? =
      terms[i]?.bind fun term => (Interleaved.prepare term).digits[pos]?
  windowRows : ∀ w i, ∀ k < windowCount w,
    (joinRows (terms.map fun term => (Buckets.prepare w term).digits))[i * windowCount w + k]? =
      terms[i]?.bind fun term => (Buckets.prepare w term).digits[k]?

/-- The rows of all terms, each found from the place of its term on. -/
theorem getElem?_joinRows_map {α : Type} {row : Term → Array α} {size : Nat} (terms : List Term)
    (hrow : ∀ term, (row term).size = size) (i : Nat) {pos : Nat} (hpos : pos < size) :
    (joinRows (terms.map row))[i * size + pos]? = terms[i]?.bind fun term => (row term)[pos]? := by
  rw [getElem?_joinRows (List.forall_mem_map.mpr fun term _ => hrow term) i hpos, List.getElem?_map,
    Option.bind_map]
  rfl

/-- Nothing is out of range in any sum of a batch. -/
theorem sumsInRange (terms : List Term) : SumsInRange terms where
  uniform := Uniform.sumChecked_eq terms
  interleaved := Interleaved.sumChecked_eq terms
  buckets := Buckets.sumChecked_eq terms
  bucketsWith _ hw hw' := Buckets.sumWithChecked_eq terms (by omega) hw'
  single term _ := Point.mulOctetsVartimeChecked_eq term.scalar term.point
  uniformRows i _ hpos := getElem?_joinRows_map terms Uniform.size_prepare i hpos
  formRows i _ hpos :=
    getElem?_joinRows_map terms (fun term => size_nonAdjacent term.scalar nonAdjacentWidth) i hpos
  windowRows w i _ hk :=
    getElem?_joinRows_map terms (fun term => size_signedWindows term.scalar w) i hk

/-- **Nothing is out of range**, for any strings, widths and batches.  The words that windows are
read from are in the buffer of five, shifts are by less than a word, digits fit the integers of
their rows, and the digits find their multiples in the table of eight and their buckets in the row
of `2 ^ (w - 1)`.  With a check on each of these the expansions and the sums give what they give
without. -/
theorem all_in_range :
    (∀ (bs : Octets 32) (w : Nat), 2 ≤ w → w ≤ 8 → FormInRange w bs) ∧
      (∀ (bs : Octets 32) (w : Nat), 2 ≤ w → w ≤ 16 → WindowsInRange w bs ∧
        ∀ d ∈ signedWindows w bs, d ≠ 0 → Buckets.place d < 2 ^ (w - 1)) ∧
      (∀ bs : Octets 32, radix16Checked bs = some (ByteRow.ofDigits (radix16 bs)) ∧
        ∀ d ∈ nonAdjacent nonAdjacentWidth bs, OddTable.place d ≤ 7) ∧
      ∀ terms : List Term, SumsInRange terms := by
  refine ⟨fun bs w => formInRange bs, ?_, ?_, sumsInRange⟩
  · intro bs w hw hw'
    refine ⟨windowsInRange bs (by omega) hw', ?_⟩
    intro d hd hne
    have hrange := signedWindows_range bs (by omega) hw' d hd
    exact Buckets.place_lt (Buckets.natAbs_le_of_range hrange) hne
  · intro bs
    refine ⟨radix16Checked_eq bs, ?_⟩
    intro d hd
    have hrange := nonAdjacent_range bs (by decide : 2 ≤ nonAdjacentWidth) (by decide) d hd
    have hhalf : 2 ^ (nonAdjacentWidth - 1) = 16 := rfl
    unfold OddTable.place
    omega

/-- The bytes 128 are the digit -128 of a window of eight bits, which goes into the last of the 128
buckets, and with the largest widths nothing is out of range either. -/
theorem all_in_range_widest :
    let bs : Octets 32 := Vector.replicate 32 128
    (2 ≤ 8 ∧ 8 ≤ 8 ∧ FormInRange 8 bs) ∧ (2 ≤ 16 ∧ 16 ≤ 16 ∧ WindowsInRange 16 bs) ∧
      (-128 ∈ signedWindows 8 bs ∧ Buckets.place (-128) = 127 ∧
        Buckets.place (-128) < 2 ^ (8 - 1)) ∧
      SumsInRange [⟨bs, Point.base⟩, ⟨bs, Point.base⟩] := by
  intro bs
  have hmem : -128 ∈ signedWindows 8 bs := by decide +kernel
  obtain ⟨hform, hwindows, -, hsums⟩ := all_in_range
  refine ⟨⟨by decide, by decide, hform bs 8 (by decide) (by decide)⟩,
    ⟨by decide, by decide, (hwindows bs 16 (by decide) (by decide)).1⟩, ⟨hmem, rfl, ?_⟩, hsums _⟩
  exact (hwindows bs 8 (by decide) (by decide)).2 (-128) hmem (by decide)

end Multiscalar

end TwistedEdwards
