import TwistedEdwards.Digits.Window
import TwistedEdwards.Multiscalar.Uniform

/-!
# Sums of multiples by buckets

Each term's scalar is cut into signed windows.  For one window, every term is
added to the bucket of its digit's magnitude, with the digit's sign.  Going down
from the highest bucket, a running sum takes in each bucket and is itself added
to the window's sum, so the bucket of magnitude `m` is counted `m` times.  The
windows are joined from the top by as many doublings as a window has bits.

A bucket that no term was put into stays empty and costs no addition; one whose
points cancelled out is not empty.

Main statements: `Buckets.size_deposit` and `Buckets.sum_nil`.
-/

namespace TwistedEdwards

namespace Buckets

/-- The window width for a number of terms. -/
def windowWidth (n : Nat) : Nat :=
  if n < 500 then 6
  else if n < 800 then 7
  else if n < 2592 then 8
  else if n < 7776 then 9
  else if n < 23328 then 10
  else 11

/-- A term made ready: its digits and its point. -/
structure Prepared where
  digits : ShortRow
  point : CachedPoint

/-- The windows of a term, and its point in the form that is added. -/
def prepare (w : Nat) (term : Term) : Prepared :=
  ⟨ShortRow.ofDigits (Digits.signedWindows w term.scalar), term.point.cached⟩

/-- The buckets of the magnitudes from one up; an empty one holds nothing. -/
abbrev Row := Array (Option Point)

/-- The sum in a bucket. -/
def content (bucket : Option Point) : Point := bucket.getD Point.identity

/-- The place of the bucket for a digit that is not zero. -/
def place (digit : Int) : Nat := digit.natAbs - 1

/-- Puts a point into the bucket of a digit's magnitude, with the digit's sign. -/
def deposit (buckets : Row) (digit : Int) (point : CachedPoint) : Row :=
  if 0 < digit then
    buckets.modify (place digit) fun bucket =>
      some ((content bucket).addCached point).extended
  else if digit < 0 then
    buckets.modify (place digit) fun bucket =>
      some ((content bucket).subCached point).extended
  else buckets

/-- The buckets of one window. -/
def fill (w : Nat) (terms : List Prepared) (window : Nat) : Row :=
  terms.foldl (fun buckets term => deposit buckets (term.digits.digit window) term.point)
    (Array.replicate (2 ^ (w - 1)) none)

/-- The sum of the buckets gone through, none before the first that is not empty, and
the sum of all the running sums. -/
structure RunningSum where
  running : Option Point
  total : Point

/-- Adds a point to an empty or begun sum. -/
def extend (sum : Option Point) (p : Point) : Option Point := some (content sum + p)

/-- Takes in the next lower bucket. -/
def descend (bucket : Option Point) (s : RunningSum) : RunningSum :=
  let running := match bucket with
    | some p => extend s.running p
    | none => s.running
  match running with
  | some r => ⟨running, s.total + r⟩
  | none => ⟨none, s.total⟩

/-- Goes through the buckets, the highest first. -/
def collapse (buckets : Row) : RunningSum := buckets.foldr descend ⟨none, Point.identity⟩

/-- Adds a window's sum, if any bucket held something. -/
def join (acc : Point) (s : RunningSum) : Point :=
  match s.running with
  | some _ => acc + s.total
  | none => acc

/-- One window: the doublings except at the top, then the window's sum. -/
def window (w : Nat) (terms : List Prepared) (i : Nat) (acc : Point) : Point :=
  let acc := if i + 1 = Digits.windowCount w then acc else acc.doubleTimes w
  join acc (collapse (fill w terms i))

/-- Runs through the windows, the highest first. -/
def evaluate (w : Nat) (terms : List Prepared) : Point :=
  (Digits.windowCount w).foldRev (fun i _ acc => window w terms i acc) Point.identity

/-- The sum of the multiples with windows of a given width. -/
def sumWith (w : Nat) (terms : List Term) : Point := evaluate w (terms.map (prepare w))

/-- The sum of the multiples; without terms the neutral element. -/
def sum (terms : List Term) : Point :=
  if terms.isEmpty then Point.identity else sumWith (windowWidth terms.length) terms

theorem sum_nil : sum [] = Point.identity := rfl

/-- A deposit keeps the number of buckets. -/
theorem size_deposit (buckets : Row) (digit : Int) (point : CachedPoint) :
    (deposit buckets digit point).size = buckets.size := by
  simp only [deposit]
  split
  · simp
  · split <;> simp

end Buckets

end TwistedEdwards
