import TwistedEdwards.Scalar.Encoding
import TwistedEdwards.Multiscalar.Interleaved
import TwistedEdwards.Multiscalar.Buckets

/-!
# Batches

A batch pairs scalars with points.  Short batches are summed interleaved and long
ones by buckets; both depend in their running time on the scalars, and the
uniform sum does not.  Scalars and points must be equally many, so many scalars
must be addressable when they are written one after the other, and a batch with an
absent point has no sum.

A batch comes as two lists, or as two lists and a count of the terms to take from
them.  Two lists of one length are such a batch with their length as the count.

Main statements: `Batch.flatten_eq` and `Batch.flatten_of_lt`, what a count does to
the terms that are taken.
-/

namespace TwistedEdwards

/-- The two ways of summing that depend on the scalars. -/
inductive Algorithm where
  | straus
  | pippenger
deriving DecidableEq

namespace Algorithm

/-- The number of terms from which buckets are used. -/
def threshold : Nat := 190

/-- Interleaved below the threshold, buckets from there on. -/
def ofCount (n : Nat) : Algorithm := if n < threshold then straus else pippenger

def name : Algorithm → String
  | straus => "Straus"
  | pippenger => "Pippenger"

/-- The number of an algorithm. -/
def code : Algorithm → Nat
  | straus => 0
  | pippenger => 1

/-- Sums by the algorithm. -/
def sum : Algorithm → List Term → Point
  | straus, terms => Interleaved.sum terms
  | pippenger, terms => Buckets.sum terms

/-- Either algorithm sums nothing to the neutral point. -/
theorem sum_nil (algorithm : Algorithm) : algorithm.sum [] = Point.identity := by
  cases algorithm with
  | straus => exact Interleaved.sum_nil
  | pippenger => exact Buckets.sum_nil

end Algorithm

/-- Why a batch is refused. -/
inductive BatchError where
  | countMismatch
  | tooLarge
deriving DecidableEq

def BatchError.message : BatchError → String
  | countMismatch => "multiscalar multiplication: scalar and point counts differ"
  | tooLarge => "multiscalar multiplication: batch too large"

namespace Batch

/-- The sum by the algorithm for the number of terms. -/
def sumVartime (terms : List Term) : Point :=
  (Algorithm.ofCount terms.length).sum terms

theorem sumVartime_nil : sumVartime [] = Point.identity := Algorithm.sum_nil _

/-- A sum over points some of which may be absent. -/
structure PresentSum where
  complete : Bool
  point : Point

/-- The terms if every point is present. -/
def allPresent? : List (Octets 32 × Option Point) → Option (List Term)
  | [] => some []
  | (scalar, point) :: rest =>
    match point, allPresent? rest with
    | some p, some terms => some (⟨scalar, p⟩ :: terms)
    | _, _ => none

/-- The sum if every point is present, else the neutral element. -/
def sumPresent (terms : List (Octets 32 × Option Point)) : PresentSum :=
  match allPresent? terms with
  | some terms => ⟨true, sumVartime terms⟩
  | none => ⟨false, Point.identity⟩

/-- Scalars and points must be equally many. -/
def checkLengths (scalars points : Nat) : Except BatchError Unit :=
  if scalars = points then .ok () else .error .countMismatch

/-- The largest count whose scalars can be addressed. -/
def maxCount : Nat := (2 ^ 64 - 1) / 32

/-- No more scalars than can be addressed. -/
def checkCount (n : Nat) : Except BatchError Unit :=
  if maxCount < n then .error .tooLarge else .ok ()

/-- The terms of scalars and points. -/
def pairedTerms (scalars : List Scalar) (points : List Point) : List Term :=
  (scalars.zip points).map fun (s, p) => ⟨s.toOctets, p⟩

/-- The terms of the first `n` scalars and points; both lists have so many. -/
def flatten (n : Nat) (scalars : List Scalar) (points : List Point) :
    Except BatchError (List Term) := do
  checkCount n
  return pairedTerms (scalars.take n) (points.take n)

/-- The sum of the first `n` terms.  Without terms, or without a list, it is neutral before the
count is looked at. -/
def sumFirst (sum : List Term → Point) (n : Nat) (scalars : Option (List Scalar))
    (points : Option (List Point)) : Except BatchError Point :=
  if n = 0 then .ok .identity
  else
    match scalars, points with
    | some scalars, some points => do
      let terms ← flatten n scalars points
      return sum terms
    | _, _ => .ok .identity

/-- The uniform sum of the first `n` terms. -/
def mulFirst (n : Nat) (scalars : Option (List Scalar)) (points : Option (List Point)) :
    Except BatchError Point :=
  sumFirst Uniform.sum n scalars points

/-- The sum of the first `n` terms by the algorithm for their number. -/
def mulFirstVartime (n : Nat) (scalars : Option (List Scalar))
    (points : Option (List Point)) : Except BatchError Point :=
  sumFirst sumVartime n scalars points

/-- The sum with a fixed pattern of operations. -/
def mul (scalars : List Scalar) (points : List Point) : Except BatchError Point := do
  checkLengths scalars.length points.length
  mulFirst scalars.length (some scalars) (some points)

/-- The sum by the algorithm for the number of terms. -/
def mulVartime (scalars : List Scalar) (points : List Point) : Except BatchError Point := do
  checkLengths scalars.length points.length
  mulFirstVartime scalars.length (some scalars) (some points)

/-- The sum by a chosen algorithm. -/
def mulWith (algorithm : Algorithm) (scalars : List Scalar) (points : List Point) :
    Except BatchError Point := do
  checkLengths scalars.length points.length
  let terms ← flatten scalars.length scalars points
  return algorithm.sum terms

/-- The sum if every point is present. -/
def mulOptional (scalars : List Scalar) (points : List (Option Point)) :
    Except BatchError (Option Point) := do
  checkLengths scalars.length points.length
  checkCount scalars.length
  let sum := sumPresent ((scalars.map Scalar.toOctets).zip points)
  return if sum.complete then some sum.point else none

theorem checkLengths_eq {m n : Nat} (h : m = n) : checkLengths m n = .ok () := if_pos h

theorem checkLengths_of_ne {m n : Nat} (h : m ≠ n) : checkLengths m n = .error .countMismatch :=
  if_neg h

theorem checkCount_eq {n : Nat} (hn : n ≤ maxCount) : checkCount n = .ok () :=
  if_neg (Nat.not_lt.mpr hn)

/-- The check fails from the first count whose bytes have no address. -/
theorem checkCount_of_lt {n : Nat} (hn : maxCount < n) : checkCount n = .error .tooLarge :=
  if_pos hn

/-- With both lists only the count decides. -/
theorem sumFirst_some (sum : List Term → Point) (n : Nat) (scalars : List Scalar)
    (points : List Point) :
    sumFirst sum n (some scalars) (some points) =
      if n = 0 then .ok .identity else do
        let terms ← flatten n scalars points
        return sum terms :=
  rfl

/-- A count within the largest takes the terms. -/
theorem flatten_eq {n : Nat} (hn : n ≤ maxCount) (scalars : List Scalar) (points : List Point) :
    flatten n scalars points = .ok (pairedTerms (scalars.take n) (points.take n)) := by
  rw [flatten, checkCount_eq hn]
  rfl

/-- A count above the largest is refused, whatever the lists are. -/
theorem flatten_of_lt {n : Nat} (hn : maxCount < n) (scalars : List Scalar)
    (points : List Point) : flatten n scalars points = .error .tooLarge := by
  rw [flatten, checkCount_of_lt hn]
  rfl

end Batch

end TwistedEdwards
