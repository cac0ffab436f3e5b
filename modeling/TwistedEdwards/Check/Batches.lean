import TwistedEdwards.Check.Points

/-!
# Checks on sums of multiples

Every way of summing a batch is compared with the plain sum of single multiples,
or with another way: on random batches, around the count where the algorithm
changes, on batches with zero scalars, neutral points and cancelling terms, and on
batches with an absent point.
-/

namespace TwistedEdwards

open Generator (Draw)

namespace Batch

/-- The sum of single multiples, one after the other. -/
def plainSum (scalars : List Scalar) (points : List Point) : Point :=
  (scalars.zip points).foldl (fun acc (s, p) => acc + p.mulVartime s) Point.identity

/-- Random scalars and points, drawn in pairs. -/
def randomPairs (n : Nat) : Draw (List (Scalar × Point)) :=
  (List.range n).mapM fun _ => do
    let s ← Generator.scalar
    let p ← Generator.point
    return (s, p)

/-- Every size a number of times, with the label of a trial. -/
def sizedTrials (name : String) (sizes : List Nat) (count : Nat)
    (trial : String → Nat → Draw (List Check)) : Draw (List Check) :=
  List.flatten <$> sizes.mapM fun n =>
    trials count fun t =>
      trial (name ++ "[n=" ++ toString n ++ ",t=" ++ toString t ++ "]") n

/-- A batch by every way of summing. -/
def randomChecks (label : String) (scalars : List Scalar) (points : List Point) : List Check :=
  let plain := plainSum scalars points
  let agrees := fun sum => sumSatisfies sum (Point.sameOctets · plain)
  [.holds (label ++ " vartime") (agrees (mulVartime scalars points)),
    .holds (label ++ " ct") (agrees (mul scalars points)),
    .holds (label ++ " pippenger") (agrees (mulWith .pippenger scalars points))]

/-- A random batch of `n` terms. -/
def randomTrial (label : String) (n : Nat) : Draw (List Check) := do
  let pairs ← randomPairs n
  return randomChecks label (pairs.map Prod.fst) (pairs.map Prod.snd)

/-- Sizes up to 64, four times each. -/
def randomTrials : Draw (List Check) :=
  sizedTrials "msm" [1, 2, 3, 8, 16, 33, 64] 4 randomTrial

/-- The same batch by both algorithms, by the one chosen, and uniformly. -/
def thresholdChecks (label : String) (scalars : List Scalar) (points : List Point) :
    List Check :=
  let n := scalars.length
  let straus := (mulWith .straus scalars points).toOption
  let agrees := fun sum =>
    straus.any fun expected => sumSatisfies sum (Point.sameOctets · expected)
  [.holds (label ++ " selection")
      (Algorithm.ofCount n == if n < 190 then .straus else .pippenger),
    .holds (label ++ " straus==pippenger") (agrees (mulWith .pippenger scalars points)),
    .holds (label ++ " dispatched") (agrees (mulVartime scalars points)),
    .holds (label ++ " ct==vt") (agrees (mul scalars points))]

/-- A random batch of `n` terms, once. -/
def thresholdTrial (n : Nat) : Draw (List Check) := do
  let pairs ← randomPairs n
  return thresholdChecks ("threshold[n=" ++ toString n ++ "]") (pairs.map Prod.fst)
    (pairs.map Prod.snd)

/-- Sizes on both sides of the count where the algorithm changes, and larger ones. -/
def thresholdTrials : Draw (List Check) :=
  List.flatten <$> [188, 189, 190, 191, 256, 511, 800].mapM thresholdTrial

/-- Term `j` of a sparse batch: every fifth point is neutral and every third scalar zero,
and neither of those is drawn. -/
def sparsePair (j : Nat) : Draw (Scalar × Point) := do
  let p ← if j % 5 = 1 then pure Point.identity else Generator.point
  let s ← if j % 3 = 0 then pure Scalar.zero else Generator.scalar
  return (s, p)

/-- The last entry replaced by the one before it. -/
def repeatLast : List Point → List Point
  | [] => []
  | [p] => [p]
  | [p, _] => [p, p]
  | p :: q :: r :: rest => p :: repeatLast (q :: r :: rest)

/-- A batch with zero scalars and neutral points by three ways of summing. -/
def sparseChecks (label : String) (scalars : List Scalar) (points : List Point) : List Check :=
  let plain := plainSum scalars points
  let agrees := fun sum => sumSatisfies sum (Point.sameOctets · plain)
  [.holds (label ++ " vartime") (agrees (mulVartime scalars points)),
    .holds (label ++ " ct") (agrees (mul scalars points)),
    .holds (label ++ " straus") (agrees (mulWith .straus scalars points))]

/-- A sparse batch of `n` terms whose last point is repeated. -/
def sparseTrial (label : String) (n : Nat) : Draw (List Check) := do
  let pairs ← (List.range n).mapM sparsePair
  return sparseChecks label (pairs.map Prod.fst) (repeatLast (pairs.map Prod.snd))

/-- Both sums of a batch have a property. -/
def bothSatisfy (label : String) (scalars : List Scalar) (points : List Point)
    (property : Point → Bool) : List Check :=
  [.holds (label ++ " vartime") (sumSatisfies (mulVartime scalars points) property),
    .holds (label ++ " ct") (sumSatisfies (mul scalars points) property)]

/-- Pairs of equal scalars and opposite points, then the same points with zero scalars and
with scalars minus one. -/
def cancelChecks (n : Nat) (pairs : List (Scalar × Point)) : List Check :=
  let size := "[n=" ++ toString n ++ "]"
  let scalars := pairs.flatMap fun (s, _) => [s, s]
  let points := pairs.flatMap fun (_, p) => [p, -p]
  let expected := points.foldl (fun acc p => acc - p) Point.identity
  bothSatisfy ("cancel" ++ size) scalars points Point.isIdentity ++
    bothSatisfy ("all_zero" ++ size) (List.replicate n Scalar.zero) points Point.isIdentity ++
    bothSatisfy ("minus_one" ++ size) (List.replicate n (-Scalar.one)) points
      (Point.sameOctets · expected)

/-- Sparse batches of one even size, then a cancelling one. -/
def sparseSize (n : Nat) : Draw (List Check) := do
  let sparse ← sizedTrials "sparse" [n] 4 sparseTrial
  let pairs ← randomPairs (n / 2)
  return sparse ++ cancelChecks n pairs

/-- Sparse batches on both sides of the count where the algorithm changes. -/
def sparseTrials : Draw (List Check) :=
  List.flatten <$> [8, 200].mapM sparseSize

/-- A batch with all points present, then with the point at `index` absent. -/
def optionalChecks (label : String) (scalars : List Scalar) (points : List Point)
    (index : Nat) : List Check :=
  let whole := points.map some
  let present := (mulOptional scalars whole).toOption.join
  let lacking := mulOptional scalars (whole.set index none)
  [.holds (label ++ " all present")
      (present.any fun p => sumSatisfies (mulVartime scalars points) p.sameOctets),
    .holds (label ++ " one absent") (lacking.toOption.any Option.isNone)]

/-- A random batch of `n` terms with a random point taken away. -/
def optionalTrial (label : String) (n : Nat) : Draw (List Check) := do
  let pairs ← randomPairs n
  let r ← Generator.next
  return optionalChecks label (pairs.map Prod.fst) (pairs.map Prod.snd) (r.toNat % n)

/-- Sizes up to the count where the algorithm changes, four times each. -/
def optionalTrials : Draw (List Check) := sizedTrials "optional" [1, 5, 190] 4 optionalTrial

end Batch

end TwistedEdwards
