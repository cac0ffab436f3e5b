import TwistedEdwards.Check.Arithmetic
import TwistedEdwards.Multiscalar.Batch
import TwistedEdwards.Point.Predicate
import TwistedEdwards.Point.Encoding

/-!
# Checks on points

The group laws, the compressed form and the multiples of a point, tried on random
multiples of the base point and on random strings.
-/

namespace TwistedEdwards

open Generator (Draw)

/-- A batch has a sum with the given property. -/
def Batch.sumSatisfies (sum : Except BatchError Point) (property : Point → Bool) : Bool :=
  sum.toOption.any property

namespace Point

/-- The group laws. -/
def checks (label : String) (p q r : Point) : List Check :=
  [.holds (label ++ " on_curve") p.onCurve,
    .holds (label ++ " identity") ((p + identity).sameOctets p),
    .holds (label ++ " commutative") ((p + q).sameOctets (q + p)),
    .holds (label ++ " associative") ((p + q + r).sameOctets (p + (q + r))),
    .holds (label ++ " dbl") (p.double.sameOctets (p + p)),
    .holds (label ++ " inverse") (p - p).isIdentity,
    .holds (label ++ " sub") ((p - q + q).sameOctets p),
    .holds (label ++ " equality") ((p + q).same (q + p) && !p.same p.double),
    .holds (label ++ " sum on_curve") (p + q).onCurve,
    .holds (label ++ " cofactor") (p.mulCofactor.sameOctets (p.mulVartime (Scalar.ofWord 8)))]

/-- Three random points by the group laws. -/
def trial (i : Nat) : Draw (List Check) := do
  let p ← Generator.point
  let q ← Generator.point
  let r ← Generator.point
  return checks ("point[" ++ toString i ++ "]") p q r

/-- A point is read back from its string, and writes it again. -/
def codecChecks (label : String) (p : Point) : List Check :=
  let bs := p.toOctets
  match decode? bs with
  | none => [.holds (label ++ " decodes") false]
  | some q =>
    [.holds (label ++ " decodes") true,
      .holds (label ++ " equal") (q.same p),
      .sameBytes (label ++ " re-encodes") bs.toList q.toOctets.toList]

/-- A random point, written and read. -/
def codecTrial (i : Nat) : Draw (List Check) := do
  let p ← Generator.point
  return codecChecks ("codec[" ++ toString i ++ "]") p

/-- A string gives a point that writes it again, or a known error. -/
def stringChecks (label : String) (bs : Octets 32) : List Check :=
  let again := (decode? bs).isSome
  match decode bs with
  | .ok p =>
    [.holds (label ++ " deterministic") again,
      .sameBytes (label ++ " canonical re-encode") bs.toList p.toOctets.toList,
      .holds (label ++ " on_curve") p.onCurve]
  | .error e =>
    [.holds (label ++ " deterministic") !again,
      .holds (label ++ " known error") (e == .invalidEncoding || e == .notOnCurve)]

/-- Random strings; at least one of them is a point. -/
def stringTrials (n : Nat) : Draw (List Check) := do
  let strings ← (List.range n).mapM fun _ => Generator.octets32
  let checks := strings.mapIdx fun i bs =>
    stringChecks ("random_bytes[" ++ toString i ++ "]") bs
  return checks.flatten ++
    [.holds "random_bytes some decoded" (strings.any fun bs => (decode? bs).isSome)]

/-- Both ways of multiplying agree with each other and with the sum of a single term, and are
linear. -/
def multipleChecks (label : String) (p : Point) (a b : Scalar) : List Check :=
  [.holds (label ++ " ct==vt") ((p.mul a).sameOctets (p.mulVartime a)),
    .holds (label ++ " free==member")
      (Batch.sumSatisfies (Batch.mulFirst 1 (some [a]) (some [p])) (sameOctets · (p.mul a))),
    .holds (label ++ " linear") ((p.mulVartime (a + b)).sameOctets (p.mul a + p.mul b)),
    .holds (label ++ " compose")
      ((base.mulVartime (a * b)).sameOctets ((base.mulVartime b).mulVartime a)),
    .holds (label ++ " negate") ((p.mul (-a)).sameOctets (-(p.mul a))),
    .holds (label ++ " zero") (p.mul Scalar.zero).isIdentity,
    .holds (label ++ " one") ((p.mul Scalar.one).sameOctets p)]

/-- A random point and two random scalars. -/
def multipleTrial (i : Nat) : Draw (List Check) := do
  let p ← Generator.point
  let a ← Generator.scalar
  let b ← Generator.scalar
  return multipleChecks ("sm[" ++ toString i ++ "]") p a b

end Point

end TwistedEdwards
