import TwistedEdwards.Check.Report
import TwistedEdwards.Random.Sample
import TwistedEdwards.Field.SquareRoot
import TwistedEdwards.Scalar.Digits
import TwistedEdwards.Scalar.Inverse

/-!
# Checks on fields, scalars and digits

Laws of arithmetic tried on random operands: ring laws and inverses in the field
and among scalars, square roots of ratios that have one and of ratios that have
none, and digit expansions evaluated back.
-/

namespace TwistedEdwards

open Generator (Draw)

/-- The checks of trials numbered from zero, in order. -/
def trials (n : Nat) (trial : Nat → Draw (List Check)) : Draw (List Check) :=
  List.flatten <$> (List.range n).mapM trial

namespace FieldElement

/-- Distributivity, differences, inverses and bytes. -/
def checks (label : String) (a b c : FieldElement) : List Check :=
  let encoded := a.toOctets
  [.holds (label ++ " distributive") ((a * (b + c)).same (a * c + a * b)),
    .holds (label ++ " sub/add") ((a - b + b).same a)] ++
  (if a.isNonzero then [.holds (label ++ " invert") ((a.inverse * a).same one)] else []) ++
  [.sameBytes (label ++ " encoding stable") encoded.toList
      (FieldElement.ofOctets encoded).toOctets.toList,
    .holds (label ++ " top bit clear") (!encoded.topBit)]

/-- Three random elements by the field laws. -/
def trial (i : Nat) : Draw (List Check) := do
  let a ← Generator.fieldElement
  let b ← Generator.fieldElement
  let c ← Generator.fieldElement
  return checks ("fp[" ++ toString i ++ "]") a b c

/-- A square ratio has the root found, twice a square ratio has none, and neither has a
ratio to zero.  Zero operands are passed over. -/
def rootChecks (label : String) (x v : FieldElement) : List Check :=
  if !v.isNonzero || !x.isNonzero then []
  else
    let u := x.square * v
    let root := sqrtRatio? u v
    let r := root.getD zero
    let twice := u * (one + one)
    [.holds (label ++ " square found") root.isSome,
      .holds (label ++ " r^2 * v == u") ((r.square * v).same u),
      .holds (label ++ " root non-negative") (!r.isNegative),
      .holds (label ++ " non-square rejected") (sqrtRatio? twice v).isNone,
      .holds (label ++ " v == 0 rejected") (sqrtRatio? twice zero).isNone]

/-- A random square and a random ratio. -/
def rootTrial (i : Nat) : Draw (List Check) := do
  let x ← Generator.fieldElement
  let v ← Generator.fieldElement
  return rootChecks ("sqrt_ratio[" ++ toString i ++ "]") x v

end FieldElement

namespace Scalar

/-- A string followed by 32 zero bytes. -/
def padded (bs : Octets 32) : Octets 64 := bs ++ (Vector.replicate 32 0 : Octets 32)

/-- Ring laws, inverses and bytes. -/
def checks (label : String) (a b c : Scalar) (raw : Octets 32) : List Check :=
  [.holds (label ++ " commutative_add") (a + b == b + a),
    .holds (label ++ " commutative_mul") (a * b == b * a),
    .holds (label ++ " distributive") (a * (b + c) == a * b + a * c),
    .holds (label ++ " sub/add") (a - b + b == a),
    .holds (label ++ " neg") (a + -a).isZero,
    .holds (label ++ " sq") (a.square == a * a),
    .holds (label ++ " invert") (a.inverse?.any fun inverse => inverse * a == one),
    .holds (label ++ " canonical roundtrip") (ofCanonical? a.toOctets == some a),
    .holds (label ++ " mod_order == reduce_wide")
      (ofOctets raw == ofWide (padded raw))]

/-- Three random scalars by the ring laws, and the ways of reading them. -/
def trial (i : Nat) : Draw (List Check) := do
  let a ← Generator.scalar
  let b ← Generator.scalar
  let c ← Generator.scalar
  let raw ← Generator.octets32
  return checks ("scalar[" ++ toString i ++ "]") a b c raw

/-- A signed digit as a scalar. -/
def ofDigit (d : Int) : Scalar :=
  if 0 ≤ d then ofWord d.toNat.toUInt64 else -ofWord (-d).toNat.toUInt64

/-- The scalar that a row of digits stands for, from the top digit down. -/
def ofRow (radix : Scalar) (row : ByteRow) : Scalar :=
  row.toDigits.foldr (fun d acc => acc * radix + ofDigit d) zero

/-- Expansions are repeatable, in range, and stand for the scalar. -/
def digitChecks (label : String) (s : Scalar) (w : Nat) : List Check :=
  let digits := s.radix16
  [.holds (label ++ " radix16 deterministic") (s.radix16 == s.radix16),
    .holds (label ++ " naf deterministic")
      ((s.nonAdjacentForm 5).toOption == (s.nonAdjacentForm 5).toOption),
    .holds (label ++ " radix16 range") (digits.toDigits.all fun d => -7 ≤ d && d ≤ 8),
    .holds (label ++ " radix16 value") (ofRow (ofWord 16) digits == s),
    .holds (label ++ " naf value")
      ((s.nonAdjacentForm w).toOption.any fun row => ofRow (ofWord 2) row == s)]

/-- A random scalar by its expansions. -/
def digitTrial (i : Nat) : Draw (List Check) := do
  let s ← Generator.scalar
  let r ← Generator.next
  return digitChecks ("recode[" ++ toString i ++ "]") s (2 + (r % 7).toNat)

end Scalar

end TwistedEdwards
