import TwistedEdwards.Field.Canonical
import TwistedEdwards.Field.Power

/-!
# Square roots of ratios

The square root of `u / v` is found without a division.  With
`r = u v ^ 3 (u v ^ 7) ^ ((p - 5) / 8)` the number `v r ^ 2` is `u`, `-u`, or one
of the two times a square root of minus one; in the second case `r` times that
root of minus one is the answer, and in the others but the first there is none.

Of the two roots the one whose canonical number is even is returned.
-/

namespace TwistedEdwards

namespace FieldElement

/-- A square root of minus one. -/
def sqrtMinusOne : FieldElement :=
  ⟨0x61b274a0ea0b0, 0xd5a5fc8f189d, 0x7ef5e9cbd0c60, 0x78595a6804c9e, 0x2b8324804fc1d⟩

/-- The only number that can be a square root of `u / v`, up to a root of minus one. -/
def rootCandidate (u v : FieldElement) : FieldElement :=
  let v3 := square v * v
  let v7 := square v3 * v
  rootPower (u * v7) * (u * v3)

/-- The even square root of `u / v`, or none if there is no root or `v` is zero. -/
def sqrtRatio? (u v : FieldElement) : Option FieldElement :=
  let r := rootCandidate u v
  let check := square r * v
  let minusU := -u
  let correct := check.same u
  let flipped := check.same minusU
  let flippedTwist := check.same (minusU * sqrtMinusOne)
  let r := select r (r * sqrtMinusOne) (flipped || flippedTwist)
  let root := negateIf r r.isNegative
  if (correct || flipped) && v.isNonzero then some root else none

end FieldElement

end TwistedEdwards
