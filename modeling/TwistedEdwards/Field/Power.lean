import TwistedEdwards.Field.Product

/-!
# Fixed powers

Inversion and square roots raise to the powers `p - 2` and `(p - 5) / 8`.  Both
exponents begin with 250 ones in binary, so both chains share the power
`2 ^ 250 - 1`, which is built by doubling runs of ones: a run of `m` ones shifted
by `k` bits and joined to a run of `k` ones is a run of `m + k` ones.
-/

namespace TwistedEdwards

namespace FieldElement

/-- Shifts the exponent of `f` up by `k` bits and adds the exponent of `g`. -/
def shiftMul (k : Nat) (f g : FieldElement) : FieldElement := squareTimes k f * g

/-- The power 9. -/
def pow9 (f : FieldElement) : FieldElement := f * squareTimes 2 (square f)

/-- From the power `2 ^ 5 - 1` to the power `2 ^ 250 - 1`. -/
def onesRun (ones5 : FieldElement) : FieldElement :=
  let ones10 := shiftMul 5 ones5 ones5
  let ones20 := shiftMul 10 ones10 ones10
  let ones40 := shiftMul 20 ones20 ones20
  let ones50 := shiftMul 10 ones40 ones10
  let ones100 := shiftMul 50 ones50 ones50
  let ones200 := shiftMul 100 ones100 ones100
  shiftMul 50 ones200 ones50

/-- The power `p - 2 = 2 ^ 255 - 21`: the inverse, and zero for zero. -/
def inverse (f : FieldElement) : FieldElement :=
  let power9 := pow9 f
  let power11 := square f * power9
  shiftMul 5 (onesRun (power9 * square power11)) power11

/-- The power `(p - 5) / 8 = 2 ^ 252 - 3`. -/
def rootPower (f : FieldElement) : FieldElement :=
  let power9 := pow9 f
  let power11 := square f * power9
  shiftMul 2 (onesRun (power9 * square power11)) f

end FieldElement

end TwistedEdwards
