import TwistedEdwards.Field.SquareRoot
import TwistedEdwards.Proofs.Exact.Field
import TwistedEdwards.Proofs.Field.Power

/-!
# Fixed powers and roots on a machine

The chains of squares and products keep every limb below `2 ^ 54`, which is all that the
next square or product asks for, so both powers and the square root of a ratio run on
every faithful machine.

Main statements: `FieldElement.inverseOn_eq`, `FieldElement.rootPowerOn_eq`,
`FieldElement.sqrtRatioOn_eq` and `FieldElement.powers_exact`.
-/

namespace TwistedEdwards

namespace FieldElement

section Definitions

variable (M : Machine)

/-- Squares a number of times. -/
def squareTimesOn (n : Nat) (f : FieldElement) : Option FieldElement :=
  Machine.repeatOn (squareOn M) n f

/-- Shifts an exponent by squaring and adds another by a product. -/
def shiftMulOn (k : Nat) (f g : FieldElement) : Option FieldElement := do
  mulOn M (← squareTimesOn M k f) g

/-- The ninth power. -/
def pow9On (f : FieldElement) : Option FieldElement := do
  mulOn M f (← squareTimesOn M 2 (← squareOn M f))

/-- The chain from five to 250 ones in the exponent. -/
def onesRunOn (ones5 : FieldElement) : Option FieldElement := do
  let ones10 ← shiftMulOn M 5 ones5 ones5
  let ones20 ← shiftMulOn M 10 ones10 ones10
  let ones40 ← shiftMulOn M 20 ones20 ones20
  let ones50 ← shiftMulOn M 10 ones40 ones10
  let ones100 ← shiftMulOn M 50 ones50 ones50
  let ones200 ← shiftMulOn M 100 ones100 ones100
  shiftMulOn M 50 ones200 ones50

/-- The powers 11 and `2 ^ 5 - 1` that both chains begin with. -/
def firstPowersOn (f : FieldElement) : Option (FieldElement × FieldElement) := do
  let power9 ← pow9On M f
  let power11 ← mulOn M (← squareOn M f) power9
  return (power11, ← mulOn M power9 (← squareOn M power11))

/-- The chain of the inverse. -/
def inverseOn (f : FieldElement) : Option FieldElement := do
  let (power11, ones5) ← firstPowersOn M f
  shiftMulOn M 5 (← onesRunOn M ones5) power11

/-- The chain of the power that roots are taken from. -/
def rootPowerOn (f : FieldElement) : Option FieldElement := do
  let (_, ones5) ← firstPowersOn M f
  shiftMulOn M 2 (← onesRunOn M ones5) f

/-- The root of a ratio, if there is one, up to a fourth root of one. -/
def rootCandidateOn (u v : FieldElement) : Option FieldElement := do
  let v3 ← mulOn M (← squareOn M v) v
  let v7 ← mulOn M (← squareOn M v3) v
  let power ← rootPowerOn M (← mulOn M u v7)
  mulOn M power (← mulOn M u v3)

/-- The root that is chosen is negated if it is odd. -/
def evenRootOn (r : FieldElement) : Option FieldElement := do
  negateIfOn M r (← isNegativeOn M r)

/-- The machine may stop, and where it does not there may be no root. -/
def sqrtRatioOn (u v : FieldElement) : Option (Option FieldElement) := do
  let r ← rootCandidateOn M u v
  let check ← mulOn M (← squareOn M r) v
  let minusU ← negOn M u
  let correct ← sameOn M check u
  let flipped ← sameOn M check minusU
  let flippedTwist ← sameOn M check (← mulOn M minusU sqrtMinusOne)
  let twisted ← mulOn M r sqrtMinusOne
  let root ← evenRootOn M (r.select twisted (flipped || flippedTwist))
  let nonzero ← isNonzeroOn M v
  return if (correct || flipped) && nonzero then some root else none

end Definitions

section Laws

variable {M : Machine} {b : Nat} {f g u v : FieldElement} (hM : M.Faithful)
include hM

/-- Squares stay within the bound that they are taken from. -/
theorem squareTimesOn_eq (hf : f.Bounded (2 ^ 54)) (n : Nat) :
    squareTimesOn M n f = some (f.squareTimes n) ∧ (f.squareTimes n).Bounded (2 ^ 54) := by
  have hstep : ∀ g : FieldElement, g.Bounded (2 ^ 54) →
      squareOn M g = some g.square ∧ g.square.Bounded (2 ^ 54) := fun _ hg =>
    ⟨squareOn_eq hM hg, hg.square.mono (by decide)⟩
  exact Machine.repeatOn_eq hstep hf n

theorem shiftMulOn_eq (hf : f.Bounded (2 ^ 54)) (hg : g.Bounded (2 ^ 54)) (k : Nat) :
    shiftMulOn M k f g = some (f.shiftMul k g) ∧ (f.shiftMul k g).Bounded (2 ^ 54) := by
  obtain ⟨hrun, hbound⟩ := squareTimesOn_eq hM hf k
  refine ⟨?_, (hbound.mul hg).mono (by decide)⟩
  rw [shiftMulOn, hrun]
  exact mulOn_eq hM hbound hg

theorem pow9On_eq (hf : f.Bounded (2 ^ 54)) :
    pow9On M f = some f.pow9 ∧ f.pow9.Bounded (2 ^ 54) := by
  obtain ⟨hrun, hbound⟩ := squareTimesOn_eq hM (hf.square.mono (by decide)) 2
  refine ⟨?_, (hf.mul hbound).mono (by decide)⟩
  rw [pow9On, squareOn_eq hM hf, Option.bind_eq_bind, Option.bind_some, hrun]
  exact mulOn_eq hM hf hbound

/-- The part that the chains of the inverse and of the root have in common. -/
theorem onesRunOn_eq (hf : f.Bounded (2 ^ 54)) :
    onesRunOn M f = some f.onesRun ∧ f.onesRun.Bounded (2 ^ 54) := by
  obtain ⟨e10, b10⟩ := shiftMulOn_eq hM hf hf 5
  obtain ⟨e20, b20⟩ := shiftMulOn_eq hM b10 b10 10
  obtain ⟨e40, b40⟩ := shiftMulOn_eq hM b20 b20 20
  obtain ⟨e50, b50⟩ := shiftMulOn_eq hM b40 b10 10
  obtain ⟨e100, b100⟩ := shiftMulOn_eq hM b50 b50 50
  obtain ⟨e200, b200⟩ := shiftMulOn_eq hM b100 b100 100
  obtain ⟨e250, b250⟩ := shiftMulOn_eq hM b200 b50 50
  refine ⟨?_, b250⟩
  simp only [onesRunOn, e10, e20, e40, e50, e100, e200, e250, Option.bind_eq_bind,
    Option.bind_some]
  rfl

/-- The powers eleven and thirty-one, which start the common part. -/
theorem firstPowersOn_eq (hf : f.Bounded (2 ^ 54)) :
    firstPowersOn M f =
        some (f.square * f.pow9, f.pow9 * (f.square * f.pow9).square) ∧
      (f.square * f.pow9).Bounded (2 ^ 54) ∧
      (f.pow9 * (f.square * f.pow9).square).Bounded (2 ^ 54) := by
  obtain ⟨e9, b9⟩ := pow9On_eq hM hf
  have esquare := squareOn_eq hM hf
  have e11 := mulOn_eq hM hf.square b9
  have b11 := hf.square.mul b9
  have esquare11 := squareOn_eq hM b11
  have e31 := mulOn_eq hM b9 b11.square
  refine ⟨?_, b11.mono (by decide), (b9.mul b11.square).mono (by decide)⟩
  simp only [firstPowersOn, e9, esquare, e11, esquare11, e31, Option.bind_eq_bind,
    Option.bind_some]
  rfl

/-- The inverse takes products only, so it runs for limbs up to 54 bits. -/
theorem inverseOn_eq (hf : f.Bounded b) (hb : b ≤ 2 ^ 54 := by decide) :
    inverseOn M f = some f.inverse := by
  obtain ⟨efirst, b11, b31⟩ := firstPowersOn_eq hM (hf.mono hb)
  obtain ⟨eones, bones⟩ := onesRunOn_eq hM b31
  simp only [inverseOn, efirst, eones, Option.bind_eq_bind, Option.bind_some]
  exact (shiftMulOn_eq hM bones b11 5).1

omit hM in
/-- An element past the bound does not get through its first square. -/
example : inverseOn .stopping ⟨2 ^ 55, 2 ^ 55, 2 ^ 55, 2 ^ 55, 2 ^ 55⟩ = none := by
  decide +kernel

/-- The root power takes products only, so it runs for limbs up to 54 bits. -/
theorem rootPowerOn_eq (hf : f.Bounded b) (hb : b ≤ 2 ^ 54 := by decide) :
    rootPowerOn M f = some f.rootPower := by
  obtain ⟨efirst, -, b31⟩ := firstPowersOn_eq hM (hf.mono hb)
  obtain ⟨eones, bones⟩ := onesRunOn_eq hM b31
  simp only [rootPowerOn, efirst, eones, Option.bind_eq_bind, Option.bind_some]
  exact (shiftMulOn_eq hM bones (hf.mono hb) 2).1

omit hM in
/-- The root power is carried, as every product is. -/
theorem Bounded.rootPower (hf : f.Bounded b) (hb : b ≤ 2 ^ 54 := by decide) :
    f.rootPower.Bounded (2 ^ 51 + 2 ^ 13) :=
  (hf.denotes.rootPower hb).bounded

omit hM in
theorem Bounded.inverse (hf : f.Bounded b) (hb : b ≤ 2 ^ 54 := by decide) :
    f.inverse.Bounded (2 ^ 51 + 2 ^ 13) :=
  (hf.denotes.inverse hb).bounded

theorem rootCandidateOn_eq (hu : u.Bounded (2 ^ 52)) (hv : v.Bounded (2 ^ 53)) :
    rootCandidateOn M u v = some (rootCandidate u v) ∧
      (rootCandidate u v).Bounded (2 ^ 52) := by
  have b3 := hv.square.mul hv
  have b7 := b3.square.mul hv
  have bpower := (hu.mul b7).rootPower
  have e2 := squareOn_eq hM hv
  have e3 := mulOn_eq hM hv.square hv
  have e6 := squareOn_eq hM b3
  have e7 := mulOn_eq hM b3.square hv
  have eu7 := mulOn_eq hM hu b7
  have epower := rootPowerOn_eq hM (hu.mul b7)
  have eu3 := mulOn_eq hM hu b3
  have elast := mulOn_eq hM bpower (hu.mul b3)
  refine ⟨?_, (bpower.mul (hu.mul b3)).mono (by decide)⟩
  simp only [rootCandidateOn, e2, e3, e6, e7, eu7, epower, eu3, elast, Option.bind_eq_bind,
    Option.bind_some]
  rfl

/-- The candidate or its negative, as its lowest bit says. -/
theorem evenRootOn_eq (hf : f.Bounded (2 ^ 52)) :
    evenRootOn M f = some (f.negateIf f.isNegative) := by
  rw [evenRootOn, isNegativeOn_eq hM hf]
  exact negateIfOn_eq hM hf _

/-- The whole root of a ratio, with its four tests. -/
theorem sqrtRatioOn_eq (hu : u.Bounded (2 ^ 52)) (hv : v.Bounded (2 ^ 53)) :
    sqrtRatioOn M u v = some (sqrtRatio? u v) := by
  have bminusOne : sqrtMinusOne.Bounded (2 ^ 51) := by decide
  obtain ⟨er, br⟩ := rootCandidateOn_eq hM hu hv
  have esquare := squareOn_eq hM br
  have bcheck := br.square.mul hv
  have echeck := mulOn_eq hM br.square hv
  have eneg := negOn_eq hM hu
  have ecorrect := sameOn_eq hM bcheck hu
  have eflipped := sameOn_eq hM bcheck hu.neg
  have eminus := mulOn_eq hM hu.neg bminusOne
  have etwist := sameOn_eq hM bcheck (hu.neg.mul bminusOne)
  have btwisted := br.mul bminusOne
  have etwisted := mulOn_eq hM br bminusOne
  have enonzero := isNonzeroOn_eq hM hv
  have eroot := fun bit => evenRootOn_eq hM (br.select (btwisted.mono (by decide)) bit)
  simp only [sqrtRatioOn, er, esquare, echeck, eneg, ecorrect, eflipped, eminus, etwist, etwisted,
    eroot, enonzero, Option.bind_eq_bind, Option.bind_some]
  rfl

end Laws

/-- A power that is the inverse, in numbers. -/
theorem toNat_inverse_mul_mod {f : FieldElement} (hf : f.Bounded (2 ^ 54)) :
    (f.toNat % fieldOrder ≠ 0 → f.inverse.toNat * f.toNat % fieldOrder = 1) ∧
      (f.toNat % fieldOrder = 0 → f.inverse.toNat % fieldOrder = 0) := by
  have hinverse : f.inverse.residue = f.residue⁻¹ := hf.denotes.inverse.residue_eq
  constructor
  · intro hne
    have hone : f.inverse.residue * f.residue = (1 : Nat) := by
      rw [hinverse, inv_mul_cancel₀ (mt residue_eq_zero_iff.mp hne), Nat.cast_one]
    rw [residue, residue, ← Nat.cast_mul, ZMod.natCast_eq_natCast_iff'] at hone
    exact hone
  · intro heq
    rw [residue_eq_zero_iff.mpr heq, inv_zero] at hinverse
    exact residue_eq_zero_iff.mp hinverse

/-- **Fixed powers.**  For limbs below `2 ^ 54` both chains lose nothing on the way and reach the
exponents that they are built for.  The first power is therefore the inverse of every number that
the prime does not divide, and stands for zero on those that it divides. -/
theorem powers_exact {f : FieldElement} (hf : f.Bounded (2 ^ 54)) :
    inverseOn .stopping f = some f.inverse ∧ rootPowerOn .stopping f = some f.rootPower ∧
      f.inverse.residue = f.residue ^ (fieldOrder - 2) ∧
      f.rootPower.residue = f.residue ^ ((fieldOrder - 5) / 8) ∧
      (f.toNat % fieldOrder ≠ 0 → f.inverse.toNat * f.toNat % fieldOrder = 1) ∧
      (f.toNat % fieldOrder = 0 → f.inverse.toNat % fieldOrder = 0) :=
  ⟨inverseOn_eq Machine.stopping_faithful hf, rootPowerOn_eq Machine.stopping_faithful hf,
    hf.denotes.inverse_pow.residue_eq, hf.denotes.rootPower.residue_eq,
    toNat_inverse_mul_mod hf⟩

/-- Four primes stand for zero, and so does their inverse; the largest limbs have one. -/
theorem powers_exact_fourPrimes :
    let largest : FieldElement := ⟨0x3fffffffffffff, 0x3fffffffffffff, 0x3fffffffffffff,
      0x3fffffffffffff, 0x3fffffffffffff⟩
    fourPrimes.Bounded (2 ^ 54) ∧ fourPrimes.toNat % fieldOrder = 0 ∧
      fourPrimes.inverse.toNat % fieldOrder = 0 ∧ largest.Bounded (2 ^ 54) ∧
      largest.toNat % fieldOrder ≠ 0 ∧ largest.inverse.toNat * largest.toNat % fieldOrder = 1 ∧
      largest.rootPower.residue = largest.residue ^ ((fieldOrder - 5) / 8) := by
  intro largest
  have hprimes : fourPrimes.Bounded (2 ^ 54) := by decide
  have hlargest : largest.Bounded (2 ^ 54) := by decide
  have hdivides : fourPrimes.toNat % fieldOrder = 0 := by decide +kernel
  have hcoprime : largest.toNat % fieldOrder ≠ 0 := by decide +kernel
  obtain ⟨-, -, -, -, -, hzero⟩ := powers_exact hprimes
  obtain ⟨-, -, -, hroot, hone, -⟩ := powers_exact hlargest
  exact ⟨hprimes, hdivides, hzero hdivides, hlargest, hcoprime, hone hcoprime, hroot⟩

end FieldElement

end TwistedEdwards
