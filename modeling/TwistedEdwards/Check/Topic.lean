import TwistedEdwards.Check.Batches

/-!
# The sections of the property test

The property test has eleven sections.  Each draws from a generator of its own,
seeded with the seed of the run plus the number of the section, so a section can
be run alone and gives the same checks.
-/

namespace TwistedEdwards

/-- What a section is about. -/
inductive Topic where
  | fieldArithmetic
  | sqrtRatio
  | scalarArithmetic
  | digitExpansions
  | pointArithmetic
  | serialization
  | multiples
  | randomBatches
  | threshold
  | sparseBatches
  | optionalBatches
deriving DecidableEq

namespace Topic

/-- All sections, in the order of a run. -/
def all : List Topic :=
  [fieldArithmetic, sqrtRatio, scalarArithmetic, digitExpansions, pointArithmetic,
    serialization, multiples, randomBatches, threshold, sparseBatches, optionalBatches]

/-- The number added to the seed. -/
def number : Topic → UInt64
  | fieldArithmetic => 1
  | sqrtRatio => 2
  | scalarArithmetic => 3
  | digitExpansions => 4
  | pointArithmetic => 5
  | serialization => 6
  | multiples => 7
  | randomBatches => 8
  | threshold => 9
  | sparseBatches => 10
  | optionalBatches => 11

def title : Topic → String
  | fieldArithmetic => "Field Arithmetic"
  | sqrtRatio => "sqrt_ratio"
  | scalarArithmetic => "Scalar Arithmetic"
  | digitExpansions => "Digit Expansions"
  | pointArithmetic => "Point Arithmetic"
  | serialization => "Serialization Roundtrip"
  | multiples => "ScalarMul Consistency"
  | randomBatches => "MSM Random"
  | threshold => "MSM Dispatch Threshold"
  | sparseBatches => "MSM Sparse"
  | optionalBatches => "Optional MSM Contract"

/-- The checks of a section. -/
def checks : Topic → Generator.Draw (List Check)
  | fieldArithmetic => trials 200 FieldElement.trial
  | sqrtRatio => trials 200 FieldElement.rootTrial
  | scalarArithmetic => trials 250 Scalar.trial
  | digitExpansions => trials 100 Scalar.digitTrial
  | pointArithmetic => trials 200 Point.trial
  | serialization => do
    let codec ← trials 200 Point.codecTrial
    let strings ← Point.stringTrials 500
    return codec ++ strings
  | multiples => trials 150 Point.multipleTrial
  | randomBatches => Batch.randomTrials
  | threshold => Batch.thresholdTrials
  | sparseBatches => Batch.sparseTrials
  | optionalBatches => Batch.optionalTrials

/-- The section of a run with the given seed. -/
def run (topic : Topic) (seed : UInt64) : Section :=
  ⟨topic.title, ((topic.checks).run (Generator.ofSeed (seed + topic.number))).1⟩

end Topic

end TwistedEdwards
