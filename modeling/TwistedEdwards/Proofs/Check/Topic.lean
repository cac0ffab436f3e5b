import TwistedEdwards.Check.Topic
import TwistedEdwards.Proofs.Check.Arithmetic
import TwistedEdwards.Proofs.Check.Batches

/-!
# No section raises a false alarm

Whatever the seed, every check of a section passes, but for three kinds of check that ask
something of what is drawn: the inverse of a scalar asks that it is not zero, the inequality
of a point and its double asks that the point is not neutral, and one of five hundred random
strings is asked to be a point.  Such a check fails only if what it asks for is missing.

Main statement: `Topic.run_passBut`.
-/

namespace TwistedEdwards

namespace Topic

/-- The generator that a section starts from in a run with the given seed. -/
def generator (topic : Topic) (seed : UInt64) : Generator :=
  Generator.ofSeed (seed + topic.number)

/-- When a check of a section may fail: for an inverse, the first scalar of the trial is zero;
for an equality, the first point of the trial is neutral; and for the strings, none that is drawn
after the points is read as a point. -/
def Excuses (topic : Topic) (seed : UInt64) (check : Check) : Prop :=
  match topic with
  | scalarArithmetic => ∃ i < 250, check.label = "scalar[" ++ toString i ++ "]" ++ " invert" ∧
      (((scalarArithmetic.generator seed).after (trials i Scalar.trial)).drawn Generator.scalar) =
        Scalar.zero
  | pointArithmetic => ∃ i < 200, check.label = "point[" ++ toString i ++ "]" ++ " equality" ∧
      (((pointArithmetic.generator seed).after (trials i Point.trial)).drawn
        Generator.point).isIdentity = true
  | serialization => check.label = "random_bytes some decoded" ∧
      ∀ bs ∈ ((serialization.generator seed).after (trials 200 Point.codecTrial)).drawn
        ((List.range 500).mapM fun _ => Generator.octets32), Point.decode? bs = none
  | _ => False

/-- A run draws the checks of its section. -/
theorem run_checks (topic : Topic) (seed : UInt64) :
    (topic.run seed).checks = (topic.generator seed).drawn topic.checks := rfl

/-- **No section raises a false alarm**, whatever the seed. -/
theorem run_passBut (topic : Topic) (seed : UInt64) :
    ∀ check ∈ (topic.run seed).checks, check.isPassed = true ∨ topic.Excuses seed check := by
  change PassBut (topic.Excuses seed) (topic.run seed).checks
  rw [run_checks, checks.eq_def]
  cases topic with
  | fieldArithmetic => exact .of_allPass (always_trials FieldElement.always_trial _)
  | sqrtRatio => exact .of_allPass (always_trials FieldElement.always_rootTrial _)
  | scalarArithmetic =>
      exact PassBut.trials fun i hi => (Scalar.trial_passBut i _).mono fun _ h => ⟨i, hi, h⟩
  | digitExpansions => exact .of_allPass (always_trials Scalar.always_digitTrial _)
  | pointArithmetic =>
      exact PassBut.trials fun i hi => (Point.trial_passBut i _).mono fun _ h => ⟨i, hi, h⟩
  | serialization =>
      have hcodec : Generator.Always (trials 200 Point.codecTrial) AllPass :=
        always_trials Point.always_codecTrial
      dsimp only
      rw [Generator.drawn_bind, Generator.drawn_bind, Generator.drawn_pure]
      exact .append (.of_allPass (hcodec _)) (Point.stringTrials_passBut 500 _)
  | multiples => exact .of_allPass (always_trials Point.always_multipleTrial _)
  | randomBatches => exact .of_allPass (Batch.always_randomTrials _)
  | threshold => exact .of_allPass (Batch.always_thresholdTrials _)
  | sparseBatches => exact .of_allPass (Batch.always_sparseTrials _)
  | optionalBatches => exact .of_allPass (Batch.always_optionalTrials _)

/-- The last check of the strings is one of them. -/
theorem run_passBut_serialization :
    ∃ check ∈ (serialization.run 0).checks, check.label = "random_bytes some decoded" ∧
      (check.isPassed = true ∨ serialization.Excuses 0 check) := by
  obtain ⟨check, hcheck, hlabel⟩ := Point.exists_mem_stringTrials 500
    ((serialization.generator 0).after (trials 200 Point.codecTrial))
  have hmem : check ∈ (serialization.run 0).checks := by
    rw [run_checks, checks.eq_def]
    dsimp only
    rw [Generator.drawn_bind, Generator.drawn_bind, Generator.drawn_pure]
    exact List.mem_append_right _ hcheck
  exact ⟨check, hmem, hlabel, run_passBut serialization 0 check hmem⟩

end Topic

end TwistedEdwards
