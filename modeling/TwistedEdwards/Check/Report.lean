import TwistedEdwards.Word.Hex

/-!
# Checks and their report

A check has a label and an outcome.  A check that compares two byte strings keeps
both when they differ, so that the report can show them.  A quiet report shows
only the checks that failed.

Main statement: `Tally.run_eq`, every check is counted once, as passed or failed.
-/

namespace TwistedEdwards

inductive Outcome where
  | passed
  | failed
  /-- The strings compared are not the same. -/
  | differs (expected actual : List UInt8)
deriving DecidableEq

/-- A named check with its outcome. -/
structure Check where
  label : String
  outcome : Outcome

namespace Check

/-- The check that a condition holds. -/
def holds (label : String) (condition : Bool) : Check :=
  ⟨label, if condition then .passed else .failed⟩

/-- The check that two byte strings are the same. -/
def sameBytes (label : String) (expected actual : List UInt8) : Check :=
  ⟨label, if expected = actual then .passed else .differs expected actual⟩

def isPassed (c : Check) : Bool := c.outcome == .passed

/-- The lines of a check. -/
def text (quiet : Bool) (c : Check) : String :=
  match c.outcome with
  | .passed => if quiet then "" else "  PASS: " ++ c.label ++ "\n"
  | .failed => "  FAIL: " ++ c.label ++ "\n"
  | .differs expected actual =>
    "  FAIL: " ++ c.label ++ "\n    expected: " ++ Hex.encode expected ++
      "\n    actual:   " ++ Hex.encode actual ++ "\n"

theorem isPassed_holds (label : String) (condition : Bool) :
    (holds label condition).isPassed = condition := by
  cases condition <;> rfl

/-- A comparison passes if the strings are equal. -/
theorem isPassed_sameBytes (label : String) (expected actual : List UInt8) :
    (sameBytes label expected actual).isPassed = decide (expected = actual) := by
  by_cases h : expected = actual <;> simp [sameBytes, isPassed, h]

end Check

/-- How many checks were run, passed and failed. -/
structure Tally where
  run : Nat
  passed : Nat
  failed : Nat

namespace Tally

def empty : Tally := ⟨0, 0, 0⟩

/-- Counts one more check. -/
def record (t : Tally) (c : Check) : Tally :=
  if c.isPassed then ⟨t.run + 1, t.passed + 1, t.failed⟩ else ⟨t.run + 1, t.passed, t.failed + 1⟩

/-- Counts every check. -/
def recordAll (t : Tally) (checks : List Check) : Tally := checks.foldl record t

/-- Each check with the counts after it. -/
def progress : Tally → List Check → List (Check × Tally)
  | _, [] => []
  | t, c :: rest => (c, t.record c) :: progress (t.record c) rest

/-- Every check is counted once, as passed or failed. -/
theorem run_eq (t : Tally) (checks : List Check) (h : t.run = t.passed + t.failed) :
    (t.recordAll checks).run = (t.recordAll checks).passed + (t.recordAll checks).failed := by
  induction checks generalizing t with
  | nil => exact h
  | cons c rest ih =>
    refine ih (t.record c) ?_
    simp only [record]
    split <;> simp only <;> omega

end Tally

/-- A titled list of checks. -/
structure Section where
  title : String
  checks : List Check

namespace Section

/-- The counts of a section. -/
def tally (s : Section) : Tally := Tally.empty.recordAll s.checks

/-- The heading, then the lines of each check. -/
def text (quiet : Bool) (s : Section) : String :=
  "\n=== Fuzz: " ++ s.title ++ " ===\n" ++ String.join (s.checks.map (Check.text quiet))

end Section

end TwistedEdwards
