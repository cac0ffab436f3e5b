import TwistedEdwards.Program.Scalar
import TwistedEdwards.Proofs.Program.Registers
import TwistedEdwards.Proofs.Scalar.Inverse
import TwistedEdwards.Proofs.Scalar.Octets
import TwistedEdwards.Proofs.Scalar.Reading

/-!
# Scalar programs as residues

Every operation on scalars returns a reduced scalar, so a program that begins with reduced
scalars never holds another, however long it is, and what it computes is what the same program
computes in the residues modulo the order.  It refuses what the residues refuse, and the tests,
which compare limbs, answer what the residues answer.  A step that sets a register leaves its
answer there; a refusal and a test change nothing.

Main statements: `ScalarOperation.value?_denotes`, `ScalarStep.run_leaves` and
`ScalarStep.runs_denote`.
-/

namespace TwistedEdwards

open LittleEndian (value)

/-- The residue that an operation computes from residues, none if it refuses its operand. -/
def ScalarOperation.residue? (values : Registers (ZMod groupOrder)) :
    ScalarOperation → Option (ZMod groupOrder)
  | zero => some 0
  | one => some 1
  | word w => some w.toNat
  | add a b => some (values.read a + values.read b)
  | sub a b => some (values.read a - values.read b)
  | mul a b => some (values.read a * values.read b)
  | neg a => some (-values.read a)
  | square a => some (values.read a ^ 2)
  | inverse a => if values.read a = 0 then none else some (values.read a)⁻¹
  | octets bs => some (value bs.toList)
  | canonical bs => if value bs.toList < groupOrder then some (value bs.toList) else none
  | wide bs => some (value bs.toList)

/-- The test on residues. -/
def ScalarTest.residuesHold (values : Registers (ZMod groupOrder)) : ScalarTest → Bool
  | equal a b => values.read a = values.read b
  | notEqual a b => values.read a ≠ values.read b
  | isZero a => values.read a = 0

/-- What a step answers on residues. -/
inductive ResidueAnswer where
  | value (x : ZMod groupOrder)
  | refused
  | truth (holds : Bool)

/-- The answer, with the residue of the scalar. -/
def ScalarAnswer.residue : ScalarAnswer → ResidueAnswer
  | value s => .value s.residue
  | refused => .refused
  | truth holds => .truth holds

/-- A scalar in an answer is reduced. -/
def ScalarAnswer.Reduced : ScalarAnswer → Prop
  | value s => s.Reduced
  | refused | truth _ => True

namespace ScalarStep

/-- The step on residues. -/
def evaluate (s : ScalarStep) (values : Registers (ZMod groupOrder)) :
    ResidueAnswer × Registers (ZMod groupOrder) :=
  match s with
  | set target operation =>
    match operation.residue? values with
    | some x => (.value x, values.write target x)
    | none => (.refused, values)
  | test question => (.truth (question.residuesHold values), values)

/-- The answer of each step on residues. -/
def evaluateAll (values : Registers (ZMod groupOrder)) (steps : List ScalarStep) :
    List ResidueAnswer :=
  values.trace evaluate steps

end ScalarStep

variable {regs : Registers Scalar} {values : Registers (ZMod groupOrder)}

/-- **One operation**, constructor by constructor: it refuses what residues refuse, and otherwise
its value is reduced and stands for the residue. -/
theorem ScalarOperation.value?_denotes (h : regs.Related Scalar.Denotes values)
    (operation : ScalarOperation) :
    Option.Rel Scalar.Denotes (operation.value? regs) (operation.residue? values) := by
  cases operation with
  | zero => exact .some Scalar.zero_denotes
  | one => exact .some Scalar.one_denotes
  | word w => exact .some (Scalar.ofWord_denotes w)
  | add a b => exact .some ((h.read a).add (h.read b))
  | sub a b => exact .some ((h.read a).sub (h.read b))
  | mul a b => exact .some ((h.read a).mul (h.read b))
  | neg a => exact .some (h.read a).neg
  | square a => exact .some (h.read a).square
  | inverse a =>
    rw [value?, residue?]
    rcases (h.read a).inverse?_eq with ⟨hnone, hzero⟩ | ⟨t, hsome, hne, ht⟩
    · rw [hnone, if_pos hzero]
      exact .none
    · rw [hsome, if_neg hne]
      exact .some ht
  | octets bs => exact .some (Scalar.ofOctets_denotes bs)
  | canonical bs =>
    rw [value?, residue?, Scalar.ofCanonical?_eq]
    split
    · exact .some (Scalar.ofOctets_denotes bs)
    · exact .none
  | wide bs => exact .some (Scalar.ofWide_denotes bs)

/-- Comparing limbs decides what it asks of residues. -/
theorem ScalarTest.holds_eq (h : regs.Related Scalar.Denotes values) (question : ScalarTest) :
    question.holds regs = question.residuesHold values := by
  rw [Bool.eq_iff_iff]
  cases question with
  | equal a b => exact ((h.read a).beq_iff (h.read b)).trans decide_eq_true_iff.symm
  | notEqual a b => exact ((h.read a).bne_iff (h.read b)).trans decide_eq_true_iff.symm
  | isZero a => exact (h.read a).isZero_iff.trans decide_eq_true_iff.symm

namespace ScalarStep

/-- **One step** on scalars and on residues: the answers agree, a scalar that is answered is
reduced, and the registers stay related. -/
theorem run_denotes (s : ScalarStep) (h : regs.Related Scalar.Denotes values) :
    (s.run regs).1.Reduced ∧ (s.run regs).1.residue = (s.evaluate values).1 ∧
      (s.run regs).2.Related Scalar.Denotes (s.evaluate values).2 := by
  cases s with
  | set target operation =>
    have hvalue := operation.value?_denotes h
    unfold run evaluate
    dsimp only
    generalize operation.value? regs = found at hvalue ⊢
    generalize operation.residue? values = expected at hvalue ⊢
    cases hvalue with
    | none => exact ⟨trivial, rfl, h⟩
    | some hx => exact ⟨hx.reduced, congrArg ResidueAnswer.value hx.residue_eq, h.write hx target⟩
  | test question =>
    refine ⟨trivial, ?_, h⟩
    rw [run, evaluate, ← question.holds_eq h]
    rfl

/-- The file that a step leaves: a value that it answers is in its target and every other register
is kept, and where it answers no value the whole file is kept. -/
def Leaves (s : ScalarStep) (before after : Registers Scalar) : Prop :=
  match s, (s.run before).1 with
  | set target _, .value x => before.Sets target x after
  | _, _ => after = before

/-- Every step, refused or not. -/
theorem run_leaves (s : ScalarStep) (regs : Registers Scalar) : s.Leaves regs (s.run regs).2 := by
  cases s with
  | set target operation =>
    simp only [Leaves, run]
    cases operation.value? regs with
    | none => rfl
    | some x => exact regs.sets_write target x
  | test question => rfl

/-- The registers that a run leaves stand for what the run on residues leaves. -/
theorem after_denotes (h : regs.Related Scalar.Denotes values) (steps : List ScalarStep) :
    (Registers.after run regs steps).Related Scalar.Denotes
      (Registers.after evaluate values steps) := by
  have hstep : ∀ (s : ScalarStep) regs values, Registers.Related Scalar.Denotes regs values →
      (s.run regs).2.Related Scalar.Denotes (s.evaluate values).2 :=
    fun s _ _ h => (s.run_denotes h).2.2
  exact h.after hstep steps

/-- Registers with reduced scalars stand for their residues. -/
theorem related_of_reduced (hstart : ∀ s ∈ regs, s.Reduced) :
    regs.Related Scalar.Denotes (regs.map Scalar.residue) :=
  .of_map (fun s hs => (hstart s hs).denotes) Scalar.zero_denotes

/-- **Scalars refine residues over whole programs.**  From reduced registers, every step answers
what it answers on residues, and whatever is answered is reduced.  After every part of the run the
registers hold reduced scalars whose residues are those that the same part leaves on residues;
comparing any two of them decides equality of residues, as comparing with zero does, and the
string that one of them writes is the only one that stands for the least number of its residue.
The next step leaves in its target what it answers, and nothing else changes. -/
theorem runs_denote (hstart : ∀ s ∈ regs, s.Reduced) (steps : List ScalarStep) :
    (runAll regs steps).map ScalarAnswer.residue =
        evaluateAll (regs.map Scalar.residue) steps ∧
      (∀ answer ∈ runAll regs steps, answer.Reduced) ∧
      (∀ early late, steps = early ++ late →
        (Registers.after run regs early).map Scalar.residue =
            Registers.after evaluate (regs.map Scalar.residue) early ∧
          ∀ s ∈ Registers.after run regs early, s.Reduced ∧ (s.isZero = true ↔ s.residue = 0) ∧
            (∀ bs, bs = s.toOctets ↔ value bs.toList = s.residue.val) ∧
            ∀ t ∈ Registers.after run regs early, ((s == t) = true ↔ s.residue = t.residue) ∧
              ((s != t) = true ↔ s.residue ≠ t.residue)) ∧
      ∀ early s late, steps = early ++ s :: late →
        s.Leaves (Registers.after run regs early) (Registers.after run regs (early ++ [s])) := by
  have hrelated := related_of_reduced hstart
  refine ⟨?_, ?_, ?_, ?_⟩
  · have hstep : ∀ (s : ScalarStep) regs values, Registers.Related Scalar.Denotes regs values →
        (s.run regs).1.residue = (s.evaluate values).1 ∧
          (s.run regs).2.Related Scalar.Denotes (s.evaluate values).2 :=
      fun s _ _ h => (s.run_denotes h).2
    exact hrelated.map_trace hstep steps
  · let kept : Registers Scalar → Prop := fun regs => ∃ values, regs.Related Scalar.Denotes values
    have hstep : ∀ (s : ScalarStep) regs, kept regs →
        (s.run regs).1.Reduced ∧ kept (s.run regs).2 := by
      rintro s regs ⟨values, h⟩
      obtain ⟨hanswer, -, hafter⟩ := s.run_denotes h
      exact ⟨hanswer, _, hafter⟩
    exact Registers.forall_mem_trace hstep ⟨_, hrelated⟩ steps
  · intro early _ _
    have hafter := after_denotes hrelated early
    have hreduced : ∀ s ∈ Registers.after run regs early, s.Reduced := by
      intro s hs
      obtain ⟨i, rfl⟩ := Registers.exists_read_of_mem hs
      exact (hafter.read i).reduced
    refine ⟨hafter.map_eq Scalar.Denotes.residue_eq, fun s hs => ?_⟩
    have hdenotes := (hreduced s hs).denotes
    refine ⟨hreduced s hs, hdenotes.isZero_iff, hdenotes.eq_toOctets_iff, fun t ht => ?_⟩
    have hother := (hreduced t ht).denotes
    exact ⟨hdenotes.beq_iff hother, hdenotes.bne_iff hother⟩
  · intro early s _ _
    rw [Registers.after_concat]
    exact s.run_leaves _

/-- One less two, its square, the inverse of that, and whether it is one. -/
theorem runs_denote_minus_one :
    let regs := #[Scalar.one, Scalar.zero]
    let steps : List ScalarStep := [.set 1 (.word 2), .set 1 (.sub 0 1), .set 1 (.square 1),
      .set 1 (.inverse 1), .test (.equal 0 1)]
    (∀ s ∈ regs, s.Reduced) ∧
      (runAll regs steps).map ScalarAnswer.residue =
        evaluateAll (regs.map Scalar.residue) steps ∧
      ∀ s ∈ Registers.after run regs steps, s.Reduced := by
  intro regs steps
  have hstart : ∀ s ∈ regs, s.Reduced := by decide
  obtain ⟨hanswers, -, hheld, -⟩ := runs_denote hstart steps
  exact ⟨hstart, hanswers, fun s hs => ((hheld steps [] (List.append_nil steps).symm).2 s hs).1⟩

end ScalarStep

end TwistedEdwards
