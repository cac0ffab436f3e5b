import TwistedEdwards.Program.Field
import TwistedEdwards.Proofs.Exact.Power
import TwistedEdwards.Proofs.Program.Registers

/-!
# Field programs as residues

A program on limbs does what the same program does on residues, although nothing is
reduced between its steps.  Two bounds carry the whole run: a carried result is tight, a
sum of tight elements is loose, and loose operands suit every step but a sum.  A program
that adds tight elements only therefore never runs out of its words, however long it is.
After each step the target holds the value that was computed, and every other register holds
what it held.

Main statement: `FieldStep.runs_refine`.
-/

namespace TwistedEdwards

namespace FieldElement

/-- The bound of what was carried. -/
def Tight (f : FieldElement) : Prop := f.Bounded (2 ^ 51 + 2 ^ 14)

/-- The bound of a sum of two tight elements. -/
def Loose (f : FieldElement) : Prop := f.Bounded (2 ^ 52 + 2 ^ 15)

/-- What was carried is within the bound of a sum. -/
theorem Tight.loose {f : FieldElement} (hf : f.Tight) : f.Loose := hf.mono (by decide)

/-- Loose limbs that stand for the residue. -/
def Stands (f : FieldElement) (x : ZMod fieldOrder) : Prop := Denotes (2 ^ 52 + 2 ^ 15) f x

/-- What is read from a string has every limb below the radix. -/
theorem tight_ofOctets (bs : Octets 32) : (ofOctets bs).Tight :=
  (bounded_ofWord256 _).mono (by decide)

end FieldElement

open FieldElement

/-- The limbs that an operation leaves: sums and doubled squares are loose, carried results are
tight, and what is copied may be either. -/
def FieldOperation.Leaves (operation : FieldOperation) (f : FieldElement) : Prop :=
  match operation with
  | .add _ _ | .doubleSquare _ | .copy _ | .select _ _ | .negateIf _ _ => f.Loose
  | .sub _ _ | .mul _ _ | .neg _ | .square _ | .inverse _ | .rootPower _ => f.Tight

namespace FieldStep

/-- Both operands of a sum are tight; every other step takes what it finds. -/
def SummandsTight (s : FieldStep) (regs : Registers FieldElement) : Prop :=
  match s.operation with
  | .add a b => (regs.read a).Tight ∧ (regs.read b).Tight
  | _ => True

/-- Along the whole run, whatever is added is tight. -/
def SumsTight : Registers FieldElement → List FieldStep → Prop
  | _, [] => True
  | regs, s :: rest => s.SummandsTight regs ∧ SumsTight (s.run regs).2 rest

/-- The value that a step computes from residues. -/
def residue (s : FieldStep) (values : Registers (ZMod fieldOrder)) : ZMod fieldOrder :=
  match s.operation with
  | .add a b => values.read a + values.read b
  | .sub a b => values.read a - values.read b
  | .mul a b => values.read a * values.read b
  | .neg a => -values.read a
  | .square a => values.read a ^ 2
  | .doubleSquare a => 2 * values.read a ^ 2
  | .inverse a => (values.read a)⁻¹
  | .rootPower a => values.read a ^ ((fieldOrder - 5) / 8)
  | .copy a => values.read a
  | .select a bit => if bit then values.read a else values.read s.target
  | .negateIf a bit => if bit then -values.read a else values.read a

/-- The step on residues. -/
def evaluate (s : FieldStep) (values : Registers (ZMod fieldOrder)) :
    ZMod fieldOrder × Registers (ZMod fieldOrder) :=
  let x := s.residue values
  (x, values.write s.target x)

/-- The residue that each step computes. -/
def evaluateAll (values : Registers (ZMod fieldOrder)) (steps : List FieldStep) :
    List (ZMod fieldOrder) :=
  values.trace evaluate steps

section OnMachine

variable (M : Machine)

/-- The value that a step computes on the machine. -/
def resultOn (s : FieldStep) (regs : Registers FieldElement) : Option FieldElement :=
  match s.operation with
  | .add a b => addOn M (regs.read a) (regs.read b)
  | .sub a b => subOn M (regs.read a) (regs.read b)
  | .mul a b => mulOn M (regs.read a) (regs.read b)
  | .neg a => negOn M (regs.read a)
  | .square a => squareOn M (regs.read a)
  | .doubleSquare a => doubleSquareOn M (regs.read a)
  | .inverse a => inverseOn M (regs.read a)
  | .rootPower a => rootPowerOn M (regs.read a)
  | .copy a => some (regs.read a)
  | .select a bit => some ((regs.read s.target).select (regs.read a) bit)
  | .negateIf a bit => negateIfOn M (regs.read a) bit

/-- Computes the value, unless the machine stops, and writes it. -/
def runOn (s : FieldStep) (regs : Registers FieldElement) :
    Option (FieldElement × Registers FieldElement) := do
  let x ← s.resultOn M regs
  return (x, regs.write s.target x)

/-- The value that each step computes, if the machine runs to the end. -/
def runAllOn (regs : Registers FieldElement) (steps : List FieldStep) :
    Option (List FieldElement) :=
  regs.traceOn (runOn M) steps

end OnMachine

variable {regs : Registers FieldElement} {values : Registers (ZMod fieldOrder)} {s : FieldStep}
  {steps : List FieldStep}

/-- One step, constructor by constructor: it computes the residue, and leaves what it promises. -/
theorem result_denotes (h : regs.Related Stands values) (hs : s.SummandsTight regs) :
    Stands (s.result regs) (s.residue values) ∧ s.operation.Leaves (s.result regs) := by
  obtain ⟨target, operation⟩ := s
  cases operation with
  | add a b =>
    have hsum := (hs.1.denotes.of_eq (h.read a).residue_eq).add
      (hs.2.denotes.of_eq (h.read b).residue_eq)
    exact ⟨hsum.mono, hsum.mono.bounded⟩
  | sub a b =>
    have hdiff := (h.read a).sub (h.read b)
    exact ⟨hdiff.mono, hdiff.mono.bounded⟩
  | mul a b =>
    have hprod := (h.read a).mul (h.read b)
    exact ⟨hprod.mono, hprod.mono.bounded⟩
  | neg a =>
    have hneg := (h.read a).neg
    exact ⟨hneg.mono, hneg.mono.bounded⟩
  | square a =>
    have hsquare := (h.read a).square
    exact ⟨hsquare.mono, hsquare.mono.bounded⟩
  | doubleSquare a =>
    have htwice := (h.read a).doubleSquare
    exact ⟨htwice.mono, htwice.mono.bounded⟩
  | inverse a =>
    have hinverse := (h.read a).inverse
    exact ⟨hinverse.mono, hinverse.mono.bounded⟩
  | rootPower a =>
    have hpower := (h.read a).rootPower
    exact ⟨hpower.mono, hpower.mono.bounded⟩
  | copy a => exact ⟨h.read a, (h.read a).bounded⟩
  | select a bit =>
    have hchosen := (h.read target).select (h.read a) bit
    exact ⟨hchosen, hchosen.bounded⟩
  | negateIf a bit =>
    have hsigned : Stands ((regs.read a).negateIf bit)
        (if bit then -values.read a else values.read a) := by
      cases bit with
      | false => exact h.read a
      | true => exact (h.read a).neg.mono
    exact ⟨hsigned, hsigned.bounded⟩

/-- No operation of a step loses anything. -/
theorem resultOn_eq {M : Machine} (hM : M.Faithful) (h : regs.Related Stands values)
    (hs : s.SummandsTight regs) : s.resultOn M regs = some (s.result regs) := by
  obtain ⟨target, operation⟩ := s
  cases operation with
  | add a b => exact addOn_eq hM hs.1 hs.2 (by decide) (by decide)
  | sub a b => exact subOn_eq hM (h.read a).bounded (h.read b).bounded (by decide) (by decide)
  | mul a b => exact mulOn_eq hM (h.read a).bounded (h.read b).bounded (by decide) (by decide)
  | neg a => exact negOn_eq hM (h.read a).bounded (by decide)
  | square a => exact squareOn_eq hM (h.read a).bounded (by decide)
  | doubleSquare a => exact doubleSquareOn_eq hM (h.read a).bounded (by decide)
  | inverse a => exact inverseOn_eq hM (h.read a).bounded (by decide)
  | rootPower a => exact rootPowerOn_eq hM (h.read a).bounded (by decide)
  | copy a => rfl
  | select a bit => rfl
  | negateIf a bit => exact negateIfOn_eq hM (h.read a).bounded bit (by decide)

/-- A step keeps limbs and residues side by side. -/
theorem run_related (h : regs.Related Stands values) (hs : s.SummandsTight regs) :
    (s.run regs).2.Related Stands (s.evaluate values).2 :=
  h.write (result_denotes h hs).1 s.target

/-- A run on limbs and the run on residues go side by side. -/
theorem runAll_refines (h : regs.Related Stands values) (hsums : SumsTight regs steps) :
    (runAll regs steps).map FieldElement.residue = evaluateAll values steps ∧
      List.Forall₂ (fun s f => s.operation.Leaves f) steps (runAll regs steps) := by
  induction steps generalizing regs values with
  | nil => exact ⟨rfl, .nil⟩
  | cons s rest ih =>
    obtain ⟨hs, hrest⟩ := hsums
    obtain ⟨hstands, hleaves⟩ := result_denotes h hs
    obtain ⟨hmap, hall⟩ := ih (run_related h hs) hrest
    refine ⟨?_, .cons hleaves hall⟩
    change (s.result regs).residue :: (runAll (s.run regs).2 rest).map FieldElement.residue =
      s.residue values :: evaluateAll (s.evaluate values).2 rest
    rw [hmap, hstands.residue_eq]

/-- A run keeps the size of the file. -/
theorem size_after (regs : Registers FieldElement) (steps : List FieldStep) :
    (Registers.after run regs steps).size = regs.size := by
  have hstep : ∀ (s : FieldStep) (now : Registers FieldElement), now.size = regs.size →
      (s.run now).2.size = regs.size :=
    fun s now hnow => (Registers.size_write now s.target _).trans hnow
  exact Registers.kept_after hstep rfl steps

/-- After a part of the run the registers stand for what the same part leaves on residues, and
whatever the rest of the run adds is tight. -/
theorem after_refines {early late : List FieldStep} (h : regs.Related Stands values)
    (hsums : SumsTight regs (early ++ late)) :
    (Registers.after run regs early).Related Stands (Registers.after evaluate values early) ∧
      SumsTight (Registers.after run regs early) late := by
  induction early generalizing regs values with
  | nil => exact ⟨h, hsums⟩
  | cons s rest ih =>
    obtain ⟨hs, hrest⟩ := hsums
    exact ih (run_related h hs) hrest

/-- The target of a step holds what the step computes, limbs and residue, and the other registers
are kept. -/
theorem after_concat_refines {early : List FieldStep} (h : regs.Related Stands values)
    (hsums : SumsTight regs (early ++ s :: steps)) :
    let before := Registers.after run regs early
    let after := Registers.after run regs (early ++ [s])
    before.Sets s.target (s.result before) after ∧
      (s.target < regs.size →
        (after.read s.target).residue = s.residue (before.map FieldElement.residue) ∧
          s.operation.Leaves (after.read s.target)) := by
  intro before after
  obtain ⟨hbefore, hs, -⟩ := after_refines h hsums
  have hsize : before.size = regs.size := size_after regs early
  have hsets : before.Sets s.target (s.result before) after := by
    have hafter : after = before.write s.target (s.result before) :=
      Registers.after_concat run regs early s
    rw [hafter]
    exact before.sets_write s.target (s.result before)
  refine ⟨hsets, fun htarget => ?_⟩
  obtain ⟨hstands, hleaves⟩ := result_denotes hbefore hs
  rw [hsets.target_eq (hsize ▸ htarget), hbefore.map_eq Denotes.residue_eq]
  exact ⟨hstands.residue_eq, hleaves⟩

/-- Every register stands for a residue, and what the steps left add is tight. -/
def Runnable (regs : Registers FieldElement) (steps : List FieldStep) : Prop :=
  (∃ values, regs.Related Stands values) ∧ SumsTight regs steps

/-- A program runs to its end on every faithful machine. -/
theorem runAllOn_eq {M : Machine} (hM : M.Faithful) (h : Runnable regs steps) :
    runAllOn M regs steps = some (runAll regs steps) := by
  have hstep : ∀ s rest regs, Runnable regs (s :: rest) →
      s.runOn M regs = some (s.run regs) ∧ Runnable (s.run regs).2 rest := by
    rintro s rest regs ⟨⟨values, h⟩, hs, hrest⟩
    refine ⟨?_, ⟨_, run_related h hs⟩, hrest⟩
    rw [runOn, resultOn_eq hM h hs]
    rfl
  exact Registers.traceOn_eq hstep h

/-- Registers that were read from strings stand for their residues. -/
theorem related_of_ofOctets (hstart : ∀ f ∈ regs, ∃ bs, f = ofOctets bs) :
    regs.Related Stands (regs.map FieldElement.residue) := by
  refine Registers.Related.of_map ?_ zero_denotes.mono
  intro f hf
  obtain ⟨bs, rfl⟩ := hstart f hf
  exact (tight_ofOctets bs).loose.denotes

/-- **Limbs refine residues over whole programs.**  From registers that were read from strings, a
program that adds tight elements only computes in every step the residue that the same step
computes from residues, leaves limbs within the bound of its operation, and runs to its end also
on the machine that stops where a number does not fit its word.

Whatever part of the run is done, the registers hold the residues that the same part leaves on
residues; and the next step leaves what it computes in its target, with that residue and within
that bound, and keeps every other register. -/
theorem runs_refine (hstart : ∀ f ∈ regs, ∃ bs, f = ofOctets bs) (hsums : SumsTight regs steps) :
    (runAll regs steps).map FieldElement.residue =
        evaluateAll (regs.map FieldElement.residue) steps ∧
      List.Forall₂ (fun s f => s.operation.Leaves f) steps (runAll regs steps) ∧
      runAllOn .wrapping regs steps = some (runAll regs steps) ∧
      runAllOn .stopping regs steps = some (runAll regs steps) ∧
      (∀ early late, steps = early ++ late →
        (Registers.after run regs early).map FieldElement.residue =
          Registers.after evaluate (regs.map FieldElement.residue) early) ∧
      ∀ early s late, steps = early ++ s :: late →
        let before := Registers.after run regs early
        let after := Registers.after run regs (early ++ [s])
        before.Sets s.target (s.result before) after ∧
          (s.target < regs.size →
            (after.read s.target).residue = s.residue (before.map FieldElement.residue) ∧
              s.operation.Leaves (after.read s.target)) := by
  have hrelated := related_of_ofOctets hstart
  obtain ⟨hresidues, hleaves⟩ := runAll_refines hrelated hsums
  have hrun : Runnable regs steps := ⟨⟨_, hrelated⟩, hsums⟩
  refine ⟨hresidues, hleaves, runAllOn_eq Machine.wrapping_faithful hrun,
    runAllOn_eq Machine.stopping_faithful hrun, ?_, ?_⟩
  · rintro early late rfl
    exact (after_refines hrelated hsums).1.map_eq Denotes.residue_eq
  · rintro early s late rfl
    exact after_concat_refines hrelated hsums

/-- A sum of two strings, its square less the sum, and the inverse of that, which is in register
zero in the end. -/
theorem runs_refine_sum :
    let regs := #[ofOctets (.replicate 32 255), ofOctets (.replicate 32 7)]
    let steps : List FieldStep := [⟨0, .add 0 1⟩, ⟨1, .square 0⟩, ⟨1, .sub 1 0⟩, ⟨0, .inverse 1⟩]
    SumsTight regs steps ∧
      (runAll regs steps).map FieldElement.residue =
        evaluateAll (regs.map FieldElement.residue) steps ∧
      runAllOn .stopping regs steps = some (runAll regs steps) ∧
      ((Registers.after run regs steps).read 0).residue =
        (Registers.read
          ((Registers.after run regs (steps.take 3)).map FieldElement.residue) 1)⁻¹ := by
  intro regs steps
  have hstart : ∀ f ∈ regs, ∃ bs, f = ofOctets bs := by
    intro f hf
    rcases List.mem_cons.mp (Array.mem_toList_iff.mpr hf) with rfl | hf
    · exact ⟨_, rfl⟩
    · exact ⟨_, List.mem_singleton.mp hf⟩
  have hsums : SumsTight regs steps :=
    ⟨⟨tight_ofOctets _, tight_ofOctets _⟩, trivial, trivial, trivial, trivial⟩
  obtain ⟨hresidues, -, -, hexact, -, hset⟩ := runs_refine hstart hsums
  obtain ⟨-, hlast⟩ := hset (steps.take 3) ⟨0, .inverse 1⟩ [] rfl
  exact ⟨hsums, hresidues, hexact, (hlast (by decide)).1⟩

end FieldStep

end TwistedEdwards
