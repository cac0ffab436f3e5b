/-!
# Register files

Sequences of operations run on a file of numbered registers, one answer a step.
A register outside the file reads as the default value, and a write outside the
file has no effect.

Main statements: `Registers.read_write_self`, `Registers.read_write_ne`,
`Registers.size_write`, and `Registers.forall_mem_trace`, what every step keeps and grants
holds along a whole run.
-/

namespace TwistedEdwards

/-- Registers numbered from zero. -/
abbrev Registers (α : Type) := Array α

namespace Registers

/-- The content of register `i`. -/
def read {α : Type} [Inhabited α] (regs : Registers α) (i : Nat) : α := regs.getD i default

/-- The file with `x` in register `i`. -/
def write {α : Type} (regs : Registers α) (i : Nat) (x : α) : Registers α :=
  regs.setIfInBounds i x

/-- Runs the steps in order and keeps what each of them answers. -/
def trace {α σ β : Type} (step : σ → Registers α → β × Registers α) :
    Registers α → List σ → List β
  | _, [] => []
  | regs, s :: rest =>
    let (answer, regs) := step s regs
    answer :: trace step regs rest

theorem size_write {α : Type} (regs : Registers α) (i : Nat) (x : α) :
    (regs.write i x).size = regs.size := by
  simp [write]

/-- What is written to a register of the file is read back. -/
theorem read_write_self {α : Type} [Inhabited α] {regs : Registers α} {i : Nat} (x : α)
    (hi : i < regs.size) :
    (regs.write i x).read i = x := by
  simp [read, write, Array.getD, hi]

/-- A write to one register keeps the others. -/
theorem read_write_ne {α : Type} [Inhabited α] {regs : Registers α} {i j : Nat} (x : α)
    (hij : i ≠ j) :
    (regs.write i x).read j = regs.read j := by
  simp only [read, write, Array.getD_eq_getD_getElem?, Array.getElem?_setIfInBounds_ne hij]

/-- What every step keeps of the file and grants of its answer holds along a whole run. -/
theorem forall_mem_trace {α σ β : Type} {step : σ → Registers α → β × Registers α}
    {kept : Registers α → Prop} {granted : β → Prop}
    (hstep : ∀ s regs, kept regs → granted (step s regs).1 ∧ kept (step s regs).2)
    {regs : Registers α} (hregs : kept regs) (steps : List σ) :
    ∀ answer ∈ trace step regs steps, granted answer := by
  induction steps generalizing regs with
  | nil =>
    intro answer hmem
    cases hmem
  | cons s rest ih =>
    intro answer hmem
    obtain ⟨hanswer, hafter⟩ := hstep s regs hregs
    rcases List.mem_cons.mp hmem with rfl | hlater
    · exact hanswer
    · exact ih hafter answer hlater

end Registers

end TwistedEdwards
