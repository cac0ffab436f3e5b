import TwistedEdwards.Program.Registers
import TwistedEdwards.Proofs.Exact.Machine

/-!
# Runs of register programs

What is known of every register before a step and of the value that the step writes is
known of every register after it.  `Registers.Related` keeps two files side by side, such
as limbs and the residues that they stand for, and `Registers.after` is the file that a
list of steps leaves.  A step that answers a value leaves it in its target and nothing
else changes (`Registers.Sets`).  A program runs on a machine when each of its steps does.

Main statements: `Registers.sets_write`, `Registers.Related.write`,
`Registers.Related.map_trace`, `Registers.kept_after` and `Registers.traceOn_eq`.
-/

namespace TwistedEdwards

namespace Registers

variable {α β σ γ δ : Type}

/-- Two files of one size whose registers are related one by one; those outside the files are
related too. -/
structure Related [Inhabited α] [Inhabited β] (R : α → β → Prop) (regs : Registers α)
    (values : Registers β) : Prop where
  size_eq : regs.size = values.size
  read : ∀ i, R (regs.read i) (values.read i)

/-- From one file to the next a register of the file was set: it holds the value, and the others
hold what they held. -/
structure Sets [Inhabited α] (before : Registers α) (target : Nat) (x : α)
    (after : Registers α) : Prop where
  size_eq : after.size = before.size
  target_eq : target < before.size → after.read target = x
  other_eq : ∀ j, j ≠ target → after.read j = before.read j

theorem sets_write [Inhabited α] (regs : Registers α) (i : Nat) (x : α) :
    regs.Sets i x (regs.write i x) :=
  ⟨size_write regs i x, fun hi => read_write_self x hi, fun _ hj => read_write_ne x hj.symm⟩

/-- A write changes one register, if the file has it. -/
theorem read_write [Inhabited α] (regs : Registers α) (i j : Nat) (x : α) :
    (regs.write i x).read j = if i = j ∧ i < regs.size then x else regs.read j := by
  by_cases hij : i = j
  · subst hij
    by_cases hi : i < regs.size
    · rw [read_write_self x hi, if_pos ⟨rfl, hi⟩]
    · have hsize : ¬i < (regs.write i x).size := by rwa [size_write]
      rw [if_neg (fun h => hi h.2), Registers.read, Registers.read, Array.getD, Array.getD,
        dif_neg hi, dif_neg hsize]
  · rw [read_write_ne x hij, if_neg (fun h => hij h.1)]

theorem Related.write [Inhabited α] [Inhabited β] {R : α → β → Prop} {regs : Registers α}
    {values : Registers β} (h : Related R regs values) {x : α} {y : β} (hxy : R x y) (i : Nat) :
    Related R (regs.write i x) (values.write i y) := by
  refine ⟨by rw [size_write, size_write, h.size_eq], fun j => ?_⟩
  rw [read_write, read_write, ← h.size_eq]
  split
  · exact hxy
  · exact h.read j

/-- A file is related to its image. -/
theorem Related.of_map [Inhabited α] [Inhabited β] {R : α → β → Prop} {regs : Registers α}
    {f : α → β} (hregs : ∀ x ∈ regs, R x (f x)) (hdefault : R default default) :
    Related R regs (regs.map f) := by
  refine ⟨by rw [Array.size_map], fun i => ?_⟩
  simp only [Registers.read, Array.getD]
  by_cases hi : i < regs.size
  · have hi' : i < (regs.map f).size := by rwa [Array.size_map]
    rw [dif_pos hi, dif_pos hi']
    simpa using hregs regs[i] (Array.getElem_mem hi)
  · have hi' : ¬i < (regs.map f).size := by rwa [Array.size_map]
    rw [dif_neg hi, dif_neg hi']
    exact hdefault

/-- The file after the steps. -/
def after (step : σ → Registers α → γ × Registers α) (regs : Registers α) (steps : List σ) :
    Registers α :=
  steps.foldl (fun regs s => (step s regs).2) regs

/-- The file after one more step. -/
theorem after_concat (step : σ → Registers α → γ × Registers α) (regs : Registers α)
    (steps : List σ) (s : σ) :
    after step regs (steps ++ [s]) = (step s (after step regs steps)).2 := by
  rw [after, List.foldl_append]
  rfl

/-- What is held stands in a register. -/
theorem exists_read_of_mem [Inhabited α] {regs : Registers α} {x : α} (hx : x ∈ regs) :
    ∃ i, regs.read i = x := by
  obtain ⟨i, hi⟩ := Array.getElem?_of_mem hx
  exact ⟨i, by rw [Registers.read, Array.getD_eq_getD_getElem?, hi, Option.getD_some]⟩

/-- A file whose registers stand for values has these values as its image. -/
theorem Related.map_eq [Inhabited α] [Inhabited β] {R : α → β → Prop} {f : α → β}
    {regs : Registers α} {values : Registers β} (h : Related R regs values)
    (hR : ∀ {x y}, R x y → f x = y) : regs.map f = values := by
  refine Array.ext (by rw [Array.size_map, h.size_eq]) fun i hi hi' => ?_
  rw [Array.size_map] at hi
  have hread := hR (h.read i)
  simp only [Registers.read, Array.getD, dif_pos hi, dif_pos hi'] at hread
  simpa using hread

/-- Steps that keep two files related keep them so along a run. -/
theorem Related.after [Inhabited α] [Inhabited β] {R : α → β → Prop}
    {step : σ → Registers α → γ × Registers α} {step' : σ → Registers β → δ × Registers β}
    (hstep : ∀ s regs values, Related R regs values →
      Related R (step s regs).2 (step' s values).2)
    {regs : Registers α} {values : Registers β} (h : Related R regs values) (steps : List σ) :
    Related R (regs.after step steps) (values.after step' steps) := by
  induction steps generalizing regs values with
  | nil => exact h
  | cons s rest ih => exact ih (hstep s regs values h)

/-- Steps that answer alike on related files, and keep them related, run alike. -/
theorem Related.map_trace [Inhabited α] [Inhabited β] {R : α → β → Prop} {f : γ → δ}
    {step : σ → Registers α → γ × Registers α} {step' : σ → Registers β → δ × Registers β}
    (hstep : ∀ s regs values, Related R regs values →
      f (step s regs).1 = (step' s values).1 ∧ Related R (step s regs).2 (step' s values).2)
    {regs : Registers α} {values : Registers β} (h : Related R regs values) (steps : List σ) :
    (regs.trace step steps).map f = values.trace step' steps := by
  induction steps generalizing regs values with
  | nil => rfl
  | cons s rest ih =>
    obtain ⟨hanswer, hafter⟩ := hstep s regs values h
    rw [trace, trace, List.map_cons, hanswer, ih hafter]

/-- What every step keeps holds after every run. -/
theorem kept_after {step : σ → Registers α → γ × Registers α} {kept : Registers α → Prop}
    (hstep : ∀ s regs, kept regs → kept (step s regs).2) {regs : Registers α} (hregs : kept regs)
    (steps : List σ) : kept (after step regs steps) := by
  induction steps generalizing regs with
  | nil => exact hregs
  | cons s rest ih => exact ih (hstep s regs hregs)

/-- Runs the steps in order, as far as the machine does not stop. -/
def traceOn (step : σ → Registers α → Option (γ × Registers α)) :
    Registers α → List σ → Option (List γ)
  | _, [] => some []
  | regs, s :: rest => do
    let next ← step s regs
    return next.1 :: (← traceOn step next.2 rest)

/-- A program runs to its end if no step stops from the files that the run goes through.  What
they keep may depend on the steps that are left. -/
theorem traceOn_eq {stepOn : σ → Registers α → Option (γ × Registers α)}
    {step : σ → Registers α → γ × Registers α} {kept : Registers α → List σ → Prop}
    (hstep : ∀ s rest regs, kept regs (s :: rest) →
      stepOn s regs = some (step s regs) ∧ kept (step s regs).2 rest)
    {regs : Registers α} {steps : List σ} (hregs : kept regs steps) :
    traceOn stepOn regs steps = some (trace step regs steps) := by
  induction steps generalizing regs with
  | nil => rfl
  | cons s rest ih =>
    obtain ⟨hrun, hkept⟩ := hstep s rest regs hregs
    rw [traceOn, hrun, Option.bind_eq_bind, Option.bind_some, ih hkept]
    rfl

/-- A program runs to its end if no step stops from a file that every step keeps so. -/
theorem traceOn_eq_of_kept {stepOn : σ → Registers α → Option (γ × Registers α)}
    {step : σ → Registers α → γ × Registers α} {kept : Registers α → Prop}
    (hstep : ∀ s regs, kept regs → stepOn s regs = some (step s regs) ∧ kept (step s regs).2)
    {regs : Registers α} (hregs : kept regs) (steps : List σ) :
    traceOn stepOn regs steps = some (trace step regs steps) := by
  let keptBefore : Registers α → List σ → Prop := fun regs _ => kept regs
  have hbefore : ∀ s rest regs, keptBefore regs (s :: rest) →
      stepOn s regs = some (step s regs) ∧ keptBefore (step s regs).2 rest :=
    fun s _ regs h => hstep s regs h
  exact traceOn_eq hbefore hregs

end Registers

end TwistedEdwards
