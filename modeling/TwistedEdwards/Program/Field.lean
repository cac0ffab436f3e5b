import TwistedEdwards.Program.Registers
import TwistedEdwards.Field.Power

/-!
# Field programs

A field program is a list of steps on registers that hold raw limbs.  The
destination may be one of the operands, and nothing is reduced between steps,
so a program shows exactly which limbs each operation leaves behind.
-/

namespace TwistedEdwards

instance : Inhabited FieldElement := ⟨FieldElement.zero⟩

/-- What a step computes; operands are register numbers. -/
inductive FieldOperation where
  | add (a b : Nat)
  | sub (a b : Nat)
  | mul (a b : Nat)
  | neg (a : Nat)
  | square (a : Nat)
  | doubleSquare (a : Nat)
  | inverse (a : Nat)
  | rootPower (a : Nat)
  | copy (a : Nat)
  /-- Copies if the bit is set and keeps the destination otherwise. -/
  | select (a : Nat) (bit : Bool)
  | negateIf (a : Nat) (bit : Bool)

/-- One step: an operation and the register that takes its result. -/
structure FieldStep where
  target : Nat
  operation : FieldOperation

namespace FieldStep

/-- The value that a step computes from the registers. -/
def result (s : FieldStep) (regs : Registers FieldElement) : FieldElement :=
  match s.operation with
  | .add a b => regs.read a + regs.read b
  | .sub a b => regs.read a - regs.read b
  | .mul a b => regs.read a * regs.read b
  | .neg a => -regs.read a
  | .square a => (regs.read a).square
  | .doubleSquare a => (regs.read a).doubleSquare
  | .inverse a => (regs.read a).inverse
  | .rootPower a => (regs.read a).rootPower
  | .copy a => regs.read a
  | .select a bit => (regs.read s.target).select (regs.read a) bit
  | .negateIf a bit => (regs.read a).negateIf bit

/-- Computes the value and writes it. -/
def run (s : FieldStep) (regs : Registers FieldElement) :
    FieldElement × Registers FieldElement :=
  let x := s.result regs
  (x, regs.write s.target x)

/-- The value that each step computes; the target takes it, if the file has that register. -/
def runAll (regs : Registers FieldElement) (steps : List FieldStep) : List FieldElement :=
  regs.trace run steps

end FieldStep

end TwistedEdwards
