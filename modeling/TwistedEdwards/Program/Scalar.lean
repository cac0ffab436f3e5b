import TwistedEdwards.Program.Registers
import TwistedEdwards.Scalar.Encoding
import TwistedEdwards.Scalar.Inverse

/-!
# Scalar programs

A scalar program is a list of steps on scalar registers.  Most steps set a
register; reading a string and inverting can be refused, which leaves the
register as it was; and tests answer yes or no.
-/

namespace TwistedEdwards

/-- What a step computes for a register; operands are register numbers. -/
inductive ScalarOperation where
  | zero
  | one
  | word (w : UInt64)
  | add (a b : Nat)
  | sub (a b : Nat)
  | mul (a b : Nat)
  | neg (a : Nat)
  | square (a : Nat)
  | inverse (a : Nat)
  | octets (bs : Octets 32)
  | canonical (bs : Octets 32)
  | wide (bs : Octets 64)

/-- What a test asks of two registers or one. -/
inductive ScalarTest where
  | equal (a b : Nat)
  | notEqual (a b : Nat)
  | isZero (a : Nat)

/-- One step: a register is set, or something is asked. -/
inductive ScalarStep where
  | set (target : Nat) (operation : ScalarOperation)
  | test (question : ScalarTest)

/-- What a step answers. -/
inductive ScalarAnswer where
  | value (s : Scalar)
  | refused
  | truth (holds : Bool)

/-- The value, none if the operation refuses its operand. -/
def ScalarOperation.value? (regs : Registers Scalar) : ScalarOperation → Option Scalar
  | zero => some Scalar.zero
  | one => some Scalar.one
  | word w => some (Scalar.ofWord w)
  | add a b => some (regs.read a + regs.read b)
  | sub a b => some (regs.read a - regs.read b)
  | mul a b => some (regs.read a * regs.read b)
  | neg a => some (-regs.read a)
  | square a => some (regs.read a).square
  | inverse a => (regs.read a).inverse?
  | octets bs => some (Scalar.ofOctets bs)
  | canonical bs => Scalar.ofCanonical? bs
  | wide bs => some (Scalar.ofWide bs)

/-- The answer of a test. -/
def ScalarTest.holds (regs : Registers Scalar) : ScalarTest → Bool
  | equal a b => regs.read a == regs.read b
  | notEqual a b => regs.read a != regs.read b
  | isZero a => (regs.read a).isZero

namespace ScalarStep

/-- Sets the register unless the operation is refused. -/
def run (s : ScalarStep) (regs : Registers Scalar) : ScalarAnswer × Registers Scalar :=
  match s with
  | set target operation =>
    match operation.value? regs with
    | some x => (.value x, regs.write target x)
    | none => (.refused, regs)
  | test question => (.truth (question.holds regs), regs)

/-- The answer of each step. -/
def runAll (regs : Registers Scalar) (steps : List ScalarStep) : List ScalarAnswer :=
  regs.trace run steps

end ScalarStep

end TwistedEdwards
