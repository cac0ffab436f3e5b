import TwistedEdwards.Program.Registers
import TwistedEdwards.Point.Encoding
import TwistedEdwards.Point.Predicate
import TwistedEdwards.Multiscalar.Batch
import TwistedEdwards.Multiscalar.Single

/-!
# Point programs

A point program is a list of steps on point registers.  Most steps set a
register; reading a string can be refused, with or without its cause, and a sum
over absent points is refused too, which leaves the register as it was; and
tests answer yes or no.
-/

namespace TwistedEdwards

/-- How a sum of multiples is taken. -/
inductive SumMethod where
  | uniform
  | vartime
  | forced (algorithm : Algorithm)
deriving DecidableEq

/-- The sum of terms by a method. -/
def SumMethod.sum : SumMethod → List Term → Point
  | uniform, terms => Uniform.sum terms
  | vartime, terms => Batch.sumVartime terms
  | forced algorithm, terms => algorithm.sum terms

/-- What a step computes for a register; operands are register numbers. -/
inductive PointOperation where
  | base
  | identity
  | copy (a : Nat)
  | neg (a : Nat)
  | double (a : Nat)
  | mulCofactor (a : Nat)
  | add (a b : Nat)
  | sub (a b : Nat)
  | mul (a : Nat) (s : Scalar)
  | mulVartime (a : Nat) (s : Scalar)
  /-- Copies if the bit is set and keeps the destination otherwise. -/
  | select (a : Nat) (bit : Bool)
  | decode (bs : Octets 32)
  /-- Writes a register and reads it back. -/
  | recode (a : Nat)
  | sum (method : SumMethod) (terms : List (Scalar × Nat))
  /-- The sum over points some of which may be absent. -/
  | sumPresent (terms : List (Scalar × Option Nat))

/-- What a test asks of two registers or one. -/
inductive PointTest where
  | equal (a b : Nat)
  | notEqual (a b : Nat)
  | isIdentity (a : Nat)
  | onCurve (a : Nat)

/-- One step: a register is set, or something is asked. -/
inductive PointStep where
  | set (target : Nat) (operation : PointOperation)
  | test (question : PointTest)

/-- Why a step sets nothing: a string that is no point, or a point that is not there. -/
inductive Refusal where
  | undecodable (cause : DecodeError)
  | absent

/-- What a step answers. -/
inductive PointAnswer where
  | value (p : Point)
  | refused (why : Refusal)
  | truth (holds : Bool)

/-- The value for register `target`. -/
def PointOperation.value (regs : Registers Point) (target : Nat) :
    PointOperation → Except Refusal Point
  | base => .ok Point.base
  | identity => .ok Point.identity
  | copy a => .ok (regs.read a)
  | neg a => .ok (-regs.read a)
  | double a => .ok (regs.read a).double
  | mulCofactor a => .ok (regs.read a).mulCofactor
  | add a b => .ok (regs.read a + regs.read b)
  | sub a b => .ok (regs.read a - regs.read b)
  | mul a s => .ok ((regs.read a).mul s)
  | mulVartime a s => .ok ((regs.read a).mulVartime s)
  | select a bit => .ok ((regs.read target).select (regs.read a) bit)
  | decode bs => (Point.decode bs).mapError Refusal.undecodable
  | recode a => (Point.decode (regs.read a).toOctets).mapError fun _ => Refusal.absent
  | sum method terms => .ok (method.sum (terms.map fun (s, a) => ⟨s.toOctets, regs.read a⟩))
  | sumPresent terms =>
    let sum := Batch.sumPresent (terms.map fun (s, a) => (s.toOctets, a.map regs.read))
    if sum.complete then .ok sum.point else .error .absent

/-- The answer of a test. -/
def PointTest.holds (regs : Registers Point) : PointTest → Bool
  | equal a b => (regs.read a).same (regs.read b)
  | notEqual a b => !(regs.read a).same (regs.read b)
  | isIdentity a => (regs.read a).isIdentity
  | onCurve a => (regs.read a).onCurve

namespace PointStep

/-- Sets the register unless the operation is refused. -/
def run (s : PointStep) (regs : Registers Point) : PointAnswer × Registers Point :=
  match s with
  | set target operation =>
    match operation.value regs target with
    | .ok p => (.value p, regs.write target p)
    | .error why => (.refused why, regs)
  | test question => (.truth (question.holds regs), regs)

/-- The answer of each step. -/
def runAll (regs : Registers Point) (steps : List PointStep) : List PointAnswer :=
  regs.trace run steps

end PointStep

end TwistedEdwards
