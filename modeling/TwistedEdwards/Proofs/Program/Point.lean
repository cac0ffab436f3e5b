import TwistedEdwards.Proofs.Point.Codec
import TwistedEdwards.Proofs.Point.Membership
import TwistedEdwards.Proofs.Program.Batch
import TwistedEdwards.Proofs.Program.Registers

/-!
# Whole runs on points

Whatever is done to points, one after the other, the registers hold valid points only: the
neutral element, the base point and what is read from a string are valid, and every
operation keeps the limbs small and the coordinates on the curve.  Small limbs are all
that the word operations need, so a run of any length loses nothing in any of them.

Main statements: `PointStep.run_holds`, `PointCall.run_holds` and
`PointCall.runs_keep_validity`.
-/

namespace TwistedEdwards

section Definitions

variable (M : Machine)

/-- The sum by the method of a step. -/
def SumMethod.sumOn : SumMethod → List Term → Option Point
  | uniform, terms => Uniform.sumOn M terms
  | vartime, terms => Batch.sumVartimeOn M terms
  | forced algorithm, terms => algorithm.sumOn M terms

/-- The value of a sum over points some of which may be absent. -/
def PointOperation.presentValue (sum : Batch.PresentSum) : Except Refusal Point :=
  if sum.complete then .ok sum.point else .error .absent

/-- The value that an operation computes on the machine. -/
def PointOperation.valueOn (regs : Registers Point) (target : Nat) :
    PointOperation → Option (Except Refusal Point)
  | base => some (.ok Point.base)
  | identity => some (.ok Point.identity)
  | copy a => some (.ok (regs.read a))
  | neg a => ((regs.read a).negOn M).map .ok
  | double a => ((regs.read a).doubleOn M).map .ok
  | mulCofactor a => ((regs.read a).mulCofactorOn M).map .ok
  | add a b => ((regs.read a).addOn M (regs.read b)).map .ok
  | sub a b => ((regs.read a).subOn M (regs.read b)).map .ok
  | mul a s => ((regs.read a).mulOn M s).map .ok
  | mulVartime a s => ((regs.read a).mulVartimeOn M s).map .ok
  | select a bit => some (.ok ((regs.read target).select (regs.read a) bit))
  | decode bs => (Point.decodeOn M bs).map (Except.mapError Refusal.undecodable)
  | recode a => do
    let read ← Point.decodeOn M (← (regs.read a).toOctetsOn M)
    return read.mapError fun _ => Refusal.absent
  | sum method terms =>
    (method.sumOn M (terms.map fun (s, a) => ⟨s.toOctets, regs.read a⟩)).map .ok
  | sumPresent terms =>
    (Batch.sumPresentOn M (terms.map fun (s, a) => (s.toOctets, a.map regs.read))).map
      presentValue

/-- The answer of a test on the machine. -/
def PointTest.holdsOn (regs : Registers Point) : PointTest → Option Bool
  | equal a b => (regs.read a).sameOn M (regs.read b)
  | notEqual a b => ((regs.read a).sameOn M (regs.read b)).map not
  | isIdentity a => (regs.read a).isIdentityOn M
  | onCurve a => (regs.read a).onCurveOn M

/-- Sets the register unless the operation was refused. -/
def PointStep.settle (regs : Registers Point) (target : Nat) :
    Except Refusal Point → PointAnswer × Registers Point
  | .ok p => (.value p, regs.write target p)
  | .error why => (.refused why, regs)

/-- A step on the machine. -/
def PointStep.runOn (s : PointStep) (regs : Registers Point) :
    Option (PointAnswer × Registers Point) :=
  match s with
  | set target operation => (operation.valueOn M regs target).map (settle regs target)
  | test question => (question.holdsOn M regs).map fun holds => (.truth holds, regs)

/-- All that can be done to points in registers: the steps of a program, and sums of a batch. -/
inductive PointCall where
  | step (s : PointStep)
  | batch (target : Nat) (call : BatchCall)

/-- What a call answers. -/
abbrev CallAnswer := PointAnswer ⊕ Except BatchError (Option Point)

/-- The point in an answer, if it is one. -/
def CallAnswer.point? : CallAnswer → Option Point
  | .inl (.value p) => some p
  | .inr (.ok p) => p
  | _ => none

/-- A point in an answer is valid. -/
def CallAnswer.Valid (answer : CallAnswer) : Prop := ∀ p ∈ answer.point?, p.Valid

namespace PointCall

/-- Sets the register if the batch has a sum. -/
def settle (regs : Registers Point) (target : Nat) :
    Except BatchError (Option Point) → CallAnswer × Registers Point
  | .ok (some p) => (.inr (.ok (some p)), regs.write target p)
  | .ok none => (.inr (.ok none), regs)
  | .error cause => (.inr (.error cause), regs)

/-- A call: a step, or a sum of a whole batch. -/
def run (c : PointCall) (regs : Registers Point) : CallAnswer × Registers Point :=
  match c with
  | step s => (s.run regs).map Sum.inl id
  | batch target call => settle regs target (call.value regs)

/-- The answer of each call. -/
def runAll (regs : Registers Point) (calls : List PointCall) : List CallAnswer :=
  regs.trace run calls

/-- A call on the machine. -/
def runOn (c : PointCall) (regs : Registers Point) : Option (CallAnswer × Registers Point) :=
  match c with
  | step s => (s.runOn M regs).map (Prod.map Sum.inl id)
  | batch target call => (call.valueOn M regs).map (settle regs target)

/-- The answer of each call, if the machine runs to the end. -/
def runAllOn (regs : Registers Point) (calls : List PointCall) : Option (List CallAnswer) :=
  regs.traceOn (runOn M) calls

end PointCall

end Definitions

/-- Every register holds a valid point. -/
def Registers.Holds (regs : Registers Point) : Prop := ∀ i, (regs.read i).Valid

variable {regs : Registers Point}

theorem Registers.Holds.write (h : regs.Holds) {p : Point} (hp : p.Valid) (target : Nat) :
    (regs.write target p).Holds := by
  intro i
  rw [Registers.read_write]
  split
  · exact hp
  · exact h i

/-- Every register is within the bounds of the formulas. -/
theorem Registers.Holds.small (h : regs.Holds) (i : Nat) : (regs.read i).Small := (h i).small

/-- Terms whose points are in registers. -/
theorem Registers.Holds.forall_terms (h : regs.Holds) (terms : List (Scalar × Nat)) :
    ∀ term ∈ terms.map (fun (s, a) => (⟨s.toOctets, regs.read a⟩ : Term)), term.point.Valid :=
  List.forall_mem_map.mpr fun term _ => h term.2

/-- The points that are present in a batch are valid. -/
theorem Registers.Holds.forall_present (h : regs.Holds) (terms : List (Scalar × Option Nat)) :
    ∀ term ∈ terms.map (fun (s, a) => (s.toOctets, a.map regs.read)), ∀ p ∈ term.2, p.Valid := by
  intro term hterm p hp
  obtain ⟨⟨s, a⟩, -, rfl⟩ := List.mem_map.mp hterm
  obtain ⟨i, -, rfl⟩ := Option.map_eq_some_iff.mp hp
  exact h i

theorem Point.Valid.select {p q : Point} (hp : p.Valid) (hq : q.Valid) (bit : Bool) :
    (p.select q bit).Valid := by
  rw [Point.select_eq]
  split
  · exact hq
  · exact hp

/-- What is read from a string is valid, whatever a refusal is turned into. -/
theorem Point.valid_of_mapError_decode {bs : Octets 32} {p : Point} {f : DecodeError → Refusal}
    (h : (decode bs).mapError f = .ok p) : p.Valid := by
  cases hread : decode bs with
  | error cause =>
    rw [hread] at h
    cases h
  | ok q =>
    rw [hread] at h
    obtain rfl := Except.ok.inj h
    obtain ⟨-, x, hq⟩ := exists_isDecodedFrom hread
    exact hq.valid

/-- A string is refused for the cause that the reader tells. -/
theorem PointOperation.value_decode (regs : Registers Point) (target : Nat) (bs : Octets 32) :
    (decode bs).value regs target = (Point.decode bs).mapError Refusal.undecodable :=
  rfl

theorem PointOperation.value_recode (regs : Registers Point) (target a : Nat) :
    (recode a).value regs target =
      (Point.decode (regs.read a).toOctets).mapError fun _ => Refusal.absent :=
  rfl

/-- The optional sum of registers some of which are left out. -/
theorem PointOperation.value_sumPresent (regs : Registers Point) (target : Nat)
    (terms : List (Scalar × Option Nat)) :
    (sumPresent terms).value regs target =
      presentValue (Batch.sumPresent (terms.map fun (s, a) => (s.toOctets, a.map regs.read))) :=
  rfl

/-- **One operation**, constructor by constructor: the value is valid if there is one. -/
theorem PointOperation.value_valid (h : regs.Holds) {operation : PointOperation} {target : Nat}
    {p : Point} (hvalue : operation.value regs target = .ok p) : p.Valid := by
  cases operation with
  | base => exact Except.ok.inj hvalue ▸ Point.base_denotes.valid
  | identity => exact Except.ok.inj hvalue ▸ Point.identity_denotes.valid
  | copy a => exact Except.ok.inj hvalue ▸ h a
  | neg a => exact Except.ok.inj hvalue ▸ (h a).denotes.neg.valid
  | double a => exact Except.ok.inj hvalue ▸ (h a).denotes.double.valid
  | mulCofactor a => exact Except.ok.inj hvalue ▸ (h a).denotes.mulCofactor.valid
  | add a b => exact Except.ok.inj hvalue ▸ ((h a).denotes.add (h b).denotes).valid
  | sub a b => exact Except.ok.inj hvalue ▸ ((h a).denotes.sub (h b).denotes).valid
  | mul a s =>
    obtain rfl := Except.ok.inj hvalue
    exact (Uniform.sum_denotes (List.forall_mem_singleton.mpr (h a))).valid
  | mulVartime a s =>
    obtain rfl := Except.ok.inj hvalue
    exact ((h a).denotes.mulOctetsVartime s.toOctets).valid
  | select a bit => exact Except.ok.inj hvalue ▸ (h target).select (h a) bit
  | decode bs =>
    rw [value_decode] at hvalue
    exact Point.valid_of_mapError_decode hvalue
  | recode a =>
    rw [value_recode] at hvalue
    exact Point.valid_of_mapError_decode hvalue
  | sum method terms =>
    have hsum := method.sum_valid (h.forall_terms terms)
    obtain rfl := Except.ok.inj hvalue
    exact hsum
  | sumPresent terms =>
    have hsum := Batch.sumPresent_valid (h.forall_present terms)
    rw [value_sumPresent] at hvalue
    generalize Batch.sumPresent _ = sum at hsum hvalue
    unfold presentValue at hvalue
    split at hvalue
    · exact Except.ok.inj hvalue ▸ hsum
    · cases hvalue

/-- A step that sets a register settles the value of its operation. -/
theorem PointStep.run_set (regs : Registers Point) (target : Nat) (operation : PointOperation) :
    (set target operation).run regs = settle regs target (operation.value regs target) := by
  unfold run
  dsimp only
  cases operation.value regs target <;> rfl

/-- A test keeps every register. -/
theorem PointStep.run_test (regs : Registers Point) (question : PointTest) :
    (test question).run regs = (.truth (question.holds regs), regs) :=
  rfl

/-- One step keeps every register valid, and a point that it answers is valid. -/
theorem PointStep.run_holds (h : regs.Holds) (s : PointStep) :
    CallAnswer.Valid (.inl (s.run regs).1) ∧ (s.run regs).2.Holds := by
  cases s with
  | set target operation =>
    rw [run_set]
    cases hvalue : operation.value regs target with
    | ok p =>
      have hp := PointOperation.value_valid h hvalue
      exact ⟨fun q hq => Option.some.inj hq ▸ hp, h.write hp target⟩
    | error why => exact ⟨fun _ hq => (Option.some_ne_none _ hq.symm).elim, h⟩
  | test question =>
    rw [run_test]
    exact ⟨fun _ hq => (Option.some_ne_none _ hq.symm).elim, h⟩

/-- One call keeps every register valid, and a point that it answers is valid. -/
theorem PointCall.run_holds (h : regs.Holds) (c : PointCall) :
    (c.run regs).1.Valid ∧ (c.run regs).2.Holds := by
  cases c with
  | step s => exact s.run_holds h
  | batch target call =>
    change (settle regs target (call.value regs)).1.Valid ∧
      (settle regs target (call.value regs)).2.Holds
    cases hvalue : call.value regs with
    | error cause => exact ⟨fun _ hq => (Option.some_ne_none _ hq.symm).elim, h⟩
    | ok point =>
      cases point with
      | none => exact ⟨fun _ hq => (Option.some_ne_none _ hq.symm).elim, h⟩
      | some p =>
        have hp := BatchCall.valid_of_value h hvalue
        exact ⟨fun q hq => Option.some.inj hq ▸ hp, h.write hp target⟩

section Laws

variable {M : Machine} (hM : M.Faithful)
include hM

theorem SumMethod.sumOn_eq (method : SumMethod) {terms : List Term}
    (hterms : ∀ term ∈ terms, term.point.Small) :
    method.sumOn M terms = some (method.sum terms) := by
  cases method with
  | uniform => exact Uniform.sumOn_eq hM hterms
  | vartime => exact Batch.sumVartimeOn_eq hM hterms
  | forced algorithm => exact algorithm.sumOn_eq hM hterms

/-- **One operation**, constructor by constructor: no word operation of it loses anything. -/
theorem PointOperation.valueOn_eq (h : regs.Holds) (operation : PointOperation) (target : Nat) :
    operation.valueOn M regs target = some (operation.value regs target) := by
  cases operation with
  | base => rfl
  | identity => rfl
  | copy a => rfl
  | neg a => exact congrArg (Option.map Except.ok) ((h.small a).negOn_eq hM).1
  | double a => exact congrArg (Option.map Except.ok) ((h.small a).doubleOn_eq hM).1
  | mulCofactor a => exact congrArg (Option.map Except.ok) ((h.small a).doubleTimesOn_eq hM 3).1
  | add a b => exact congrArg (Option.map Except.ok) ((h.small a).addOn_eq hM (h.small b)).1
  | sub a b => exact congrArg (Option.map Except.ok) ((h.small a).subOn_eq hM (h.small b)).1
  | mul a s => exact congrArg (Option.map Except.ok) ((h.small a).mulOn_eq hM s)
  | mulVartime a s => exact congrArg (Option.map Except.ok) ((h.small a).mulVartimeOn_eq hM s)
  | select a bit => rfl
  | decode bs => exact congrArg (Option.map _) (Point.decodeOn_eq hM bs)
  | recode a =>
    rw [valueOn, (h.small a).toOctetsOn_eq hM, Option.bind_eq_bind, Option.bind_some,
      Point.decodeOn_eq hM, value_recode]
    rfl
  | sum method terms =>
    have hsum := method.sumOn_eq hM fun term hterm => (h.forall_terms terms term hterm).small
    rw [valueOn, hsum]
    rfl
  | sumPresent terms =>
    have hsum := Batch.sumPresentOn_eq hM fun term hterm p hp =>
      (h.forall_present terms term hterm p hp).small
    rw [valueOn, hsum, value_sumPresent]
    rfl

theorem PointTest.holdsOn_eq (h : regs.Holds) (question : PointTest) :
    question.holdsOn M regs = some (question.holds regs) := by
  cases question with
  | equal a b => exact (h.small a).sameOn_eq hM (h.small b)
  | notEqual a b => exact congrArg (Option.map not) ((h.small a).sameOn_eq hM (h.small b))
  | isIdentity a => exact (h.small a).isIdentityOn_eq hM
  | onCurve a => exact (h.small a).onCurveOn_eq hM

theorem PointStep.runOn_eq (h : regs.Holds) (s : PointStep) :
    s.runOn M regs = some (s.run regs) := by
  cases s with
  | set target operation =>
    rw [runOn, operation.valueOn_eq hM h, run_set]
    rfl
  | test question =>
    rw [runOn, question.holdsOn_eq hM h]
    rfl

theorem PointCall.runOn_eq (h : regs.Holds) (c : PointCall) :
    c.runOn M regs = some (c.run regs) := by
  cases c with
  | step s =>
    rw [runOn, s.runOn_eq hM h]
    rfl
  | batch target call =>
    rw [runOn, call.valueOn_eq hM h.small]
    rfl

theorem PointCall.runAllOn_eq (h : regs.Holds) (calls : List PointCall) :
    runAllOn M regs calls = some (runAll regs calls) := by
  have hstep : ∀ (c : PointCall) (regs : Registers Point), regs.Holds →
      c.runOn M regs = some (c.run regs) ∧ (c.run regs).2.Holds :=
    fun c _ h => ⟨c.runOn_eq hM h, (c.run_holds h).2⟩
  exact Registers.traceOn_eq_of_kept hstep h calls

end Laws

/-- The neutral element, the base point and what was read from strings are valid. -/
theorem Registers.holds_of_produced
    (hstart : ∀ p ∈ regs, p = .identity ∨ p = .base ∨ ∃ bs, Point.decode bs = .ok p) :
    regs.Holds := by
  intro i
  rw [Registers.read, Array.getD_eq_getD_getElem?]
  cases hp : regs[i]? with
  | none => exact Point.identity_denotes.valid
  | some p =>
    rcases hstart p (Array.mem_of_getElem? hp) with rfl | rfl | ⟨bs, hread⟩
    · exact Point.identity_denotes.valid
    · exact Point.base_denotes.valid
    · obtain ⟨-, x, hp⟩ := Point.exists_isDecodedFrom hread
      exact hp.valid

theorem Registers.Holds.forall_mem (h : regs.Holds) : ∀ p ∈ regs, p.Valid := by
  intro p hp
  obtain ⟨i, rfl⟩ := Registers.exists_read_of_mem hp
  exact h i

namespace PointCall

/-- **Whole runs keep validity and lose nothing.**  The registers begin with the neutral element,
the base point, and points read from strings.  After every part of a run they hold valid points
of the curve, so does every answer that is a point, and the run comes to its end with the same
answers on the machine that stops where a number does not fit its word. -/
theorem runs_keep_validity
    (hstart : ∀ p ∈ regs, p = .identity ∨ p = .base ∨ ∃ bs, Point.decode bs = .ok p)
    (calls : List PointCall) :
    (∀ early late, calls = early ++ late →
        ∀ p ∈ Registers.after run regs early, p.Valid ∧ p.onCurve = true) ∧
      (∀ answer ∈ runAll regs calls, ∀ p ∈ answer.point?, p.Valid ∧ p.onCurve = true) ∧
      runAllOn .wrapping regs calls = some (runAll regs calls) ∧
      runAllOn .stopping regs calls = some (runAll regs calls) := by
  have hholds := Registers.holds_of_produced hstart
  have hstep : ∀ (c : PointCall) (regs : Registers Point), regs.Holds → (c.run regs).2.Holds :=
    fun c _ h => (c.run_holds h).2
  refine ⟨?_, ?_, runAllOn_eq Machine.wrapping_faithful hholds calls,
    runAllOn_eq Machine.stopping_faithful hholds calls⟩
  · intro early _ _ p hp
    have hvalid := (Registers.kept_after hstep hholds early).forall_mem p hp
    exact ⟨hvalid, hvalid.onCurve⟩
  · intro answer hanswer p hp
    have hrun : ∀ (c : PointCall) (regs : Registers Point), regs.Holds →
        (c.run regs).1.Valid ∧ (c.run regs).2.Holds := fun c _ h => c.run_holds h
    have hvalid := Registers.forall_mem_trace hrun hholds calls answer hanswer p hp
    exact ⟨hvalid, hvalid.onCurve⟩

/-- The double of the base point, a sum of a batch with it, and the difference of both. -/
theorem runs_keep_validity_base :
    let regs := #[Point.base, Point.identity]
    let calls := [.step (.set 1 (.double 0)),
      .batch 0 (.mulVartime [Scalar.one, Scalar.one] [0, 1]), .step (.set 1 (.sub 0 1))]
    (∀ p ∈ regs, p = .identity ∨ p = .base ∨ ∃ bs, Point.decode bs = .ok p) ∧
      (∀ p ∈ Registers.after run regs calls, p.Valid ∧ p.onCurve = true) ∧
      runAllOn .stopping regs calls = some (runAll regs calls) := by
  intro regs calls
  have hstart : ∀ p ∈ regs, p = .identity ∨ p = .base ∨ ∃ bs, Point.decode bs = .ok p := by
    intro p hp
    rcases List.mem_cons.mp (Array.mem_toList_iff.mpr hp) with rfl | hp
    · exact Or.inr (Or.inl rfl)
    · exact Or.inl (List.mem_singleton.mp hp)
  obtain ⟨hheld, -, -, hexact⟩ := runs_keep_validity hstart calls
  exact ⟨hstart, hheld calls [] (List.append_nil calls).symm, hexact⟩

end PointCall

end TwistedEdwards
