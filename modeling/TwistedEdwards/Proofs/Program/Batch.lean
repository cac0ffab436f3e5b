import TwistedEdwards.Program.Point
import TwistedEdwards.Proofs.Exact.Multiscalar
import TwistedEdwards.Proofs.Multiscalar.Batch

/-!
# Calls that sum a batch

A call names its scalars and the registers that hold its points.  It is refused for its
counts, it finds a point absent, or it gives a point; if the points it takes are valid then
so is the one it gives, and it runs on every faithful machine.

Main statements: `BatchCall.valid_of_value` and `BatchCall.valueOn_eq`.
-/

namespace TwistedEdwards

/-- Either algorithm sums valid points to a valid one. -/
theorem Algorithm.sum_valid (algorithm : Algorithm) {terms : List Term}
    (hterms : ∀ term ∈ terms, term.point.Valid) : (algorithm.sum terms).Valid := by
  cases algorithm with
  | straus => exact (Interleaved.sum_denotes hterms).valid
  | pippenger => exact (Buckets.sum_denotes hterms).valid

theorem Batch.sumVartime_valid {terms : List Term}
    (hterms : ∀ term ∈ terms, term.point.Valid) : (sumVartime terms).Valid :=
  (Algorithm.ofCount terms.length).sum_valid hterms

theorem SumMethod.sum_valid (method : SumMethod) {terms : List Term}
    (hterms : ∀ term ∈ terms, term.point.Valid) : (method.sum terms).Valid := by
  cases method with
  | uniform => exact (Uniform.sum_denotes hterms).valid
  | vartime => exact Batch.sumVartime_valid hterms
  | forced algorithm => exact algorithm.sum_valid hterms

namespace Batch

/-- The sum is valid, and neutral if a point is absent. -/
theorem sumPresent_valid {terms : List (Octets 32 × Option Point)}
    (hterms : ∀ term ∈ terms, ∀ p ∈ term.2, p.Valid) : (sumPresent terms).point.Valid := by
  unfold sumPresent
  cases hpresent : allPresent? terms with
  | none => exact Point.identity_denotes.valid
  | some present => exact sumVartime_valid (forall_mem_allPresent? hterms hpresent)

section Checked

variable {α β : Type} {checked : Except BatchError α}

/-- What a check lets through is the result of what follows it. -/
theorem exists_of_bind_eq_ok {next : α → Except BatchError β} {y : β}
    (h : checked >>= next = .ok y) : ∃ x, checked = .ok x ∧ next x = .ok y := by
  cases checked with
  | error cause => cases h
  | ok x => exact ⟨x, rfl, h⟩

/-- A result that is changed was a result before. -/
theorem exists_of_map_eq_ok {f : α → β} {y : β} (h : checked.map f = .ok y) :
    ∃ x, checked = .ok x ∧ f x = y := by
  cases checked with
  | error cause => cases h
  | ok x => exact ⟨x, rfl, Except.ok.inj h⟩

/-- What follows a check, on a machine that may stop there. -/
def continueOn (checked : Except BatchError α) (next : α → Option (Except BatchError β)) :
    Option (Except BatchError β) :=
  match checked with
  | .ok x => next x
  | .error cause => some (.error cause)

/-- A machine that does not stop after a check does what follows it. -/
theorem continueOn_eq {nextOn : α → Option (Except BatchError β)} {next : α → Except BatchError β}
    (h : ∀ x, checked = .ok x → nextOn x = some (next x)) :
    continueOn checked nextOn = some (checked >>= next) := by
  cases checked with
  | error cause => rfl
  | ok x => exact h x rfl

end Checked

variable {kept : Point → Prop} {scalars : List Scalar} {points : List Point} {ts : List Term}

/-- What holds of the points of a batch holds of the points of its terms. -/
theorem forall_mem_flatten {n : Nat} (hpoints : ∀ p ∈ points, kept p)
    (hterms : flatten n scalars points = .ok ts) : ∀ term ∈ ts, kept term.point := by
  obtain ⟨-, -, hts⟩ := exists_of_bind_eq_ok hterms
  obtain rfl := Except.ok.inj hts
  intro term hterm
  obtain ⟨⟨s, p⟩, hpair, rfl⟩ := List.mem_map.mp hterm
  exact hpoints p (List.mem_of_mem_take (List.of_mem_zip hpair).2)

/-- What holds of the points that are present holds of those of the terms. -/
theorem forall_mem_zip {points : List (Option Point)} (scalars : List (Octets 32))
    (hpoints : ∀ point ∈ points, ∀ p ∈ point, kept p) :
    ∀ entry ∈ scalars.zip points, ∀ p ∈ entry.2, kept p :=
  fun entry hentry => hpoints entry.2 (List.of_mem_zip hentry).2

section First

variable {sum : List Term → Point} {sumOn : List Term → Option Point} {n : Nat}
  {first : Option (List Scalar)} {firstPoints : Option (List Point)}

/-- The sum of the first terms, on a machine that may stop. -/
def sumFirstOn (sumOn : List Term → Option Point) (n : Nat) (scalars : Option (List Scalar))
    (points : Option (List Point)) : Option (Except BatchError Point) :=
  if n = 0 then some (.ok .identity)
  else
    match scalars, points with
    | some scalars, some points =>
      continueOn (flatten n scalars points) fun terms => do return .ok (← sumOn terms)
    | _, _ => some (.ok .identity)

/-- A sum that is valid on valid points is so on the first of them. -/
theorem sumFirst_valid (hsum : ∀ ts, (∀ term ∈ ts, term.point.Valid) → (sum ts).Valid)
    (hpoints : ∀ ps ∈ firstPoints, ∀ p ∈ ps, p.Valid) {p : Point}
    (h : sumFirst sum n first firstPoints = .ok p) : p.Valid := by
  unfold sumFirst at h
  split at h
  · obtain rfl := Except.ok.inj h
    exact Point.identity_denotes.valid
  · split at h
    · next scalars points =>
      obtain ⟨ts, hts, hp⟩ := exists_of_bind_eq_ok h
      obtain rfl := Except.ok.inj hp
      exact hsum ts (forall_mem_flatten (hpoints points rfl) hts)
    · obtain rfl := Except.ok.inj h
      exact Point.identity_denotes.valid

/-- A sum that runs on a machine runs on the first terms. -/
theorem sumFirstOn_eq (hsum : ∀ ts, (∀ term ∈ ts, kept term.point) → sumOn ts = some (sum ts))
    (hpoints : ∀ ps ∈ firstPoints, ∀ p ∈ ps, kept p) :
    sumFirstOn sumOn n first firstPoints = some (sumFirst sum n first firstPoints) := by
  unfold sumFirstOn sumFirst
  by_cases hn : n = 0
  · rw [if_pos hn, if_pos hn]
  rw [if_neg hn, if_neg hn]
  cases first with
  | none => rfl
  | some scalars =>
    cases firstPoints with
    | none => rfl
    | some points =>
      refine continueOn_eq fun ts hts => ?_
      rw [hsum ts (forall_mem_flatten (hpoints points rfl) hts)]
      rfl

end First

end Batch

/-- A batch whose points are in registers. -/
inductive BatchCall where
  | mul (scalars : List Scalar) (points : List Nat)
  | mulVartime (scalars : List Scalar) (points : List Nat)
  | mulWith (algorithm : Algorithm) (scalars : List Scalar) (points : List Nat)
  | mulOptional (scalars : List Scalar) (points : List (Option Nat))
  | mulFirst (n : Nat) (scalars : Option (List Scalar)) (points : Option (List Nat))
  | mulFirstVartime (n : Nat) (scalars : Option (List Scalar)) (points : Option (List Nat))

namespace BatchCall

/-- What the call gives: a refusal for its counts, an absent point, or a point. -/
def value (regs : Registers Point) : BatchCall → Except BatchError (Option Point)
  | mul scalars points => (Batch.mul scalars (points.map regs.read)).map some
  | mulVartime scalars points => (Batch.mulVartime scalars (points.map regs.read)).map some
  | mulWith algorithm scalars points =>
    (Batch.mulWith algorithm scalars (points.map regs.read)).map some
  | mulOptional scalars points => Batch.mulOptional scalars (points.map (Option.map regs.read))
  | mulFirst n scalars points =>
    (Batch.mulFirst n scalars (points.map (List.map regs.read))).map some
  | mulFirstVartime n scalars points =>
    (Batch.mulFirstVartime n scalars (points.map (List.map regs.read))).map some

section OnMachine

variable (M : Machine)

/-- The sum of a whole batch by the given way of summing. -/
def mulOn (sumOn : List Term → Option Point) (scalars : List Scalar) (points : List Point) :
    Option (Except BatchError Point) :=
  Batch.continueOn (Batch.checkLengths scalars.length points.length) fun _ =>
    Batch.sumFirstOn sumOn scalars.length (some scalars) (some points)

/-- The sum of a whole batch by a chosen algorithm. -/
def mulWithOn (algorithm : Algorithm) (scalars : List Scalar) (points : List Point) :
    Option (Except BatchError Point) :=
  Batch.continueOn (Batch.checkLengths scalars.length points.length) fun _ =>
    Batch.continueOn (Batch.flatten scalars.length scalars points) fun terms => do
      return .ok (← algorithm.sumOn M terms)

/-- The sum of a whole batch with absent points. -/
def mulOptionalOn (scalars : List Scalar) (points : List (Option Point)) :
    Option (Except BatchError (Option Point)) :=
  Batch.continueOn (Batch.checkLengths scalars.length points.length) fun _ =>
    Batch.continueOn (Batch.checkCount scalars.length) fun _ => do
      let sum ← Batch.sumPresentOn M ((scalars.map Scalar.toOctets).zip points)
      return .ok (if sum.complete then some sum.point else none)

/-- What the call gives on the machine, unless that stops. -/
def valueOn (regs : Registers Point) : BatchCall → Option (Except BatchError (Option Point))
  | mul scalars points =>
    (mulOn (Uniform.sumOn M) scalars (points.map regs.read)).map (Except.map some)
  | mulVartime scalars points =>
    (mulOn (Batch.sumVartimeOn M) scalars (points.map regs.read)).map (Except.map some)
  | mulWith algorithm scalars points =>
    (mulWithOn M algorithm scalars (points.map regs.read)).map (Except.map some)
  | mulOptional scalars points => mulOptionalOn M scalars (points.map (Option.map regs.read))
  | mulFirst n scalars points =>
    (Batch.sumFirstOn (Uniform.sumOn M) n scalars (points.map (List.map regs.read))).map
      (Except.map some)
  | mulFirstVartime n scalars points =>
    (Batch.sumFirstOn (Batch.sumVartimeOn M) n scalars (points.map (List.map regs.read))).map
      (Except.map some)

end OnMachine

variable {kept : Point → Prop} {regs : Registers Point}

/-- What holds of all registers holds of the points of a call. -/
theorem forall_mem_map_read (hregs : ∀ i, kept (regs.read i)) (points : List Nat) :
    ∀ p ∈ points.map regs.read, kept p :=
  List.forall_mem_map.mpr fun i _ => hregs i

/-- It holds of the points of a list, if the call has one. -/
theorem forall_mem_map_read_list (hregs : ∀ i, kept (regs.read i)) (points : Option (List Nat)) :
    ∀ ps ∈ points.map (List.map regs.read), ∀ p ∈ ps, kept p := by
  intro ps hps
  obtain ⟨is, -, rfl⟩ := Option.map_eq_some_iff.mp hps
  exact forall_mem_map_read hregs is

/-- It holds of the points that a call does not leave out. -/
theorem forall_mem_map_read_option (hregs : ∀ i, kept (regs.read i))
    (points : List (Option Nat)) :
    ∀ point ∈ points.map (Option.map regs.read), ∀ p ∈ point, kept p := by
  intro point hpoint p hp
  obtain ⟨i, -, rfl⟩ := List.mem_map.mp hpoint
  obtain ⟨i, -, rfl⟩ := Option.map_eq_some_iff.mp hp
  exact hregs i

/-- A point that a call gives is the result of its sum. -/
theorem eq_ok_of_map_some {sum : Except BatchError Point} {p : Point}
    (h : sum.map some = .ok (some p)) : sum = .ok p := by
  obtain ⟨q, hq, hsome⟩ := Batch.exists_of_map_eq_ok h
  rw [hq, Option.some.inj hsome]

/-- **A call on valid points gives a valid point**, if it gives one. -/
theorem valid_of_value (hregs : ∀ i, (regs.read i).Valid) {call : BatchCall} {p : Point}
    (h : call.value regs = .ok (some p)) : p.Valid := by
  have huniform : ∀ ts : List Term, (∀ term ∈ ts, term.point.Valid) → (Uniform.sum ts).Valid :=
    fun _ => SumMethod.sum_valid .uniform
  have hvartime : ∀ ts : List Term, (∀ term ∈ ts, term.point.Valid) →
      (Batch.sumVartime ts).Valid := fun _ => SumMethod.sum_valid .vartime
  have hwhole : ∀ points : List Nat, ∀ ps ∈ some (points.map regs.read), ∀ p ∈ ps, p.Valid := by
    rintro points _ ⟨⟩
    exact forall_mem_map_read hregs points
  cases call with
  | mul scalars points =>
    obtain ⟨-, -, hsum⟩ := Batch.exists_of_bind_eq_ok (eq_ok_of_map_some h)
    exact Batch.sumFirst_valid huniform (hwhole points) hsum
  | mulVartime scalars points =>
    obtain ⟨-, -, hsum⟩ := Batch.exists_of_bind_eq_ok (eq_ok_of_map_some h)
    exact Batch.sumFirst_valid hvartime (hwhole points) hsum
  | mulWith algorithm scalars points =>
    obtain ⟨-, -, hterms⟩ := Batch.exists_of_bind_eq_ok (eq_ok_of_map_some h)
    obtain ⟨ts, hts, hsum⟩ := Batch.exists_of_bind_eq_ok hterms
    obtain rfl := Except.ok.inj hsum
    exact algorithm.sum_valid (Batch.forall_mem_flatten (forall_mem_map_read hregs points) hts)
  | mulFirst n scalars points =>
    exact Batch.sumFirst_valid huniform (forall_mem_map_read_list hregs points)
      (eq_ok_of_map_some h)
  | mulFirstVartime n scalars points =>
    exact Batch.sumFirst_valid hvartime (forall_mem_map_read_list hregs points)
      (eq_ok_of_map_some h)
  | mulOptional scalars points =>
    obtain ⟨-, -, hcount⟩ := Batch.exists_of_bind_eq_ok h
    obtain ⟨-, -, hsum⟩ := Batch.exists_of_bind_eq_ok hcount
    have hvalid := Batch.sumPresent_valid
      (Batch.forall_mem_zip (scalars.map Scalar.toOctets) (forall_mem_map_read_option hregs points))
    have hsome := Except.ok.inj hsum
    generalize Batch.sumPresent _ = sum at hvalid hsome
    obtain rfl := Option.some.inj (Option.ite_none_right_eq_some.mp hsome).2
    exact hvalid

section Laws

variable {M : Machine} (hM : M.Faithful)

/-- A sum that runs on the machine runs on a whole batch. -/
theorem mulOn_eq {sumOn : List Term → Option Point} {sum : List Term → Point}
    {scalars : List Scalar} {points : List Point} {kept : Point → Prop}
    (hsum : ∀ ts, (∀ term ∈ ts, kept term.point) → sumOn ts = some (sum ts))
    (hpoints : ∀ p ∈ points, kept p) :
    mulOn sumOn scalars points = some (do
      Batch.checkLengths scalars.length points.length
      Batch.sumFirst sum scalars.length (some scalars) (some points)) := by
  have hwhole : ∀ ps ∈ some points, ∀ p ∈ ps, kept p := by
    rintro _ ⟨⟩
    exact hpoints
  exact Batch.continueOn_eq fun _ _ => Batch.sumFirstOn_eq hsum hwhole

include hM in
theorem mulWithOn_eq (algorithm : Algorithm) {scalars : List Scalar} {points : List Point}
    (hpoints : ∀ p ∈ points, p.Small) :
    mulWithOn M algorithm scalars points = some (Batch.mulWith algorithm scalars points) := by
  refine Batch.continueOn_eq fun _ _ => Batch.continueOn_eq fun ts hts => ?_
  rw [algorithm.sumOn_eq hM (Batch.forall_mem_flatten hpoints hts)]
  rfl

include hM in
theorem mulOptionalOn_eq {scalars : List Scalar} {points : List (Option Point)}
    (hpoints : ∀ point ∈ points, ∀ p ∈ point, p.Small) :
    mulOptionalOn M scalars points = some (Batch.mulOptional scalars points) := by
  refine Batch.continueOn_eq fun _ _ => Batch.continueOn_eq fun _ _ => ?_
  rw [Batch.sumPresentOn_eq hM (Batch.forall_mem_zip (scalars.map Scalar.toOctets) hpoints)]
  rfl

include hM in
/-- **A call runs to its end** on every faithful machine, from registers with small limbs. -/
theorem valueOn_eq (hregs : ∀ i, (regs.read i).Small) (call : BatchCall) :
    call.valueOn M regs = some (call.value regs) := by
  have huniform : ∀ ts : List Term, (∀ term ∈ ts, term.point.Small) →
      Uniform.sumOn M ts = some (Uniform.sum ts) := fun _ => Uniform.sumOn_eq hM
  have hvartime : ∀ ts : List Term, (∀ term ∈ ts, term.point.Small) →
      Batch.sumVartimeOn M ts = some (Batch.sumVartime ts) := fun _ => Batch.sumVartimeOn_eq hM
  cases call with
  | mul scalars points =>
    rw [valueOn, mulOn_eq huniform (forall_mem_map_read hregs points)]
    rfl
  | mulVartime scalars points =>
    rw [valueOn, mulOn_eq hvartime (forall_mem_map_read hregs points)]
    rfl
  | mulWith algorithm scalars points =>
    rw [valueOn, mulWithOn_eq hM algorithm (forall_mem_map_read hregs points)]
    rfl
  | mulFirst n scalars points =>
    rw [valueOn, Batch.sumFirstOn_eq huniform (forall_mem_map_read_list hregs points)]
    rfl
  | mulFirstVartime n scalars points =>
    rw [valueOn, Batch.sumFirstOn_eq hvartime (forall_mem_map_read_list hregs points)]
    rfl
  | mulOptional scalars points =>
    exact mulOptionalOn_eq hM (forall_mem_map_read_option hregs points)

end Laws

end BatchCall

end TwistedEdwards
