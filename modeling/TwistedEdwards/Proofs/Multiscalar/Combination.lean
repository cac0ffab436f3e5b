import Mathlib.Algebra.BigOperators.GroupWithZero.Action
import Mathlib.Algebra.Module.BigOperators
import TwistedEdwards.Multiscalar.Uniform
import TwistedEdwards.Proofs.Digits.Value
import TwistedEdwards.Proofs.Point.Validity

/-!
# Combinations of points

Every way of summing multiples goes through positions from the top down.  A position
scales the accumulator and adds for each term a multiple by a digit, so a run makes the
combination of the points with the numbers that the digits stand for.

Main statements: `Multiscalar.foldl_denotes`, what the terms of one position add, and
`Multiscalar.run_denotes`, what a run of positions gives.
-/

namespace TwistedEdwards

namespace Multiscalar

/-- The sum of the terms' points, each times a number that depends on its scalar. -/
def combination (number : Octets 32 → Int) (terms : List Term) : AffinePoint :=
  (terms.map fun term => number term.scalar • term.point.toAffine).sum

/-- The first term is added to the combination of the rest. -/
theorem combination_cons (number : Octets 32 → Int) (term : Term) (rest : List Term) :
    combination number (term :: rest) =
      number term.scalar • term.point.toAffine + combination number rest := by
  rw [combination, List.map_cons, List.sum_cons, combination]

theorem combination_singleton (number : Octets 32 → Int) (term : Term) :
    combination number [term] = number term.scalar • term.point.toAffine := by
  rw [combination, List.map_singleton, List.sum_singleton]

theorem combination_replicate (number : Octets 32 → Int) (n : Nat) (term : Term) :
    combination number (List.replicate n term) =
      (n * number term.scalar : Int) • term.point.toAffine := by
  rw [combination, List.map_replicate, List.sum_replicate, mul_smul, natCast_zsmul]

/-- Numbers that agree on the scalars give the same combination. -/
theorem combination_congr {number number' : Octets 32 → Int} {terms : List Term}
    (h : ∀ term ∈ terms, number term.scalar = number' term.scalar) :
    combination number terms = combination number' terms := by
  unfold combination
  congr 1
  apply List.map_congr_left
  intro term hterm
  rw [h term hterm]

/-- Weighted sums of multiples add up to the sum of the multiples by the weighted sums. -/
theorem sum_smul_sum_map {ι G : Type} [AddCommGroup G] (weight : Nat → Nat) (n : Nat)
    (number : ι → Nat → Int) (point : ι → G) (items : List ι) :
    ∑ i ∈ Finset.range n, weight i • (items.map fun t => number t i • point t).sum =
      (items.map fun t =>
        (∑ i ∈ Finset.range n, (weight i : Int) * number t i) • point t).sum := by
  induction items with
  | nil => simp
  | cons t rest ih =>
      have hscale : ∀ i ∈ Finset.range n,
          weight i • ((t :: rest).map fun t => number t i • point t).sum =
            ((weight i : Int) * number t i) • point t +
              weight i • (rest.map fun t => number t i • point t).sum := by
        intro i _
        rw [List.map_cons, List.sum_cons, smul_add, mul_smul, natCast_zsmul]
      rw [Finset.sum_congr rfl hscale, Finset.sum_add_distrib, ih, ← Finset.sum_smul,
        List.map_cons, List.sum_cons]

/-- Weighted combinations with the digits of each position add up to the combination with the
weighted sums of the digits. -/
theorem sum_combination (weight : Nat → Nat) (n : Nat) (digit : Octets 32 → Nat → Int)
    (terms : List Term) :
    ∑ i ∈ Finset.range n, weight i • combination (fun scalar => digit scalar i) terms =
      combination (fun scalar => ∑ i ∈ Finset.range n, (weight i : Int) * digit scalar i)
        terms :=
  sum_smul_sum_map weight n (fun term : Term => digit term.scalar)
    (fun term => term.point.toAffine) terms

/-- The weights of the positions of an expansion are powers of the radix. -/
theorem sum_pow_combination (radix n : Nat) (digit : Octets 32 → Nat → Int) (terms : List Term) :
    ∑ i ∈ Finset.range n, radix ^ i • combination (fun scalar => digit scalar i) terms =
      combination (fun scalar => ∑ i ∈ Finset.range n, (radix : Int) ^ i * digit scalar i)
        terms := by
  rw [sum_combination (fun i => radix ^ i)]
  simp only [Nat.cast_pow]

/-- The terms of one position add their combination. -/
theorem foldl_denotes {add : Point → Term → Point} {number : Octets 32 → Int} {terms : List Term}
    (hadd : ∀ term ∈ terms, ∀ acc A, acc.Denotes A →
      (add acc term).Denotes (A + number term.scalar • term.point.toAffine))
    {acc : Point} {A : AffinePoint} (hacc : acc.Denotes A) :
    (terms.foldl add acc).Denotes (A + combination number terms) := by
  induction terms generalizing acc A with
  | nil =>
      rw [combination, List.map_nil, List.sum_nil, add_zero]
      exact hacc
  | cons term rest ih =>
      have hfirst := hadd term List.mem_cons_self acc A hacc
      have hrest := ih (fun t ht => hadd t (List.mem_cons_of_mem term ht)) hfirst
      rw [combination_cons, ← add_assoc]
      exact hrest

/-- The doublings of a position are left out at the top only, where the accumulator is neutral. -/
theorem doubled_denotes {acc : Point} {A : AffinePoint} (hacc : acc.Denotes A) (k : Nat)
    {top : Prop} [Decidable top] (htop : top → A = 0) :
    (if top then acc else acc.doubleTimes k).Denotes (2 ^ k • A) := by
  by_cases hlast : top
  · rw [htop hlast] at hacc ⊢
    rw [if_pos hlast, smul_zero]
    exact hacc
  · rw [if_neg hlast]
    exact hacc.doubleTimes k

/-- A run of positions from the top down, each of which scales the accumulator and adds. -/
theorem foldRev_denotes {step : Nat → Point → Point} {added : Nat → AffinePoint} {radix n : Nat}
    (hstep : ∀ pos < n, ∀ acc A, acc.Denotes A → (step pos acc).Denotes (radix • A + added pos))
    {acc : Point} {A : AffinePoint} (hacc : acc.Denotes A) :
    (n.foldRev (fun pos _ acc => step pos acc) acc).Denotes
      (radix ^ n • A + ∑ i ∈ Finset.range n, radix ^ i • added i) := by
  induction n generalizing acc A with
  | zero =>
      rw [Nat.foldRev_zero, Nat.pow_zero, one_smul, Finset.sum_range_zero, add_zero]
      exact hacc
  | succ n ih =>
      have htop := hstep n (Nat.lt_succ_self n) acc A hacc
      have hrest := ih (fun pos hpos => hstep pos (Nat.lt_succ_of_lt hpos)) htop
      rw [Nat.foldRev_succ, Finset.sum_range_succ, Nat.pow_succ, mul_smul]
      rw [smul_add, add_assoc, add_comm (radix ^ n • added n)] at hrest
      exact hrest

/-- **A run of positions** from the neutral element down makes the combination with the numbers of
the expansions.  At the top position the accumulator is still neutral. -/
theorem run_denotes (radix n : Nat) {step : Nat → Point → Point} {digit : Octets 32 → Nat → Int}
    {terms : List Term}
    (hstep : ∀ pos < n, ∀ acc A, acc.Denotes A → (pos + 1 = n → A = 0) →
      (step pos acc).Denotes (radix • A + combination (fun scalar => digit scalar pos) terms)) :
    (n.foldRev (fun pos _ acc => step pos acc) Point.identity).Denotes (combination
      (fun scalar => ∑ i ∈ Finset.range n, (radix : Int) ^ i * digit scalar i) terms) := by
  rw [← sum_pow_combination]
  cases n with
  | zero => exact Point.identity_denotes
  | succ top =>
      have hfirst := hstep top (Nat.lt_succ_self top) _ _ Point.identity_denotes (fun _ => rfl)
      rw [smul_zero, zero_add] at hfirst
      have hbelow : ∀ pos < top, ∀ acc A, acc.Denotes A → (step pos acc).Denotes
          (radix • A + combination (fun scalar => digit scalar pos) terms) :=
        fun pos hpos acc A hacc =>
          hstep pos (Nat.lt_succ_of_lt hpos) acc A hacc (fun hlast => by omega)
      have hrun := foldRev_denotes hbelow hfirst
      rw [add_comm, ← Finset.sum_range_succ] at hrun
      rw [Nat.foldRev_succ]
      exact hrun

end Multiscalar

end TwistedEdwards
