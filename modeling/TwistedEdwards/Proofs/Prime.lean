import Mathlib.Data.List.Prime
import Mathlib.FieldTheory.Finite.Basic
import Mathlib.NumberTheory.LucasPrimality
import Mathlib.Tactic.NormNum.Prime
import TwistedEdwards.Field.Basic
import TwistedEdwards.Scalar.Basic

/-!
# The orders of the field and of the base point are prime

Lucas's test proves `p` prime from a number whose power `p - 1` is one modulo
`p` while its powers `(p - 1) / q` are not, for every prime `q` that divides
`p - 1`.  The primes of `p - 1` are certified in the same way, down to numbers
small enough for trial division.

Powers are taken by squaring, so that the kernel evaluates each condition in a
few hundred products.

Main statements: `fieldOrder_prime`, `groupOrder_prime`, and `pow_sub_two`, inverses modulo a
prime as powers.
-/

namespace TwistedEdwards

/-- `a ^ n` modulo `m`, from the `bits` low bits of `n` by squaring. -/
def powMod (m : Nat) : (bits a n : Nat) → Nat
  | 0, _, _ => 1 % m
  | bits + 1, a, n =>
    let rest := powMod m bits (a * a % m) (n / 2)
    if n % 2 = 1 then rest * a % m else rest

/-- Squaring computes the power once every bit of the exponent is looked at. -/
theorem powMod_eq (m : Nat) {bits n : Nat} (a : Nat) (hn : n < 2 ^ bits) :
    powMod m bits a n = a ^ n % m := by
  induction bits generalizing a n with
  | zero =>
      have hzero : n = 0 := by simpa using hn
      simp [powMod, hzero]
  | succ bits ih =>
      have hhalf : n / 2 < 2 ^ bits := by
        rw [Nat.pow_succ] at hn
        omega
      have hsquare : (a * a % m) ^ (n / 2) % m = a ^ (2 * (n / 2)) % m := by
        rw [← Nat.pow_mod, Nat.pow_mul, Nat.pow_two]
      simp only [powMod]
      rw [ih (a * a % m) hhalf, hsquare]
      split
      · next hodd =>
        have hsplit : n = 2 * (n / 2) + 1 := by omega
        rw [Nat.mod_mul_mod, ← Nat.pow_succ]
        exact congrArg (fun e => a ^ e % m) hsplit.symm
      · next heven =>
        have hsplit : n = 2 * (n / 2) := by omega
        rw [← hsplit]

/-- A power is one in `ZMod p` when squaring says so. -/
theorem natCast_pow_eq_one_iff {p : Nat} (hp : 2 ≤ p) (a : Nat) {bits n : Nat}
    (hn : n < 2 ^ bits) :
    (a : ZMod p) ^ n = 1 ↔ powMod p bits a n = 1 := by
  have hone : 1 % p = 1 := Nat.mod_eq_of_lt (by omega)
  rw [powMod_eq p a hn, ← Nat.cast_pow, ← Nat.cast_one, ZMod.natCast_eq_natCast_iff', hone]

/-- What Lucas's test asks of `p`, of a base `a` and of the primes of `p - 1`, each listed as
often as it divides. -/
def LucasTest (p a : Nat) (factors : List Nat) : Prop :=
  2 ≤ p ∧ p < 2 ^ 256 ∧ factors.prod = p - 1 ∧ powMod p 256 a (p - 1) = 1 ∧
    ∀ q ∈ factors, powMod p 256 a ((p - 1) / q) ≠ 1

instance (p a : Nat) (factors : List Nat) : Decidable (LucasTest p a factors) := by
  unfold LucasTest; infer_instance

/-- A number that passes the test with prime factors is prime. -/
theorem LucasTest.prime {p a : Nat} {factors : List Nat} (h : LucasTest p a factors)
    (hprime : ∀ q ∈ factors, q.Prime) : p.Prime := by
  obtain ⟨htwo, hsize, hprod, hfull, hpart⟩ := h
  refine lucas_primality p (a : ZMod p) ?_ ?_
  · exact (natCast_pow_eq_one_iff htwo a (by omega)).mpr hfull
  · intro q hq hdvd
    rw [← hprod] at hdvd
    obtain ⟨r, hr, hqr⟩ := (Prime.dvd_prod_iff hq.prime).mp hdvd
    obtain rfl : q = r := (Nat.prime_dvd_prime_iff_eq hq (hprime r hr)).mp hqr
    have hlt : (p - 1) / q < 2 ^ 256 := by
      have hle := Nat.div_le_self (p - 1) q
      omega
    rw [ne_eq, natCast_pow_eq_one_iff htwo a hlt]
    exact hpart q hr

/-- By Fermat's theorem the power `p - 2` is the inverse, and zero for zero. -/
theorem pow_sub_two {p : Nat} [Fact p.Prime] (hp : p - 2 ≠ 0) (x : ZMod p) :
    x ^ (p - 2) = x⁻¹ := by
  by_cases hx : x = 0
  · rw [hx, inv_zero]
    exact zero_pow hp
  · apply eq_inv_of_mul_eq_one_left
    rw [← pow_succ, show p - 2 + 1 = p - 1 by omega]
    exact ZMod.pow_card_sub_one_eq_one hx

/-- The order and the large primes that its certificate descends to, each with the primes of the
number less one. -/
private theorem fieldOrder_tests :
    LucasTest 2773320623 5 [2, 2437, 569003] ∧
      LucasTest 72106336199 7 [2, 13, 2773320623] ∧
      LucasTest 31757755568855353 10 [2, 2, 2, 3, 31, 107, 223, 4153, 430751] ∧
      LucasTest 1919519569386763 2 [2, 3, 7, 19, 47, 47, 127, 8574133] ∧
      LucasTest 75445702479781427272750846543864801 7
        [2, 2, 2, 2, 2, 3, 3, 5, 5, 75707, 72106336199, 1919519569386763] ∧
      LucasTest 74058212732561358302231226437062788676166966415465897661863160754340907 2
        [2, 3, 353, 57467, 132049, 1923133, 31757755568855353,
          75445702479781427272750846543864801] ∧
      LucasTest fieldOrder 2
        [2, 2, 3, 65147,
          74058212732561358302231226437062788676166966415465897661863160754340907] := by
  decide +kernel

/-- The order of the field is prime. -/
theorem fieldOrder_prime : Nat.Prime fieldOrder := by
  obtain ⟨t1, t2, t3, t4, t5, t6, htest⟩ := fieldOrder_tests
  have p1 := t1.prime (by simp only [List.forall_mem_cons]; norm_num)
  have p2 := t2.prime (by simp only [List.forall_mem_cons, p1]; norm_num)
  have p3 := t3.prime (by simp only [List.forall_mem_cons]; norm_num)
  have p4 := t4.prime (by simp only [List.forall_mem_cons]; norm_num)
  have p5 := t5.prime (by simp only [List.forall_mem_cons, p2, p4]; norm_num)
  have p6 := t6.prime (by simp only [List.forall_mem_cons, p3, p5]; norm_num)
  exact htest.prime (by simp only [List.forall_mem_cons, p6]; norm_num)

instance : Fact (Nat.Prime fieldOrder) := ⟨fieldOrder_prime⟩

/-- The order and the large primes that its certificate descends to, each with the primes of the
number less one. -/
private theorem groupOrder_tests :
    LucasTest 292386187 2 [2, 3, 3, 3, 3, 307, 5879] ∧
      LucasTest 213441916511 13 [2, 5, 73, 292386187] ∧
      LucasTest 1257559732178653 2 [2, 2, 3, 7, 23, 531581, 1224481] ∧
      LucasTest 4434155615661930479 17 [2, 41, 43, 1257559732178653] ∧
      LucasTest 172054593956031949258510691 2 [2, 5, 1361, 2851, 4434155615661930479] ∧
      LucasTest 19757330305831588566944191468367130476339 2
        [2, 269, 213441916511, 172054593956031949258510691] ∧
      LucasTest 276602624281642239937218680557139826668747 2
        [2, 7, 19757330305831588566944191468367130476339] ∧
      LucasTest 3044861653679985063343 5 [2, 3, 11, 30703, 82163, 132667, 137849] ∧
      LucasTest 198211423230930754013084525763697 5
        [2, 2, 2, 2, 3, 23, 58964693, 3044861653679985063343] ∧
      LucasTest groupOrder 2
        [2, 2, 3, 11, 198211423230930754013084525763697,
          276602624281642239937218680557139826668747] := by
  decide +kernel

/-- The order of the base point is prime. -/
theorem groupOrder_prime : Nat.Prime groupOrder := by
  obtain ⟨t1, t2, t3, t4, t5, t6, t7, t8, t9, htest⟩ := groupOrder_tests
  have p1 := t1.prime (by simp only [List.forall_mem_cons]; norm_num)
  have p2 := t2.prime (by simp only [List.forall_mem_cons, p1]; norm_num)
  have p3 := t3.prime (by simp only [List.forall_mem_cons]; norm_num)
  have p4 := t4.prime (by simp only [List.forall_mem_cons, p3]; norm_num)
  have p5 := t5.prime (by simp only [List.forall_mem_cons, p4]; norm_num)
  have p6 := t6.prime (by simp only [List.forall_mem_cons, p2, p5]; norm_num)
  have p7 := t7.prime (by simp only [List.forall_mem_cons, p6]; norm_num)
  have p8 := t8.prime (by simp only [List.forall_mem_cons]; norm_num)
  have p9 := t9.prime (by simp only [List.forall_mem_cons, p8]; norm_num)
  exact htest.prime (by simp only [List.forall_mem_cons, p7, p9]; norm_num)

instance : Fact (Nat.Prime groupOrder) := ⟨groupOrder_prime⟩

end TwistedEdwards
