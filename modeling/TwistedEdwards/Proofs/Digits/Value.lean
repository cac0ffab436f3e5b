import Mathlib.Algebra.BigOperators.Ring.Finset
import Mathlib.Algebra.Order.Ring.Int
import Mathlib.Tactic.Linarith
import Mathlib.Tactic.Ring
import TwistedEdwards.Digits.Basic

/-!
# Values of expansions

An expansion stands for the sum of its digits times the powers of the radix, and a bound
on the digits is a bound on that number.  A row keeps every digit that fits its integers.

Main statements: `Digits.value_eq_sum`, `Digits.le_value`, `Digits.value_le`,
`Digits.map_stored` and `Digits.getD_stored`.
-/

namespace TwistedEdwards

namespace Digits

/-- What holds of zero and of every digit holds of what is read at any place. -/
theorem forall_getD {property : Int → Prop} (hzero : property 0) {digits : List Int}
    (h : ∀ d ∈ digits, property d) (i : Nat) : property (digits.getD i 0) := by
  rw [List.getD_eq_getElem?_getD]
  cases hdigit : digits[i]? with
  | none => exact hzero
  | some d => exact h d (List.mem_of_getElem? hdigit)

theorem value_eq_sum (radix : Int) (digits : List Int) :
    value radix digits = ∑ i ∈ Finset.range digits.length, radix ^ i * digits.getD i 0 := by
  induction digits with
  | nil => rfl
  | cons d rest ih =>
      have hshift : ∀ i ∈ Finset.range rest.length,
          radix ^ (i + 1) * (d :: rest).getD (i + 1) 0 = radix * (radix ^ i * rest.getD i 0) := by
        intro i _
        rw [Int.pow_succ, List.getD_cons_succ]
        ring
      rw [value, ih, List.length_cons, Finset.sum_range_succ', Finset.sum_congr rfl hshift,
        ← Finset.mul_sum, List.getD_cons_zero, Int.pow_zero]
      ring

/-- Digits from `b` up make a number from `b` times `1 + radix + ...` up. -/
theorem le_value {radix b : Int} (hradix : 1 ≤ radix) {digits : List Int}
    (h : ∀ d ∈ digits, b ≤ d) :
    b * (radix ^ digits.length - 1) ≤ (radix - 1) * value radix digits := by
  induction digits with
  | nil => simp [value]
  | cons d rest ih =>
      have hd : b ≤ d := h d List.mem_cons_self
      have hrest := ih (fun e he => h e (List.mem_cons_of_mem d he))
      have hscaled := mul_le_mul_of_nonneg_left hrest (by omega : 0 ≤ radix)
      have hfirst := mul_le_mul_of_nonneg_left hd (by omega : 0 ≤ radix - 1)
      rw [value, List.length_cons, Int.pow_succ]
      linarith

/-- Digits of the other sign make a number of the other sign. -/
theorem value_map_neg (radix : Int) (digits : List Int) :
    value radix (digits.map Neg.neg) = -value radix digits := by
  induction digits with
  | nil => rfl
  | cons d rest ih =>
      rw [List.map_cons, value, value, ih]
      ring

/-- Digits up to `b` make a number up to `b` times `1 + radix + ...`. -/
theorem value_le {radix b : Int} (hradix : 1 ≤ radix) {digits : List Int}
    (h : ∀ d ∈ digits, d ≤ b) :
    (radix - 1) * value radix digits ≤ b * (radix ^ digits.length - 1) := by
  have hneg : ∀ d ∈ digits.map Neg.neg, -b ≤ d :=
    List.forall_mem_map.mpr fun d hd => neg_le_neg (h d hd)
  have hle := le_value hradix hneg
  rw [List.length_map, value_map_neg] at hle
  linarith

/-- A quarter of a window, as a natural number and as an integer. -/
theorem exists_quarter {w : Nat} (hw : 2 ≤ w) : ∃ quarter : Nat, 0 < quarter ∧
    2 ^ (w - 1) = 2 * quarter ∧ 2 ^ w = 4 * quarter ∧
      (2 : Int) ^ (w - 1) = 2 * quarter ∧ (2 : Int) ^ w = 4 * quarter := by
  obtain ⟨k, rfl⟩ : ∃ k, w = k + 2 := ⟨w - 2, by omega⟩
  have hhalf : 2 ^ (k + 2 - 1) = 2 * 2 ^ k := Nat.pow_succ'
  have hwhole : 2 ^ (k + 2) = 4 * 2 ^ k := by
    rw [Nat.pow_succ', Nat.pow_succ']
    omega
  exact ⟨2 ^ k, Nat.two_pow_pos k, hhalf, hwhole, by exact_mod_cast hhalf,
    by exact_mod_cast hwhole⟩

section Rows

variable {α : Type} {store : Int → α} {load : α → Int} {digits : List Int}
  (hkept : ∀ d ∈ digits, load (store d) = d)
include hkept

/-- Digits that are kept one by one are kept in a row. -/
theorem map_stored : (digits.map store).map load = digits := by
  rw [List.map_map]
  exact (List.map_congr_left hkept).trans (List.map_id digits)

/-- Reading past the end of a row gives zero, as it does past the end of the digits. -/
theorem getD_stored {zero : α} (hzero : load zero = 0) (i : Nat) :
    load ((digits.map store).toArray.getD i zero) = digits.getD i 0 := by
  rw [Array.getD_eq_getD_getElem?, List.getElem?_toArray, List.getElem?_map,
    List.getD_eq_getElem?_getD]
  cases hdigit : digits[i]? with
  | none => exact hzero
  | some d => exact hkept d (List.mem_of_getElem? hdigit)

end Rows

end Digits

namespace ByteRow

variable {digits : List Int} (h : ∀ d ∈ digits, -2 ^ 7 ≤ d ∧ d < 2 ^ 7)
include h

/-- A digit that fits a byte is stored as it is. -/
theorem kept : ∀ d ∈ digits, d.toInt8.toInt = d :=
  fun d hd => Int8.toInt_ofInt_of_le (h d hd).1 (h d hd).2

/-- Digits that fit a byte are kept. -/
theorem digit_ofDigits (i : Nat) : (ofDigits digits).digit i = digits.getD i 0 :=
  Digits.getD_stored (kept h) rfl i

/-- The row of digits that fit a byte has these digits. -/
theorem toDigits_ofDigits : (ofDigits digits).toDigits = digits :=
  Digits.map_stored (kept h)

end ByteRow

namespace ShortRow

variable {digits : List Int} (h : ∀ d ∈ digits, -2 ^ 15 ≤ d ∧ d < 2 ^ 15)
include h

/-- A digit that fits two bytes is stored as it is. -/
theorem kept : ∀ d ∈ digits, d.toInt16.toInt = d :=
  fun d hd => Int16.toInt_ofInt_of_le (h d hd).1 (h d hd).2

/-- Digits that fit two bytes are kept. -/
theorem digit_ofDigits (i : Nat) : (ofDigits digits).digit i = digits.getD i 0 :=
  Digits.getD_stored (kept h) rfl i

/-- The row of digits that fit two bytes has these digits. -/
theorem toDigits_ofDigits : (ofDigits digits).toDigits = digits :=
  Digits.map_stored (kept h)

end ShortRow

end TwistedEdwards
