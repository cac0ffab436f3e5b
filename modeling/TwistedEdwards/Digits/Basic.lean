import TwistedEdwards.Word.Bits

/-!
# Digit expansions

A multiplication walks through the digits of a scalar.  An expansion is a list of
signed digits, least significant first; `value` is the number it stands for.
Digits are stored in rows of small integers, which read as zero past their end.

Main statement: `Digits.value_append`, an expansion splits anywhere.
-/

namespace TwistedEdwards

namespace Digits

/-- The number that an expansion in the given radix stands for. -/
def value (radix : Int) : List Int → Int
  | [] => 0
  | d :: rest => d + radix * value radix rest

theorem value_append (radix : Int) (low high : List Int) :
    value radix (low ++ high) = value radix low + radix ^ low.length * value radix high := by
  induction low with
  | nil => simp [value]
  | cons d rest ih =>
    simp only [List.cons_append, value, ih, List.length_cons, Int.pow_succ]
    grind

/-- Zeros stand for zero. -/
theorem value_eq_zero (radix : Int) {digits : List Int} (h : ∀ d ∈ digits, d = 0) :
    value radix digits = 0 := by
  induction digits with
  | nil => rfl
  | cons d rest ih =>
    rw [List.forall_mem_cons] at h
    rw [value, h.1, ih h.2, Int.mul_zero, Int.add_zero]

/-- Why a digit width is refused. -/
inductive WidthError where
  | nonAdjacentForm
  | signedWindows
deriving DecidableEq

namespace WidthError

def message : WidthError → String
  | nonAdjacentForm => "NAF width must be between 2 and 8"
  | signedWindows => "radix-2^w window must be between 6 and 11"

end WidthError

end Digits

/-- A row of digits in a byte each. -/
abbrev ByteRow := Array Int8

/-- A row of digits in two bytes each. -/
abbrev ShortRow := Array Int16

/-- The row of an expansion with small digits. -/
def ByteRow.ofDigits (digits : List Int) : ByteRow := (digits.map Int.toInt8).toArray

/-- Digit `i`, zero past the end. -/
def ByteRow.digit (row : ByteRow) (i : Nat) : Int := (row.getD i 0).toInt

/-- The digits of a row. -/
def ByteRow.toDigits (row : ByteRow) : List Int := row.toList.map Int8.toInt

/-- The row of an expansion with small digits. -/
def ShortRow.ofDigits (digits : List Int) : ShortRow := (digits.map Int.toInt16).toArray

/-- Digit `i`, zero past the end. -/
def ShortRow.digit (row : ShortRow) (i : Nat) : Int := (row.getD i 0).toInt

/-- The digits of a row. -/
def ShortRow.toDigits (row : ShortRow) : List Int := row.toList.map Int16.toInt

/-- The number of digits up to the highest one that is not zero, among the first `n`. -/
def ByteRow.significant (row : ByteRow) : (n : Nat) → Nat
  | 0 => 0
  | n + 1 => if row.digit n = 0 then row.significant n else n + 1

/-- No digit is looked for past the end. -/
theorem ByteRow.significant_le (row : ByteRow) (n : Nat) : row.significant n ≤ n := by
  induction n with
  | zero => exact Nat.le_refl 0
  | succ n ih =>
    simp only [significant]
    split <;> omega

/-- Every digit from the significant ones up is zero. -/
theorem ByteRow.digit_eq_zero_of_significant_le (row : ByteRow) {n i : Nat}
    (hlow : row.significant n ≤ i) (hi : i < n) : row.digit i = 0 := by
  induction n with
  | zero => omega
  | succ n ih =>
    simp only [significant] at hlow
    split at hlow
    · next hzero =>
      by_cases hin : i = n
      · rw [hin]; exact hzero
      · exact ih hlow (by omega)
    · omega

/-- Nothing is significant exactly where every digit is zero. -/
theorem ByteRow.significant_eq_zero_iff (row : ByteRow) (n : Nat) :
    row.significant n = 0 ↔ ∀ i < n, row.digit i = 0 := by
  constructor
  · intro hnone i hi
    exact row.digit_eq_zero_of_significant_le (by omega) hi
  · intro hzero
    induction n with
    | zero => rfl
    | succ n ih =>
      rw [significant, if_pos (hzero n (Nat.lt_succ_self n))]
      exact ih fun i hi => hzero i (Nat.lt_succ_of_lt hi)

end TwistedEdwards
