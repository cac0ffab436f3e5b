import TwistedEdwards.Word.LittleEndian
import TwistedEdwards.Digits.Basic

/-!
# Radix 16 with centred digits

The 64 nibbles of 32 bytes become digits from -7 to 8: a digit above eight is
lowered by sixteen and carries one into the next.  The top digit takes the last
carry as it is, so the expansion always stands for the whole number.  The carry is the
sign bit of a difference of 32-bit words, so that no step branches on a digit.

Main statements: `Digits.carryOut_eq`, what the sign bit says of a digit, and
`Digits.value_recenter`, recentring keeps the number.
-/

namespace TwistedEdwards

namespace Digits

/-- The nibbles of a byte string, least significant first. -/
def nibbles (bs : List UInt8) : List Int :=
  bs.flatMap fun (b : UInt8) => [((b &&& 15).toNat : Int), ((b >>> 4).toNat : Int)]

/-- The sign bit of `8 - d`, both taken as 32-bit words. -/
def carryOut (d : Int) : Int := ((UInt32.ofInt (8 - d) >>> 31 &&& 1).toNat : Int)

/-- Centres every digit but the last. -/
def recenter : (carry : Int) → List Int → List Int
  | _, [] => []
  | carry, [top] => [top + carry]
  | carry, d :: rest =>
    let v := d + carry
    (v - 16 * carryOut v) :: recenter (carryOut v) rest

/-- The 64 digits of a 256-bit number. -/
def radix16 (bs : Octets 32) : List Int := recenter 0 (nibbles bs.toList)

/-- A number as a 32-bit word is the number modulo `2 ^ 32`. -/
theorem toNat_ofInt (d : Int) : (UInt32.ofInt d).toNat = (d % 2 ^ 32).toNat := by
  simp only [UInt32.ofInt, UInt32.toNat_ofNat']
  omega

/-- The sign bit is set from nine up. -/
theorem carryOut_eq {d : Int} (hd : -2 ^ 7 ≤ d ∧ d < 2 ^ 7) :
    carryOut d = if 8 < d then 1 else 0 := by
  have hbit : carryOut d = (((8 - d) % 2 ^ 32).toNat / 2 ^ 31 % 2 : Nat) := by
    rw [carryOut, UInt32.toNat_and, UInt32.toNat_shiftRight, toNat_ofInt, Nat.shiftRight_eq_div_pow]
    exact congrArg Nat.cast (Nat.and_two_pow_sub_one_eq_mod _ 1)
  rw [hbit]
  split <;> omega

/-- Recentring keeps the number, whatever is carried. -/
theorem value_recenter (carry : Int) (digits : List Int) (hne : digits ≠ []) :
    value 16 (recenter carry digits) = value 16 digits + carry := by
  induction digits generalizing carry with
  | nil => exact absurd rfl hne
  | cons d rest ih =>
    cases rest with
    | nil => simp only [recenter, value]; omega
    | cons e rest =>
      have hrest := ih (carryOut (d + carry)) (by simp)
      simp only [recenter, value] at hrest ⊢
      rw [hrest]
      omega

theorem length_recenter (carry : Int) (digits : List Int) :
    (recenter carry digits).length = digits.length := by
  induction digits generalizing carry with
  | nil => rfl
  | cons d rest ih =>
    cases rest with
    | nil => rfl
    | cons e rest => simp [recenter, ih]

end Digits

end TwistedEdwards
