import Mathlib.Tactic.LinearCombination
import TwistedEdwards.Digits.Window
import TwistedEdwards.Proofs.Digits.Value
import TwistedEdwards.Proofs.Word.Window

/-!
# Signed windows

Each window with the carry that comes in gives a digit between `-2 ^ (w - 1)` and
`2 ^ (w - 1) - 1` and a carry into the next, so the digits stand for the number short of
the carry of the last window.  Digits in that range reach only so far up, and the last
window carries exactly when the number lies beyond.  Unless the windows end at bit 256
they reach beyond every number, and then no carry is ever lost.

Main statements: `Digits.signedWindows_range`, `Digits.value_signedWindows`,
`Digits.lastCarry_eq_zero_iff`, `Digits.value_signedWindows_eq_iff` and
`Digits.lastCarry_eq_zero_of_not_dvd`.
-/

namespace TwistedEdwards

namespace Digits

variable {x : Word256} {w i : Nat} {carry : Int}

/-- The carry that `n` windows leave. -/
def carryAfter (x : Word256) (w : Nat) : (n i : Nat) → (carry : Int) → Int
  | 0, _, carry => carry
  | n + 1, i, carry =>
    carryAfter x w n (i + 1) (signedDigit w ((x.window w (i * w)).toNat + carry)).2

/-- A window and a carry give a digit of the range and a carry. -/
theorem signedDigit_range {window : Int} (hw : 1 ≤ w) (hwindow : 0 ≤ window)
    (hwindow' : window ≤ 2 ^ w) :
    -2 ^ (w - 1) ≤ (signedDigit w window).1 ∧ (signedDigit w window).1 ≤ 2 ^ (w - 1) - 1 ∧
      0 ≤ (signedDigit w window).2 ∧ (signedDigit w window).2 ≤ 1 := by
  have hhalf : (2 : Int) ^ w = 2 * 2 ^ (w - 1) := (mul_pow_sub_one (by omega) 2).symm
  have hpos : (0 : Int) < 2 ^ (w - 1) := Int.pow_pos (by decide)
  unfold signedDigit
  rw [hhalf] at hwindow' ⊢
  split
  · dsimp only
    omega
  · dsimp only
    omega

/-- One window takes its digit off the number. -/
theorem signedDigit_rest (x : Word256) (hw : w ≤ 16) (i : Nat) (carry : Int) :
    (x.toNat / 2 ^ (i * w) : Nat) + carry =
      (signedDigit w ((x.window w (i * w)).toNat + carry)).1 + 2 ^ w *
        ((x.toNat / 2 ^ ((i + 1) * w) : Nat) +
          (signedDigit w ((x.window w (i * w)).toNat + carry)).2) := by
  have hdigit := signedDigit_value w ((x.window w (i * w)).toNat + carry)
  have hdiv := Nat.div_add_mod (x.toNat / 2 ^ (i * w)) (2 ^ w)
  have hnext : x.toNat / 2 ^ (i * w) / 2 ^ w = x.toNat / 2 ^ ((i + 1) * w) := by
    rw [Nat.div_div_eq_div_mul, ← Nat.pow_add, Nat.succ_mul]
  rw [hnext, ← x.toNat_window (i * w) hw, ← Int.natCast_inj, Nat.cast_add, Nat.cast_mul,
    Nat.cast_pow] at hdiv
  linear_combination -hdiv - hdigit

/-- **A run of windows** makes up what is taken off the number. -/
theorem signedWindowsFrom_run (x : Word256) (hw : 1 ≤ w) (hw' : w ≤ 16) (n : Nat)
    (hcarry : 0 ≤ carry ∧ carry ≤ 1) :
    ((x.toNat / 2 ^ (i * w) : Nat) + carry = value (2 ^ w) (signedWindowsFrom x w n i carry) +
        (2 ^ w) ^ n * ((x.toNat / 2 ^ ((i + n) * w) : Nat) + carryAfter x w n i carry)) ∧
      (∀ d ∈ signedWindowsFrom x w n i carry, -2 ^ (w - 1) ≤ d ∧ d ≤ 2 ^ (w - 1) - 1) ∧
      0 ≤ carryAfter x w n i carry ∧ carryAfter x w n i carry ≤ 1 := by
  induction n generalizing i carry with
  | zero =>
      refine ⟨by simp [signedWindowsFrom, carryAfter, value], ?_, hcarry⟩
      intro d hd
      cases hd
  | succ n ih =>
      have hwindow : (x.window w (i * w)).toNat < 2 ^ w := by
        rw [x.toNat_window (i * w) hw']
        exact Nat.mod_lt _ (Nat.two_pow_pos w)
      have hcast : ((x.window w (i * w)).toNat : Int) + 1 ≤ 2 ^ w := by exact_mod_cast hwindow
      have hnonneg : 0 ≤ ((x.window w (i * w)).toNat : Int) + carry := by omega
      have hwidth : ((x.window w (i * w)).toNat : Int) + carry ≤ 2 ^ w := by omega
      obtain ⟨hlow, hhigh, hout⟩ := signedDigit_range hw hnonneg hwidth
      obtain ⟨hvalue, hrange, hlast⟩ := ih hout
      have hplace : i + (n + 1) = i + 1 + n := by omega
      refine ⟨?_, ?_, hlast⟩
      · rw [signedDigit_rest x hw' i carry, hvalue, hplace]
        simp only [signedWindowsFrom, carryAfter, value, Int.pow_succ]
        ring
      · intro d hd
        rcases List.mem_cons.mp hd with rfl | hd
        · exact ⟨hlow, hhigh⟩
        · exact hrange d hd

/-- The windows reach past the last bit. -/
theorem mul_windowCount (hw : 1 ≤ w) : 256 ≤ windowCount w * w := by
  have hmod := Nat.mod_lt (256 + w - 1) (by omega : 0 < w)
  have hdiv := Nat.div_add_mod (256 + w - 1) w
  rw [windowCount, Nat.mul_comm]
  omega

/-- The carry of the last window. -/
def lastCarry (w : Nat) (bs : Octets 32) : Int :=
  carryAfter (Word256.ofOctets bs) w (windowCount w) 0 0

/-- The digits with the last carry stand for the number, the digits are centred, and the carry is
zero or one. -/
theorem signedWindows_run (bs : Octets 32) (hw : 1 ≤ w) (hw' : w ≤ 16) :
    (LittleEndian.value bs.toList : Int) = value (2 ^ w) (signedWindows w bs) +
        (2 ^ w) ^ windowCount w * lastCarry w bs ∧
      (∀ d ∈ signedWindows w bs, -2 ^ (w - 1) ≤ d ∧ d ≤ 2 ^ (w - 1) - 1) ∧
      0 ≤ lastCarry w bs ∧ lastCarry w bs ≤ 1 := by
  have hcarry : (0 : Int) ≤ 0 ∧ (0 : Int) ≤ 1 := by omega
  obtain ⟨hvalue, hrange, hlast⟩ :=
    signedWindowsFrom_run (i := 0) (Word256.ofOctets bs) hw hw' (windowCount w) hcarry
  refine ⟨?_, hrange, hlast⟩
  have hnull : (Word256.ofOctets bs).toNat / 2 ^ ((0 + windowCount w) * w) = 0 := by
    apply Nat.div_eq_of_lt
    have hcover := mul_windowCount hw
    rw [Nat.zero_add]
    exact Nat.lt_of_lt_of_le (Word256.toNat_lt _) (Nat.pow_le_pow_right (by decide) hcover)
  rw [hnull, Nat.zero_mul, Nat.pow_zero, Nat.div_one, Int.add_zero, Word256.toNat_ofOctets,
    Nat.cast_zero, zero_add] at hvalue
  exact hvalue

/-- Every digit is in the range of a signed window. -/
theorem signedWindows_range (bs : Octets 32) (hw : 1 ≤ w) (hw' : w ≤ 16) :
    ∀ d ∈ signedWindows w bs, -2 ^ (w - 1) ≤ d ∧ d ≤ 2 ^ (w - 1) - 1 :=
  (signedWindows_run bs hw hw').2.1

/-- Every digit fits two bytes. -/
theorem signedWindows_fits (bs : Octets 32) (hw : 1 ≤ w) (hw' : w ≤ 16) :
    ∀ d ∈ signedWindows w bs, -2 ^ 15 ≤ d ∧ d < 2 ^ 15 := by
  intro d hd
  obtain ⟨hlow, hhigh⟩ := signedWindows_range bs hw hw' d hd
  have hroom : (2 : Int) ^ (w - 1) ≤ 2 ^ 15 := pow_le_pow_right₀ (by decide) (by omega)
  omega

/-- The digits stand for the number, short of the carry of the last window. -/
theorem value_signedWindows (bs : Octets 32) (hw : 1 ≤ w) (hw' : w ≤ 16) :
    value (2 ^ w) (signedWindows w bs) =
      LittleEndian.value bs.toList - (2 ^ w) ^ windowCount w * lastCarry w bs := by
  rw [(signedWindows_run bs hw hw').1]
  ring

/-- The last window carries exactly when the number is beyond what digits of the range reach. -/
theorem lastCarry_eq_zero_iff (bs : Octets 32) (hw : 1 ≤ w) (hw' : w ≤ 16) :
    lastCarry w bs = 0 ↔ (2 ^ w - 1) * (LittleEndian.value bs.toList : Int) ≤
      (2 ^ (w - 1) - 1) * ((2 ^ w) ^ windowCount w - 1) := by
  obtain ⟨hvalue, hrange, hlast⟩ := signedWindows_run bs hw hw'
  have hradix : (1 : Int) ≤ 2 ^ w := Int.pow_pos (by decide)
  have hleast := le_value hradix (fun d hd => (hrange d hd).1)
  have hmost := value_le hradix (fun d hd => (hrange d hd).2)
  have hlength : (signedWindows w bs).length = windowCount w := length_signedWindowsFrom _ _ _ _ _
  rw [hlength] at hleast hmost
  constructor
  · intro hzero
    rw [hvalue, hzero, Int.mul_zero, Int.add_zero]
    exact hmost
  · intro hle
    by_contra hne
    have hone : lastCarry w bs = 1 := by omega
    have hhalf : (2 : Int) ^ w = 2 * 2 ^ (w - 1) := (mul_pow_sub_one (by omega) 2).symm
    have hpos : (0 : Int) < 2 ^ (w - 1) := Int.pow_pos (by decide)
    rw [hvalue, hone] at hle
    rw [hhalf] at hle hleast
    linarith

/-- The largest number that the signed windows of 256 bits stand for. -/
def windowReach (w : Nat) : Nat :=
  (2 ^ (w - 1) - 1) * (2 ^ (w * windowCount w) - 1) / (2 ^ w - 1)

/-- Nothing is carried out of the last window exactly for the numbers that its centred digits reach.
-/
theorem lastCarry_eq_zero_iff_le (bs : Octets 32) (hw : 1 ≤ w) (hw' : w ≤ 16) :
    lastCarry w bs = 0 ↔ LittleEndian.value bs.toList ≤ windowReach w := by
  have hdigits : 1 < 2 ^ w := Nat.one_lt_two_pow (by omega)
  have hhalf : 1 ≤ 2 ^ (w - 1) := Nat.one_le_two_pow
  have hall : 1 ≤ 2 ^ (w * windowCount w) := Nat.one_le_two_pow
  rw [lastCarry_eq_zero_iff bs hw hw', windowReach, Nat.le_div_iff_mul_le (by omega), Nat.mul_comm,
    ← Int.ofNat_le, ← Int.pow_mul]
  push_cast [hdigits.le, hhalf, hall]
  rfl

/-- The digits stand for the number itself exactly where no carry is lost. -/
theorem value_signedWindows_eq_iff (bs : Octets 32) (hw : 1 ≤ w) (hw' : w ≤ 16) :
    value (2 ^ w) (signedWindows w bs) = LittleEndian.value bs.toList ↔ lastCarry w bs = 0 := by
  have hreach : (2 ^ w : Int) ^ windowCount w ≠ 0 := Int.pow_ne_zero (Int.pow_ne_zero (by decide))
  rw [value_signedWindows bs hw hw', sub_eq_self, mul_eq_zero, or_iff_right hreach]

/-- Two bits of room above the number keep the last window from carrying. -/
theorem lastCarry_eq_zero_of_lt {bs : Octets 32} (hw : 2 ≤ w) (hw' : w ≤ 16)
    (hbs : 4 * (LittleEndian.value bs.toList : Int) < (2 ^ w) ^ windowCount w) :
    lastCarry w bs = 0 := by
  rw [lastCarry_eq_zero_iff bs (by omega) hw']
  obtain ⟨quarter, hpos, -, -, hhalf, hwhole⟩ := exists_quarter hw
  -- the digits reach a little less than half of what the windows do, and a quarter is enough
  rw [hwhole] at hbs ⊢
  rw [hhalf]
  have hbs' : 4 * (LittleEndian.value bs.toList : Int) ≤
      (4 * quarter) ^ windowCount w - 1 := by omega
  have hscaled := mul_le_mul_of_nonneg_left hbs' (by omega : 0 ≤ 4 * (quarter : Int) - 1)
  have hreach : 0 ≤ (4 * (quarter : Int)) ^ windowCount w - 1 := by omega
  have hrest := mul_nonneg (by omega : 0 ≤ 4 * (quarter : Int) - 3) hreach
  linarith

/-- Windows that cover `k` bits in full reach `2 ^ k`. -/
theorem two_pow_le_reach {k : Nat} (hk : k ≤ windowCount w * w) :
    (2 : Int) ^ k ≤ (2 ^ w) ^ windowCount w := by
  rw [← Int.pow_mul, Nat.mul_comm]
  exact_mod_cast Nat.pow_le_pow_right (by decide) hk

/-- No carry is lost below `2 ^ 254`. -/
theorem lastCarry_eq_zero {bs : Octets 32} (hbs : LittleEndian.value bs.toList < 2 ^ 254)
    (hw : 2 ≤ w) (hw' : w ≤ 16) : lastCarry w bs = 0 := by
  have hreach := two_pow_le_reach (mul_windowCount (w := w) (by omega))
  apply lastCarry_eq_zero_of_lt hw hw'
  omega

/-- Windows that do not end at the top of the number reach two bits beyond it. -/
theorem le_mul_windowCount (hw : 2 ≤ w) (hw' : w ≤ 16) (hdvd : ¬w ∣ 256) :
    258 ≤ windowCount w * w := by
  have hall : ∀ v ≤ 16, 2 ≤ v → ¬v ∣ 256 → 258 ≤ windowCount v * v := by decide
  exact hall w hw' hw hdvd

/-- No carry is lost where the windows reach beyond the top of the number. -/
theorem lastCarry_eq_zero_of_not_dvd (bs : Octets 32) (hw : 2 ≤ w) (hw' : w ≤ 16)
    (hdvd : ¬w ∣ 256) : lastCarry w bs = 0 := by
  have hreach := two_pow_le_reach (le_mul_windowCount hw hw' hdvd)
  have hlt := Word256.value_lt bs
  apply lastCarry_eq_zero_of_lt hw hw'
  omega

/-- Windows of eight bits end at bit 256, and 32 of their digits reach half of it. -/
theorem lastCarry_eight (bs : Octets 32) :
    lastCarry 8 bs =
      if 127 * (2 ^ 256 - 1) < 255 * LittleEndian.value bs.toList then 1 else 0 := by
  have hcarry := lastCarry_eq_zero_iff bs (by decide : 1 ≤ 8) (by decide)
  obtain ⟨-, -, hleast, hmost⟩ := signedWindows_run bs (by decide : 1 ≤ 8) (by decide)
  have hcount : windowCount 8 = 32 := rfl
  rw [hcount] at hcarry
  split
  · omega
  · omega

end Digits

end TwistedEdwards
