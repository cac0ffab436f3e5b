import TwistedEdwards.Word.Word256
import TwistedEdwards.Digits.Basic

/-!
# Signed windows

A 256-bit number is cut into windows of `w` bits, and a window from `2 ^ (w - 1)`
up is lowered by `2 ^ w` and carries one into the next.  A carry out of the last
window is lost.

Main statement: `Digits.length_signedWindowsFrom`.
-/

namespace TwistedEdwards

namespace Digits

/-- How many windows of `w` bits cover 256 bits. -/
def windowCount (w : Nat) : Nat := (256 + w - 1) / w

/-- A window as a signed digit, and the carry it leaves. -/
def signedDigit (w : Nat) (window : Int) : Int × Int :=
  if 2 ^ (w - 1) ≤ window then (window - 2 ^ w, 1) else (window, 0)

/-- The next `n` windows, from window `i` on. -/
def signedWindowsFrom (x : Word256) (w : Nat) : (n i : Nat) → (carry : Int) → List Int
  | 0, _, _ => []
  | n + 1, i, carry =>
    let (digit, carry) := signedDigit w ((x.window w (i * w)).toNat + carry)
    digit :: signedWindowsFrom x w n (i + 1) carry

/-- The signed windows of a 256-bit number. -/
def signedWindows (w : Nat) (bs : Octets 32) : List Int :=
  signedWindowsFrom (Word256.ofOctets bs) w (windowCount w) 0 0

theorem length_signedWindowsFrom (x : Word256) (w n i : Nat) (carry : Int) :
    (signedWindowsFrom x w n i carry).length = n := by
  induction n generalizing i carry with
  | zero => rfl
  | succ n ih => simp [signedWindowsFrom, ih]

/-- Lowering a window by its carry keeps the number. -/
theorem signedDigit_value (w : Nat) (window : Int) :
    (signedDigit w window).1 + 2 ^ w * (signedDigit w window).2 = window := by
  simp only [signedDigit]
  split <;> grind

end Digits

end TwistedEdwards
