import TwistedEdwards.Word.Word256
import TwistedEdwards.Digits.Basic

/-!
# Non-adjacent form

The non-adjacent form of width `w` writes a number with zeros and odd digits
between `-2 ^ (w - 1)` and `2 ^ (w - 1)`, any two odd ones at least `w` places
apart.  At a place where the rest of the number is odd, the low `w` bits with the
pending carry make a window; a window from `2 ^ (w - 1)` up is lowered by `2 ^ w`
and leaves a carry.  The `w - 1` places after an odd digit are zero.

The form has 256 places, and a carry out of the top is lost.

Main statement: `Digits.length_nonAdjacent`.
-/

namespace TwistedEdwards

namespace Digits

/-- The odd digit of a window, and the carry it leaves. -/
def oddDigit (w : Nat) (window : Nat) : Int × Nat :=
  if window < 2 ^ (w - 1) then (window, 0) else ((window : Int) - 2 ^ w, 1)

/-- The next `n` places from place `pos` on, the first `skip` of them zero. -/
def nonAdjacentFrom (x : Word256) (w : Nat) : (n pos carry skip : Nat) → List Int
  | 0, _, _, _ => []
  | n + 1, pos, carry, skip + 1 => 0 :: nonAdjacentFrom x w n (pos + 1) carry skip
  | n + 1, pos, carry, 0 =>
    let window := carry + (x.window w pos).toNat
    if window % 2 = 0 then 0 :: nonAdjacentFrom x w n (pos + 1) carry 0
    else
      let (digit, carry) := oddDigit w window
      digit :: nonAdjacentFrom x w n (pos + 1) carry (w - 1)

/-- The non-adjacent form of a 256-bit number. -/
def nonAdjacent (w : Nat) (bs : Octets 32) : List Int :=
  nonAdjacentFrom (Word256.ofOctets bs) w 256 0 0 0

theorem length_nonAdjacentFrom (x : Word256) (w n pos carry skip : Nat) :
    (nonAdjacentFrom x w n pos carry skip).length = n := by
  induction n generalizing pos carry skip with
  | zero => rfl
  | succ n ih =>
    cases skip with
    | succ skip => simp [nonAdjacentFrom, ih]
    | zero =>
      simp only [nonAdjacentFrom]
      split <;> simp [ih]

theorem length_nonAdjacent (w : Nat) (bs : Octets 32) : (nonAdjacent w bs).length = 256 :=
  length_nonAdjacentFrom _ _ _ _ _ _

end Digits

end TwistedEdwards
