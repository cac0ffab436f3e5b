import TwistedEdwards.Digits.Radix16
import TwistedEdwards.Digits.NonAdjacent
import TwistedEdwards.Digits.Window
import TwistedEdwards.Scalar.Encoding

/-!
# Digits of scalars

The expansions of a scalar are those of its 32 bytes.  Widths that the digit rows
cannot hold, or that no multiplication uses, are refused.
-/

namespace TwistedEdwards

namespace Scalar

/-- The 64 centred digits. -/
def radix16 (s : Scalar) : ByteRow := ByteRow.ofDigits (Digits.radix16 s.toOctets)

/-- The non-adjacent form, for widths from 2 to 8. -/
def nonAdjacentForm (s : Scalar) (w : Nat) : Except Digits.WidthError ByteRow :=
  if 2 ≤ w ∧ w ≤ 8 then .ok (ByteRow.ofDigits (Digits.nonAdjacent w s.toOctets))
  else .error .nonAdjacentForm

/-- The signed windows, for widths from 6 to 11. -/
def signedWindows (s : Scalar) (w : Nat) : Except Digits.WidthError ShortRow :=
  if 6 ≤ w ∧ w ≤ 11 then .ok (ShortRow.ofDigits (Digits.signedWindows w s.toOctets))
  else .error .signedWindows

end Scalar

end TwistedEdwards
