import TwistedEdwards.Scalar.Encoding
import TwistedEdwards.Multiscalar.Interleaved

/-!
# Multiples of one point

The uniform multiple is the uniform sum of a single term.  The faster one has its
own loop over a non-adjacent form, and its time depends on the scalar.
-/

namespace TwistedEdwards

namespace Point

/-- The multiple by a scalar of 32 bytes, with a fixed pattern of operations. -/
def mulOctets (scalar : Octets 32) (p : Point) : Point := Uniform.sum [⟨scalar, p⟩]

/-- One position: a doubling, then the digit. -/
def nonAdjacentStep (digits : ByteRow) (table : OddTable) (pos : Nat) (acc : Point) : Point :=
  table.addDigit (digits.digit pos) acc.double

/-- The `n` low digits put together from the highest down. -/
def evaluateDigits (digits : ByteRow) (table : OddTable) (n : Nat) : Point :=
  n.foldRev (fun pos _ acc => nonAdjacentStep digits table pos acc) identity

/-- The multiple by a row of digits; a row of zeros gives the neutral element at once. -/
def mulDigits (digits : ByteRow) (p : Point) : Point :=
  match digits.significant 256 with
  | 0 => identity
  | top + 1 => evaluateDigits digits (OddTable.ofPoint p) (top + 1)

/-- The multiple by a scalar of 32 bytes, in time that depends on the scalar. -/
def mulOctetsVartime (scalar : Octets 32) (p : Point) : Point :=
  mulDigits (ByteRow.ofDigits (Digits.nonAdjacent nonAdjacentWidth scalar)) p

/-- The multiple by a scalar, with a fixed pattern of operations. -/
def mul (p : Point) (s : Scalar) : Point := mulOctets s.toOctets p

/-- The multiple by a scalar, in time that depends on the scalar. -/
def mulVartime (p : Point) (s : Scalar) : Point := mulOctetsVartime s.toOctets p

end Point

end TwistedEdwards
