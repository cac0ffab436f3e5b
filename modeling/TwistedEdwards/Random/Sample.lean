import TwistedEdwards.Random.Generator
import TwistedEdwards.Field.Canonical
import TwistedEdwards.Multiscalar.Single

/-!
# Random bytes, field elements, scalars and points

Bytes are drawn a word at a time, least significant byte first, and a last
partial word is cut.  Field elements are read from 32 bytes, scalars from 64, and
points are multiples of the base point.
-/

namespace TwistedEdwards

namespace Generator

/-- `n` words. -/
def words : (n : Nat) → Draw (List UInt64)
  | 0 => pure []
  | n + 1 => do
    let w ← next
    let rest ← words n
    return w :: rest

/-- `n` bytes. -/
def bytes (n : Nat) : Draw (List UInt8) := do
  let ws ← words ((n + 7) / 8)
  return (ws.flatMap fun w => (LittleEndian.ofWord w).toList).take n

/-- Four words as a byte string. -/
def octets32 : Draw (Octets 32) := do
  let w0 ← next
  let w1 ← next
  let w2 ← next
  let w3 ← next
  return (Word256.mk w0 w1 w2 w3).toOctets

/-- Eight words as a byte string. -/
def octets64 : Draw (Octets 64) := do
  let low ← octets32
  let high ← octets32
  return low ++ high

/-- An element read from a random string, which need not be below the prime. -/
def fieldElement : Draw FieldElement := do
  let bs ← octets32
  return FieldElement.ofOctets bs

/-- A scalar read from a random string of 64 bytes. -/
def scalar : Draw Scalar := do
  let bs ← octets64
  return Scalar.ofWide bs

/-- A random multiple of the base point. -/
def point : Draw Point := do
  let s ← scalar
  return Point.base.mulVartime s

end Generator

end TwistedEdwards
