import TwistedEdwards.Word.Hex
import TwistedEdwards.Word.Masked
import TwistedEdwards.Field.SquareRoot
import TwistedEdwards.Point.Basic

/-!
# Compressed points

A point is written as its ordinate in 255 bits and the parity of its abscissa in
the top bit.  Reading recovers the abscissa as a square root and refuses every
string that no point writes: an ordinate that is not below the prime, an
ordinate with no abscissa, and a set parity bit where the abscissa is zero.

The reader is handed the point that it sets and answers a status number; the
checks come first and the coordinates are set after the last of them.  Over it,
`Point.decode` hands in the identity and turns the status into an error.

Main statements: `Point.writeAffine_eq` and `DecodeError.ofCode?_code`.
-/

namespace TwistedEdwards

/-- Why a string is no point. -/
inductive DecodeError where
  | invalidEncoding
  | notOnCurve
deriving DecidableEq

namespace DecodeError

/-- The status number of an error. -/
def code : DecodeError → Int
  | invalidEncoding => -1
  | notOnCurve => -2

/-- The error of a status number. -/
def ofCode? (c : Int) : Option DecodeError :=
  if c = -1 then some invalidEncoding else if c = -2 then some notOnCurve else none

def message : DecodeError → String
  | invalidEncoding => "invalid encoding: y is not canonical or x = 0 has its sign bit set"
  | notOnCurve => "not on curve: no x-coordinate exists for the encoded y"

/-- An error is told by its status number. -/
theorem ofCode?_code (e : DecodeError) : ofCode? e.code = some e := by
  cases e <;> rfl

end DecodeError

/-- The text of a status number; zero is success. -/
def statusMessage (code : Int) : String :=
  if code = 0 then "success"
  else
    match DecodeError.ofCode? code with
    | some e => e.message
    | none => "unknown error"

namespace Point

/-- The compressed base point: four fifths, with an even abscissa. -/
def baseOctets : Octets 32 :=
  #v[0x58, 0x66, 0x66, 0x66, 0x66, 0x66, 0x66, 0x66, 0x66, 0x66, 0x66, 0x66, 0x66, 0x66, 0x66, 0x66,
    0x66, 0x66, 0x66, 0x66, 0x66, 0x66, 0x66, 0x66, 0x66, 0x66, 0x66, 0x66, 0x66, 0x66, 0x66, 0x66]

/-- Writes the ordinate and the parity of the abscissa. -/
def toOctets (p : Point) : Octets 32 :=
  let zInverse := p.z.inverse
  let x := p.x * zInverse
  let y := p.y * zInverse
  y.toOctets.xorTopBit x.isNegative

/-- Reads an ordinate that is below the prime: written again it differs in no bit. -/
def ordinate? (bs : Octets 32) : Option FieldElement :=
  let y := FieldElement.ofOctets bs
  if y.toOctets.difference bs.clearTopBit = 0 then some y else none

/-- The even abscissa of an ordinate. -/
def abscissa? (y : FieldElement) : Option FieldElement :=
  let yy := y.square
  FieldElement.sqrtRatio? (yy - .one) (yy * Curve.d + .one)

/-- What a reader leaves: the point that was handed to it, set or not, and a status number. -/
structure Reading where
  point : Point
  status : Int

/-- The point that was read, or the error that the status stands for. -/
def Reading.result (reading : Reading) : Except DecodeError Point :=
  if reading.status = 0 then .ok reading.point
  else .error ((DecodeError.ofCode? reading.status).getD .invalidEncoding)

/-- Sets the coordinates, one after the other, to those of an ordinate and of its even abscissa or
the opposite; the product is of the abscissa that was set. -/
def writeAffine (r : Point) (x y : FieldElement) (odd : Bool) : Point :=
  let r := { r with x := x.negateIf odd }
  let r := { r with y := y }
  let r := { r with z := .one }
  { r with t := r.x * y }

/-- Sets the point of an ordinate and the even abscissa found for it, if any. -/
def readAbscissa (r : Point) (odd : Bool) (y : FieldElement) : Option FieldElement → Reading
  | none => ⟨r, DecodeError.notOnCurve.code⟩
  | some x =>
    if odd && !x.isNonzero then ⟨r, DecodeError.invalidEncoding.code⟩
    else ⟨r.writeAffine x y odd, 0⟩

/-- Sets the point of an ordinate, if a string had one. -/
def readOrdinate (r : Point) (odd : Bool) : Option FieldElement → Reading
  | none => ⟨r, DecodeError.invalidEncoding.code⟩
  | some y => r.readAbscissa odd y (abscissa? y)

/-- Reads a compressed point into the point that is handed in. -/
def readOctets (r : Point) (bs : Octets 32) : Reading := r.readOrdinate bs.topBit (ordinate? bs)

/-- Reads a compressed point. -/
def decode (bs : Octets 32) : Except DecodeError Point := (identity.readOctets bs).result

/-- Reads a compressed point and forgets the cause of a refusal. -/
def decode? (bs : Octets 32) : Option Point := (decode bs).toOption

/-- The compressed form is the same. -/
def sameOctets (p q : Point) : Bool := p.toOctets == q.toOctets

/-- The bytes in hexadecimal. -/
def text (p : Point) : String := Hex.encode p.toOctets.toList

/-- Nothing of the point that was handed in is left where the coordinates are set. -/
theorem writeAffine_eq (r : Point) (x y : FieldElement) (odd : Bool) :
    r.writeAffine x y odd = ⟨x.negateIf odd, y, .one, x.negateIf odd * y⟩ :=
  rfl

end Point

end TwistedEdwards
