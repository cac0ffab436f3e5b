/-!
# Hexadecimal text

Byte strings are shown as lowercase hexadecimal, two digits a byte, in the
order of the bytes.

Main statement: `Hex.decode?_encode`, what is written is read back.
-/

namespace TwistedEdwards.Hex

/-- The digit of a number below sixteen. -/
def digit (n : UInt8) : Char :=
  if n < 10 then Char.ofNat (48 + n.toNat) else Char.ofNat (87 + n.toNat)

/-- The number of a lowercase or uppercase digit. -/
def digit? (c : Char) : Option UInt8 :=
  if '0' ≤ c ∧ c ≤ '9' then some (c.toNat - 48).toUInt8
  else if 'a' ≤ c ∧ c ≤ 'f' then some (c.toNat - 87).toUInt8
  else if 'A' ≤ c ∧ c ≤ 'F' then some (c.toNat - 55).toUInt8
  else none

/-- The digits of a byte string. -/
def encode (bs : List UInt8) : String :=
  String.ofList (bs.flatMap fun (b : UInt8) => [digit (b >>> 4), digit (b &&& 15)])

/-- Reads pairs of digits. -/
def decodeDigits? : List Char → Option (List UInt8)
  | [] => some []
  | [_] => none
  | hi :: lo :: rest => do
    let h ← digit? hi
    let l ← digit? lo
    let bs ← decodeDigits? rest
    return (h <<< 4 ||| l) :: bs

/-- Reads a text of digit pairs. -/
def decode? (s : String) : Option (List UInt8) := decodeDigits? s.toList

/-- Each half of a byte is read back from its digit. -/
theorem digit?_digit (b : UInt8) :
    digit? (digit (b >>> 4)) = some (b >>> 4) ∧
      digit? (digit (b &&& 15)) = some (b &&& 15) ∧
      (b >>> 4) <<< 4 ||| (b &&& 15) = b := by
  have hall : ∀ i : Fin 256,
      digit? (digit (UInt8.ofFin i >>> 4)) = some (UInt8.ofFin i >>> 4) ∧
        digit? (digit (UInt8.ofFin i &&& 15)) = some (UInt8.ofFin i &&& 15) ∧
        (UInt8.ofFin i >>> 4) <<< 4 ||| (UInt8.ofFin i &&& 15) = UInt8.ofFin i := by
    decide +kernel
  exact hall b.toFin

/-- A pair of digits is one byte of the string. -/
theorem decodeDigits?_pair (b : UInt8) (rest : List Char) :
    decodeDigits? (digit (b >>> 4) :: digit (b &&& 15) :: rest) =
      (decodeDigits? rest).map (b :: ·) := by
  obtain ⟨hhi, hlo, hjoin⟩ := digit?_digit b
  simp only [decodeDigits?, hhi, hlo, bind, Option.bind, hjoin]
  cases decodeDigits? rest <;> rfl

/-- What is written is read back. -/
theorem decode?_encode (bs : List UInt8) : decode? (encode bs) = some bs := by
  simp only [decode?, encode, String.toList_ofList]
  induction bs with
  | nil => rfl
  | cons b bs ih =>
    simp only [List.flatMap_cons, List.cons_append, List.nil_append]
    rw [decodeDigits?_pair, ih]
    rfl

end TwistedEdwards.Hex
