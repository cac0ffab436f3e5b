import TwistedEdwards.Proofs.Digits.NonAdjacent
import TwistedEdwards.Proofs.Digits.Radix16
import TwistedEdwards.Proofs.Digits.Window
import TwistedEdwards.Proofs.Exact.Machine
import TwistedEdwards.Proofs.Range.Window

/-!
# Expansions with checks

The expansions are written a second time with a check wherever something could be out of
range: a window is read with the checked reader, a word that becomes a signed number has to
be one, and a digit that is stored has to fit the integers of its row.  They stop for no
string, so none of the checks ever fails, and they store the rows that the expansions give.

A window of a non-adjacent form joins the next word from the place on where it ends with its
word, a signed window only from the place on where it runs past it.

Main statements: `Digits.nonAdjacentChecked_eq`, `Digits.signedWindowsChecked_eq` and
`Digits.radix16Checked_eq`.
-/

namespace TwistedEdwards

open Word256

/-- The number of a word, if it is one of a signed integer of 32 bits. -/
def Bits.signedChecked (a : UInt64) : Option Nat := if a.toNat < 2 ^ 31 then some a.toNat else none

namespace Digits

section Definitions

variable {α : Type}

/-- Stores digits in integers that hold the range from `-2 ^ bits` to `2 ^ bits - 1`. -/
def storeChecked (bits : Nat) (store : Int → α) (digits : List Int) : Option (Array α) := do
  return (← digits.mapM fun d =>
    if -2 ^ bits ≤ d ∧ d < 2 ^ bits then some (store d) else none).toArray

/-- Digit `i` of a row that has one. -/
def readChecked (load : α → Int) (row : Array α) (i : Nat) : Option Int := row[i]?.map load

variable (x : Word256) (w : Nat)

/-- A window of a non-adjacent form joins the next word unless it ends below the top of its own. -/
abbrev FormJoins (w pos : Nat) : Prop := 64 - w ≤ bitOffset pos

/-- The scan of the non-adjacent form, with a check on every window that it reads. -/
def nonAdjacentFromChecked : (n pos carry skip : Nat) → Option (List Int)
  | 0, _, _, _ => some []
  | n + 1, pos, carry, skip + 1 => do
    return 0 :: (← nonAdjacentFromChecked n (pos + 1) carry skip)
  | n + 1, pos, carry, 0 => do
    let window := carry + (← Bits.signedChecked (← x.windowChecked (FormJoins w pos) w pos))
    if window % 2 = 0 then return 0 :: (← nonAdjacentFromChecked n (pos + 1) carry 0)
    else
      let (digit, carry) := oddDigit w window
      return digit :: (← nonAdjacentFromChecked n (pos + 1) carry (w - 1))

/-- The scan of the windows, with the same check. -/
def signedWindowsFromChecked : (n i : Nat) → (carry : Int) → Option (List Int)
  | 0, _, _ => some []
  | n + 1, i, carry => do
    let window ← Bits.signedChecked (← x.windowChecked (Straddles w (i * w)) w (i * w))
    let (digit, carry) := signedDigit w (window + carry)
    return digit :: (← signedWindowsFromChecked n (i + 1) carry)

variable (bs : Octets 32)

/-- The whole form, stored in a row of bytes. -/
def nonAdjacentChecked : Option ByteRow := do
  storeChecked 7 Int.toInt8 (← nonAdjacentFromChecked (Word256.ofOctets bs) w 256 0 0 0)

/-- All windows, stored in a row of pairs of bytes. -/
def signedWindowsChecked : Option ShortRow := do
  storeChecked 15 Int.toInt16
    (← signedWindowsFromChecked (Word256.ofOctets bs) w (windowCount w) 0 0)

/-- The nibbles are stored before they are recentred. -/
def radix16Checked : Option ByteRow := do
  let low : ByteRow ← storeChecked 7 Int.toInt8 (nibbles bs.toList)
  storeChecked 7 Int.toInt8 (recenter 0 low.toDigits)

end Definitions

theorem storeChecked_eq {α : Type} {bits : Nat} {digits : List Int}
    (h : ∀ d ∈ digits, -2 ^ bits ≤ d ∧ d < 2 ^ bits) (store : Int → α) :
    storeChecked bits store digits = some (digits.map store).toArray := by
  rw [storeChecked, Machine.mapM_eq fun d hd => if_pos (h d hd)]
  rfl

/-- A digit inside the row is read. -/
theorem readChecked_eq {α : Type} {row : Array α} {i : Nat} (hi : i < row.size) (load : α → Int)
    (zero : α) : readChecked load row i = some (load (row.getD i zero)) := by
  rw [readChecked, Array.getElem?_eq_getElem hi, Array.getD_eq_getD_getElem?,
    Array.getElem?_eq_getElem hi]
  rfl

variable {x : Word256} {w : Nat}

/-- Windows are far below the largest signed number. -/
theorem signedChecked_window (x : Word256) (pos : Nat) (hw : w ≤ 16) :
    Bits.signedChecked (x.window w pos) = some (x.window w pos).toNat := by
  have hlt : (x.window w pos).toNat < 2 ^ w := by
    rw [x.toNat_window pos hw]
    exact Nat.mod_lt _ (Nat.two_pow_pos w)
  have hroom : 2 ^ w ≤ 2 ^ 16 := Nat.pow_le_pow_right (by decide) hw
  exact if_pos (by omega)

/-- A window of a non-adjacent form that joins the next word begins above the foot of its own. -/
theorem inBuffer_form {pos : Nat} (hpos : pos < 256) (hw : w ≤ 8) :
    InBuffer (FormJoins w pos) w pos := by
  apply InBuffer.of_lt hpos (by omega)
  intro hjoins
  unfold FormJoins at hjoins
  omega

/-- A window of the form is in the buffer at every position. -/
theorem windowChecked_form {pos : Nat} (hpos : pos < 256) (hw : w ≤ 8) :
    x.windowChecked (FormJoins w pos) w pos = some (x.window w pos) := by
  apply windowChecked_eq (inBuffer_form hpos hw)
  intro hstraddle
  unfold Straddles at hstraddle
  unfold FormJoins
  omega

/-- A run of places up to bit 256. -/
theorem nonAdjacentFromChecked_eq (hw : w ≤ 8) {n pos : Nat} (hpos : pos + n ≤ 256)
    (carry skip : Nat) :
    nonAdjacentFromChecked x w n pos carry skip = some (nonAdjacentFrom x w n pos carry skip) := by
  induction n generalizing pos carry skip with
  | zero => rfl
  | succ n ih =>
    have hrest : pos + 1 + n ≤ 256 := by omega
    cases skip with
    | succ skip =>
      rw [nonAdjacentFromChecked, ih hrest]
      rfl
    | zero =>
      simp only [nonAdjacentFromChecked, windowChecked_form (x := x) (by omega : pos < 256) hw,
        signedChecked_window x pos (by omega : w ≤ 16), Option.bind_eq_bind, Option.bind_some,
        nonAdjacentFrom, ih hrest, Option.pure_def]
      split <;> rfl

/-- The places where windows begin. -/
theorem mul_lt_of_lt_windowCount (hw : 1 ≤ w) {i : Nat} (hi : i < windowCount w) : i * w < 256 := by
  have hcount : (i + 1) * w ≤ 256 + w - 1 := (Nat.le_div_iff_mul_le (by omega)).mp hi
  rw [Nat.succ_mul] at hcount
  omega

/-- A window of the expansion is in the buffer, the last one too. -/
theorem inBuffer_window (hw : 1 ≤ w) (hw' : w ≤ 16) {i : Nat} (hi : i < windowCount w) :
    InBuffer (Straddles w (i * w)) w (i * w) := by
  apply InBuffer.of_lt (mul_lt_of_lt_windowCount hw hi) (by omega)
  intro hstraddle
  exact hstraddle.bitOffset_pos (by omega)

/-- A run of windows up to the last one. -/
theorem signedWindowsFromChecked_eq (hw : 1 ≤ w) (hw' : w ≤ 16) {n i : Nat}
    (hi : i + n ≤ windowCount w) (carry : Int) :
    signedWindowsFromChecked x w n i carry = some (signedWindowsFrom x w n i carry) := by
  induction n generalizing i carry with
  | zero => rfl
  | succ n ih =>
    have hrest : i + 1 + n ≤ windowCount w := by omega
    have hposition : i < windowCount w := by omega
    have hwindow := windowChecked_eq (x := x) (inBuffer_window hw hw' hposition) id
    simp only [signedWindowsFromChecked, hwindow, signedChecked_window x (i * w) hw',
      Option.bind_eq_bind, Option.bind_some, signedWindowsFrom, ih hrest, Option.pure_def]

variable (bs : Octets 32)

/-- **The non-adjacent form** reads in the buffer, shifts by less than a word and stores in a
byte. -/
theorem nonAdjacentChecked_eq (hw : 2 ≤ w) (hw' : w ≤ 8) :
    nonAdjacentChecked w bs = some (ByteRow.ofDigits (nonAdjacent w bs)) := by
  rw [nonAdjacentChecked, nonAdjacentFromChecked_eq hw' (by decide), Option.bind_eq_bind,
    Option.bind_some]
  exact storeChecked_eq (nonAdjacent_fits bs hw hw') Int.toInt8

/-- **Signed windows** read in the buffer, shift by less than a word and are stored in two bytes. -/
theorem signedWindowsChecked_eq (hw : 1 ≤ w) (hw' : w ≤ 16) :
    signedWindowsChecked w bs = some (ShortRow.ofDigits (signedWindows w bs)) := by
  rw [signedWindowsChecked, signedWindowsFromChecked_eq hw hw' (by omega), Option.bind_eq_bind,
    Option.bind_some]
  exact storeChecked_eq (signedWindows_fits bs hw hw') Int.toInt16

/-- **Centred radix 16** is stored in a byte, before it is recentred and after. -/
theorem radix16Checked_eq : radix16Checked bs = some (ByteRow.ofDigits (radix16 bs)) := by
  have hnibbles : ∀ d ∈ nibbles bs.toList, -2 ^ 7 ≤ d ∧ d < 2 ^ 7 := by
    intro d hd
    have hrange := nibbles_range bs.toList d hd
    omega
  have hkept : ByteRow.toDigits ((nibbles bs.toList).map Int.toInt8).toArray = nibbles bs.toList :=
    ByteRow.toDigits_ofDigits hnibbles
  rw [radix16Checked, storeChecked_eq hnibbles Int.toInt8, Option.bind_eq_bind, Option.bind_some,
    hkept]
  exact storeChecked_eq (radix16_fits bs) Int.toInt8

/-- What a non-adjacent form needs of a string: every read of a window is in the buffer, every digit
fits a byte, and with all checks made the row is the one of the form. -/
structure FormInRange (w : Nat) (bs : Octets 32) : Prop where
  reads : ∀ pos < 256, InBuffer (FormJoins w pos) w pos
  fits : ∀ d ∈ nonAdjacent w bs, -2 ^ 7 ≤ d ∧ d < 2 ^ 7
  checked : nonAdjacentChecked w bs = some (ByteRow.ofDigits (nonAdjacent w bs))
  size : (ByteRow.ofDigits (nonAdjacent w bs)).size = 256

/-- What signed windows need of a string. -/
structure WindowsInRange (w : Nat) (bs : Octets 32) : Prop where
  reads : ∀ i < windowCount w, InBuffer (Straddles w (i * w)) w (i * w)
  fits : ∀ d ∈ signedWindows w bs, -2 ^ 15 ≤ d ∧ d < 2 ^ 15
  checked : signedWindowsChecked w bs = some (ShortRow.ofDigits (signedWindows w bs))
  size : (ShortRow.ofDigits (signedWindows w bs)).size = windowCount w

theorem size_nonAdjacent (w : Nat) : (ByteRow.ofDigits (nonAdjacent w bs)).size = 256 := by
  rw [ByteRow.ofDigits, List.size_toArray, List.length_map, length_nonAdjacent]

theorem size_signedWindows (w : Nat) :
    (ShortRow.ofDigits (signedWindows w bs)).size = windowCount w := by
  rw [ShortRow.ofDigits, List.size_toArray, List.length_map, signedWindows,
    length_signedWindowsFrom]

/-- Nothing is out of range in the form. -/
theorem formInRange (hw : 2 ≤ w) (hw' : w ≤ 8) : FormInRange w bs :=
  ⟨fun _ hpos => inBuffer_form hpos hw', nonAdjacent_fits bs hw hw',
    nonAdjacentChecked_eq bs hw hw', size_nonAdjacent bs w⟩

/-- Nothing is out of range in the expansion. -/
theorem windowsInRange (hw : 1 ≤ w) (hw' : w ≤ 16) : WindowsInRange w bs :=
  ⟨fun _ hi => inBuffer_window hw hw' hi, signedWindows_fits bs hw hw',
    signedWindowsChecked_eq bs hw hw', size_signedWindows bs w⟩

end Digits

end TwistedEdwards
