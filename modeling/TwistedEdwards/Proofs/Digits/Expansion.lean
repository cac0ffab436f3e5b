import Mathlib.Algebra.Order.Floor.Div
import TwistedEdwards.Proofs.Digits.NonAdjacent
import TwistedEdwards.Proofs.Digits.Radix16
import TwistedEdwards.Proofs.Digits.Window
import TwistedEdwards.Proofs.Point.Table
import TwistedEdwards.Proofs.Scalar.Octets

/-!
# Expansions of any 32 bytes

The three expansions of a string, reduced or not, with everything that a multiplication
relies on: how many digits there are, that a row of small integers holds them, their range
and what they stand for.  Centred radix 16 stands for every number, and from `2 ^ 255` up its
top digit can be beyond the table.  The non-adjacent form can lose a carry worth `2 ^ 256`,
never below `2 ^ 255`.  Signed windows lose the carry of the last one exactly beyond the
number whose digits are all the largest.

Main statements: `Digits.nonAdjacent_exact`, `Digits.signedWindows_exact` and
`Digits.radix16_exact`.
-/

namespace TwistedEdwards

namespace Digits

/-- **The non-adjacent form** of any string has 256 digits, zero or odd and below half a window,
those not zero at least a window apart.  It stands for the number or for `2 ^ 256` less, and below
`2 ^ 255` for the number. -/
theorem nonAdjacent_exact (bs : Octets 32) {w : Nat} (hw : 2 ≤ w) (hw' : w ≤ 8) :
    (nonAdjacent w bs).length = 256 ∧
      (ByteRow.ofDigits (nonAdjacent w bs)).toDigits = nonAdjacent w bs ∧
      (∀ d ∈ nonAdjacent w bs, d = 0 ∨ d % 2 = 1 ∧ d.natAbs < 2 ^ (w - 1)) ∧
      (∀ i j, i < j → (nonAdjacent w bs).getD i 0 ≠ 0 → (nonAdjacent w bs).getD j 0 ≠ 0 →
        i + w ≤ j) ∧
      (value 2 (nonAdjacent w bs) = LittleEndian.value bs.toList ∨
        value 2 (nonAdjacent w bs) = LittleEndian.value bs.toList - 2 ^ 256) ∧
      (LittleEndian.value bs.toList < 2 ^ 255 →
        value 2 (nonAdjacent w bs) = LittleEndian.value bs.toList) ∧
      ∀ s : Scalar, s.Reduced → value 2 (nonAdjacent w s.toOctets) = s.toNat := by
  have hroom : w ≤ 16 := by omega
  refine ⟨length_nonAdjacentFrom _ _ _ _ _ _,
    ByteRow.toDigits_ofDigits (nonAdjacent_fits bs hw hw'),
    nonAdjacent_range bs hw hroom, ?_, ?_, ?_, ?_⟩
  · intro i j hij hi hj
    exact nonAdjacent_separated bs w hij hi hj
  · rcases value_nonAdjacent_cases bs hw hroom with ⟨-, hvalue⟩ | ⟨-, hvalue⟩
    · exact Or.inl hvalue
    · exact Or.inr hvalue
  · intro hbelow
    exact value_nonAdjacent_of_lt hbelow hw hroom
  · intro s hs
    rw [value_nonAdjacent_of_lt (hs.value_toOctets_lt.trans (by decide)) hw hroom,
      hs.value_toOctets]

/-- The string of `2 ^ 255 - 1`. -/
def ones : Octets 32 := (Vector.replicate 31 255).push 127

/-- The form of a run of ones has a digit at either end and none between. -/
theorem nonAdjacent_exact_ones :
    2 ≤ 5 ∧ 5 ≤ 8 ∧ value 2 (nonAdjacent 5 ones) = 2 ^ 255 - 1 ∧
      nonAdjacent 5 ones = -1 :: (List.replicate 254 0 ++ [1]) := by
  have hw : 2 ≤ 5 := by decide
  have hw' : 5 ≤ 8 := by decide
  obtain ⟨-, -, -, -, -, hbelow, -⟩ := nonAdjacent_exact ones hw hw'
  have hvalue : LittleEndian.value ones.toList = 2 ^ 255 - 1 := by decide +kernel
  rw [hvalue] at hbelow
  exact ⟨hw, hw', hbelow (by decide), by decide +kernel⟩

/-- **Signed windows** of any string are as many as cover 256 bits, each between `-2 ^ (w - 1)` and
`2 ^ (w - 1) - 1`.  They stand for the number exactly up to their reach, and beyond it for less
by what the lost carry is worth. -/
theorem signedWindows_exact (bs : Octets 32) {w : Nat} (hw : 2 ≤ w) (hw' : w ≤ 16) :
    (signedWindows w bs).length = 256 ⌈/⌉ w ∧
      (ShortRow.ofDigits (signedWindows w bs)).toDigits = signedWindows w bs ∧
      (∀ d ∈ signedWindows w bs, -2 ^ (w - 1) ≤ d ∧ d ≤ 2 ^ (w - 1) - 1) ∧
      (value (2 ^ w) (signedWindows w bs) = LittleEndian.value bs.toList ↔
        LittleEndian.value bs.toList ≤
          (2 ^ (w - 1) - 1) * (2 ^ (w * (256 ⌈/⌉ w)) - 1) / (2 ^ w - 1)) ∧
      ((2 ^ (w - 1) - 1) * (2 ^ (w * (256 ⌈/⌉ w)) - 1) / (2 ^ w - 1) <
          LittleEndian.value bs.toList →
        value (2 ^ w) (signedWindows w bs) =
          LittleEndian.value bs.toList - 2 ^ (w * (256 ⌈/⌉ w))) ∧
      (LittleEndian.value bs.toList < 2 ^ 254 →
        value (2 ^ w) (signedWindows w bs) = LittleEndian.value bs.toList) ∧
      (¬w ∣ 256 → value (2 ^ w) (signedWindows w bs) = LittleEndian.value bs.toList) := by
  have hcount : 256 ⌈/⌉ w = windowCount w := Nat.ceilDiv_eq_add_pred_div 256 w
  have hexact := value_signedWindows_eq_iff bs (by omega : 1 ≤ w) hw'
  have hreach := lastCarry_eq_zero_iff_le bs (by omega : 1 ≤ w) hw'
  rw [hcount]
  refine ⟨length_signedWindowsFrom _ _ _ _ _,
    ShortRow.toDigits_ofDigits (signedWindows_fits bs (by omega) hw'),
    signedWindows_range bs (by omega) hw', hexact.trans hreach, ?_, ?_, ?_⟩
  · intro hbeyond
    obtain ⟨-, -, hleast, hmost⟩ := signedWindows_run bs (by omega : 1 ≤ w) hw'
    have hone : lastCarry w bs = 1 := by
      have hlost : lastCarry w bs ≠ 0 := fun hzero => Nat.not_le_of_lt hbeyond (hreach.mp hzero)
      omega
    rw [value_signedWindows bs (by omega) hw', hone, mul_one, Int.pow_mul]
  · intro hbelow
    exact hexact.mpr (lastCarry_eq_zero hbelow hw hw')
  · intro hdvd
    exact hexact.mpr (lastCarry_eq_zero_of_not_dvd bs hw hw' hdvd)

/-- The string of the number that 32 windows of eight bits reach. -/
def atReach : Octets 32 := Vector.replicate 32 127

/-- The string of the next number. -/
def pastReach : Octets 32 := (#v[128] : Octets 1) ++ (Vector.replicate 31 127 : Octets 31)

/-- With eight bits every byte is 127 at the reach, and one more loses the carry. -/
theorem signedWindows_exact_reach :
    2 ≤ 8 ∧ 8 ≤ 16 ∧
      value (2 ^ 8) (signedWindows 8 atReach) = (127 * (2 ^ 256 - 1) / 255 : Nat) ∧
      value (2 ^ 8) (signedWindows 8 pastReach) =
        (127 * (2 ^ 256 - 1) / 255 + 1 : Nat) - 2 ^ 256 := by
  have hw : 2 ≤ 8 := by decide
  have hw' : 8 ≤ 16 := by decide
  have hlast : LittleEndian.value atReach.toList = 127 * (2 ^ 256 - 1) / 255 := by decide +kernel
  have hnext : LittleEndian.value pastReach.toList = 127 * (2 ^ 256 - 1) / 255 + 1 := by
    decide +kernel
  obtain ⟨-, -, -, hexact, -⟩ := signedWindows_exact atReach hw hw'
  obtain ⟨-, -, -, -, hbeyond, -⟩ := signedWindows_exact pastReach hw hw'
  have hcount : 256 ⌈/⌉ 8 = 32 := rfl
  rw [hlast, hcount] at hexact
  rw [hnext, hcount] at hbeyond
  exact ⟨hw, hw', hexact.mpr (by decide), hbeyond (by decide)⟩

/-- **Centred radix 16** of any string has 64 digits and stands for its number.  All but the top
digit are centred, and below `2 ^ 255` the top digit is too, so that the table of eight entries has
one for every digit that is not zero. -/
theorem radix16_exact (bs : Octets 32) :
    (radix16 bs).length = 64 ∧
      (ByteRow.ofDigits (radix16 bs)).toDigits = radix16 bs ∧
      value 16 (radix16 bs) = LittleEndian.value bs.toList ∧
      (∀ i < 63, -7 ≤ (radix16 bs).getD i 0 ∧ (radix16 bs).getD i 0 ≤ 8) ∧
      (0 ≤ (radix16 bs).getD 63 0 ∧ (radix16 bs).getD 63 0 ≤ 16) ∧
      (LittleEndian.value bs.toList < 2 ^ 255 → ∀ d ∈ radix16 bs, (-7 ≤ d ∧ d ≤ 8) ∧
        (d ≠ 0 → ∀ p, (CentredTable.ofPoint p)[d.natAbs - 1]? =
          some ((CentredTable.ofPoint p).entry d.natAbs))) := by
  obtain ⟨low, hsplit, hlen, hlow, htop⟩ := radix16_split bs
  refine ⟨length_radix16 bs, ByteRow.toDigits_ofDigits (radix16_fits bs), value_radix16 bs, ?_,
    htop,
    ?_⟩
  · intro i hi
    rw [hsplit, List.getD_eq_getElem?_getD, List.getElem?_append_left (by omega),
      ← List.getD_eq_getElem?_getD]
    exact forall_getD (by decide) hlow i
  · intro hbelow d hd
    have hcentred := radix16_centred hbelow d hd
    refine ⟨hcentred, ?_⟩
    intro hne p
    have height : (CentredTable.ofPoint p).length = 8 := rfl
    exact CentredTable.getElem?_eq_entry _ (by omega) (by omega)

/-- The top digit of the largest number is as large as one can be. -/
example : (radix16 (Vector.replicate 32 255)).getD 63 0 = 16 := by decide +kernel

end Digits

end TwistedEdwards
