import TwistedEdwards.Proofs.Word.Window

/-!
# Windows read with checks

A window is cut out of five words: the four of the string and a word of zeros past the top.
The reader here is given an index and two shift amounts and stops at an index beyond the
buffer and at an amount of a whole word or more, where a shift has no defined result.  It
is told when to join the next word.  That may be earlier than a window runs into it, since
bits that do not belong to the window are masked away, but never at the foot of a word, where
the next word would be shifted by all of its bits.

Main statement: `Word256.windowChecked_eq`.
-/

namespace TwistedEdwards

namespace Bits

/-- A shift to the left by less than a word. -/
def shiftLeftChecked (a : UInt64) (k : Nat) : Option UInt64 :=
  if k < 64 then some (a <<< k.toUInt64) else none

/-- A shift to the right by less than a word. -/
def shiftRightChecked (a : UInt64) (k : Nat) : Option UInt64 :=
  if k < 64 then some (a >>> k.toUInt64) else none

end Bits

namespace Word256

/-- The words that a window is cut from. -/
def buffer (x : Word256) : Vector UInt64 5 := #v[x.w0, x.w1, x.w2, x.w3, 0]

/-- The buffer has the four words and a zero word. -/
theorem getElem?_buffer (x : Word256) {i : Nat} (hi : i ≤ 4) : x.buffer[i]? = some (x.word i) := by
  match i with
  | 0 => rfl
  | 1 => rfl
  | 2 => rfl
  | 3 => rfl
  | 4 => rfl
  | i + 5 => omega

/-- The window of `w` bits from bit `pos` on, with the next word joined where `joins` says so. -/
def windowChecked (x : Word256) (joins : Prop) [Decidable joins] (w pos : Nat) : Option UInt64 := do
  let low ← Bits.shiftRightChecked (← x.buffer[wordIndex pos]?) (bitOffset pos)
  let mask := (← Bits.shiftLeftChecked 1 w) - 1
  if joins then
    let high ← Bits.shiftLeftChecked (← x.buffer[wordIndex pos + 1]?) (64 - bitOffset pos)
    return (low ||| high) &&& mask
  else return low &&& mask

/-- What the reader needs of a place: the indices are in the buffer and the amounts below a word. -/
structure InBuffer (joins : Prop) (w pos : Nat) : Prop where
  index : wordIndex pos ≤ 4
  offset : bitOffset pos ≤ 63
  width : w ≤ 63
  next : joins → wordIndex pos + 1 ≤ 4 ∧ 64 - bitOffset pos ≤ 63

variable {x : Word256} {joins : Prop} {w pos : Nat}

/-- A place below bit 256 is in the buffer, if the next word is not joined at the foot of a word. -/
theorem InBuffer.of_lt (hpos : pos < 256) (hw : w ≤ 63) (hfoot : joins → 0 < bitOffset pos) :
    InBuffer joins w pos := by
  have hindex := wordIndex_lt hpos
  have hoffset := bitOffset_lt pos
  refine ⟨by omega, by omega, hw, ?_⟩
  intro hjoins
  have hpositive := hfoot hjoins
  omega

/-- Bits above the window do not show in it. -/
theorem and_windowMask_of_le {low high : UInt64} {k : Nat} (hw : w ≤ k) (hk : k < 64)
    (hlow : low.toNat < 2 ^ k) :
    (low ||| high <<< k.toUInt64) &&& (((1 : UInt64) <<< w.toUInt64) - 1) =
      low &&& (((1 : UInt64) <<< w.toUInt64) - 1) := by
  have hk' : k.toUInt64.toNat = k := Nat.mod_eq_of_lt (by omega)
  apply UInt64.toNat_inj.mp
  rw [toNat_and_windowMask _ (by omega), toNat_and_windowMask _ (by omega),
    Bits.toNat_or_shiftLeft_mod (by omega) (by rwa [hk']), hk']
  obtain ⟨c, hc⟩ := Nat.pow_dvd_pow 2 hw
  rw [hc, Nat.mul_comm (2 ^ w), ← Nat.mul_assoc, Nat.add_mul_mod_self_right]

/-- **The reader never stops** in the buffer, and it reads the window, if the next word is joined at
least where the window runs into it. -/
theorem windowChecked_eq [Decidable joins] (h : InBuffer joins w pos)
    (hjoins : Straddles w pos → joins) :
    x.windowChecked joins w pos = some (x.window w pos) := by
  obtain ⟨hindex, hoffset, hw, hnext⟩ := h
  have hlow : Bits.shiftRightChecked (x.word (wordIndex pos)) (bitOffset pos) =
      some (x.word (wordIndex pos) >>> (bitOffset pos).toUInt64) := if_pos (by omega)
  have hmask : Bits.shiftLeftChecked 1 w = some (1 <<< w.toUInt64) := if_pos (by omega)
  simp only [windowChecked, window, getElem?_buffer x hindex, hlow, hmask, Option.bind_eq_bind,
    Option.bind_some, Option.pure_def]
  by_cases hjoin : joins
  · obtain ⟨hindex', hshift⟩ := hnext hjoin
    have hhigh : Bits.shiftLeftChecked (x.word (wordIndex pos + 1)) (64 - bitOffset pos) =
        some (x.word (wordIndex pos + 1) <<< (64 - bitOffset pos).toUInt64) := if_pos (by omega)
    simp only [if_pos hjoin, getElem?_buffer x hindex', hhigh, Option.bind_some]
    by_cases hstraddle : Straddles w pos
    · rw [if_pos hstraddle]
    · rw [if_neg hstraddle, and_windowMask_of_le]
      · unfold Straddles at hstraddle
        omega
      · omega
      · rw [toNat_word_shiftRight x _ (by omega)]
        exact Nat.mod_lt _ (Nat.two_pow_pos _)
  · rw [if_neg hjoin, if_neg fun hstraddle => hjoin (hjoins hstraddle)]

end Word256

end TwistedEdwards
