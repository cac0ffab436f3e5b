import TwistedEdwards.Word.Word256

/-!
# Windows of bits

Words and windows are quotients and remainders of the number that they are cut from.  A
window that runs into the next word is put together from two pieces that do not overlap,
and past the top there is a word of zeros.

Main statement: `Word256.toNat_window`.
-/

namespace TwistedEdwards

namespace Word256

/-- A word is cut out of the number at its place. -/
theorem toNat_word (x : Word256) (i : Nat) :
    (x.word i).toNat = x.toNat / 2 ^ (64 * i) % 2 ^ 64 := by
  have h0 := x.w0.toNat_lt
  have h1 := x.w1.toNat_lt
  have h2 := x.w2.toNat_lt
  have h3 := x.w3.toNat_lt
  match i with
  | 0 => simp only [word, toNat]; omega
  | 1 => simp only [word, toNat]; omega
  | 2 => simp only [word, toNat]; omega
  | 3 => simp only [word, toNat]; omega
  | i + 4 =>
    have hlt : x.toNat < 2 ^ (64 * (i + 4)) :=
      Nat.lt_of_lt_of_le x.toNat_lt (Nat.pow_le_pow_right (by decide) (by omega))
    simp only [word, Nat.div_eq_of_lt hlt]
    rfl

/-- Four words hold the number of 32 bytes. -/
theorem value_lt (bs : Octets 32) : LittleEndian.value bs.toList < 2 ^ 256 := by
  rw [← toNat_ofOctets]
  exact toNat_lt _

/-- A shift that stays in its word drops the low bits. -/
theorem toNat_word_shiftRight (x : Word256) (i : Nat) {r : Nat} (hr : r < 64) :
    (x.word i >>> r.toUInt64).toNat = x.toNat / 2 ^ (64 * i) / 2 ^ r % 2 ^ (64 - r) := by
  have hr' : r.toUInt64.toNat = r := Nat.mod_eq_of_lt (by omega)
  have hsplit : 2 ^ 64 = 2 ^ r * 2 ^ (64 - r) := by
    rw [← Nat.pow_add, Nat.add_sub_cancel' (by omega)]
  rw [Bits.toNat_shiftRight (by omega), hr', toNat_word, hsplit, Nat.mod_mul_right_div_self]

/-- The mask of a window keeps its low bits. -/
theorem toNat_and_windowMask (a : UInt64) {w : Nat} (hw : w < 64) :
    (a &&& ((1 <<< w.toUInt64) - 1)).toNat = a.toNat % 2 ^ w := by
  have hw' : w.toUInt64.toNat = w := Nat.mod_eq_of_lt (by omega)
  have hlt : 2 ^ w < 2 ^ 64 := Nat.pow_lt_pow_right (by decide) hw
  have hpos : 0 < 2 ^ w := Nat.two_pow_pos w
  have hone : (1 : UInt64).toNat = 1 := rfl
  have hshift : ((1 : UInt64) <<< w.toUInt64).toNat = 2 ^ w := by
    rw [UInt64.toNat_shiftLeft, hw', Nat.mod_eq_of_lt hw, hone, Nat.shiftLeft_eq, Nat.one_mul,
      Nat.mod_eq_of_lt hlt]
  apply Bits.toNat_and_ones
  rw [UInt64.toNat_sub, hshift, hone]
  omega

/-- **Windows.**  The `w` bits from bit `pos` on are those of the number. -/
theorem toNat_window (x : Word256) {w : Nat} (pos : Nat) (hw : w ≤ 16) :
    (x.window w pos).toNat = x.toNat / 2 ^ pos % 2 ^ w := by
  have hr := bitOffset_lt pos
  have hlow := toNat_word_shiftRight x (wordIndex pos) hr
  have hpos : 2 ^ pos = 2 ^ (64 * wordIndex pos) * 2 ^ bitOffset pos := by
    rw [← Nat.pow_add, wordIndex, bitOffset, Nat.div_add_mod]
  simp only [window]
  rw [toNat_and_windowMask _ (by omega), hpos, ← Nat.div_div_eq_div_mul]
  by_cases hstraddle : Straddles w pos
  · -- the pieces meet at bit `64 - r` of the window
    have hrpos := hstraddle.bitOffset_pos (by omega)
    have hk : (64 - bitOffset pos).toUInt64.toNat = 64 - bitOffset pos :=
      Nat.mod_eq_of_lt (by omega)
    have hsplit : 2 ^ 64 = 2 ^ (64 - bitOffset pos) * 2 ^ bitOffset pos := by
      rw [← Nat.pow_add, Nat.sub_add_cancel (by omega)]
    have hnext : x.toNat / 2 ^ (64 * (wordIndex pos + 1)) =
        x.toNat / 2 ^ (64 * wordIndex pos) / 2 ^ bitOffset pos / 2 ^ (64 - bitOffset pos) := by
      rw [Nat.div_div_eq_div_mul, Nat.div_div_eq_div_mul, ← Nat.pow_add, ← Nat.pow_add]
      congr 2
      omega
    rw [if_pos hstraddle, Bits.toNat_or_shiftLeft_mod (by omega), hk, hlow, toNat_word, hnext,
      Nat.sub_sub_self (by omega),
      Nat.mod_mod_of_dvd _ (Nat.pow_dvd_pow 2 (by omega : bitOffset pos ≤ 64)),
      Nat.mul_comm (_ % 2 ^ bitOffset pos),
      ← Nat.mod_mul, ← hsplit, Nat.mod_mod_of_dvd _ (Nat.pow_dvd_pow 2 (by omega : w ≤ 64))]
    · rw [hk, hlow]
      exact Nat.mod_lt _ (Nat.two_pow_pos _)
  · rw [if_neg hstraddle, hlow, Nat.mod_mod_of_dvd]
    apply Nat.pow_dvd_pow
    unfold Straddles at hstraddle
    omega

end Word256

end TwistedEdwards
