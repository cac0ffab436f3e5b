import TwistedEdwards.Word.LittleEndian

/-!
# Strings of 256 bits

Field elements, scalars and digit expansions all start from 32 bytes.  A
`Word256` is such a string as four little-endian words, the form in which limbs
and digit windows are cut out of it.

Main statements: `Word256.toNat_ofOctets` and `Word256.value_toOctets`, the words and
the string stand for the same number.
-/

namespace TwistedEdwards

/-- Four words, least significant first. -/
structure Word256 where
  w0 : UInt64
  w1 : UInt64
  w2 : UInt64
  w3 : UInt64
deriving DecidableEq

namespace Word256

/-- The number below `2 ^ 256` that the words stand for. -/
def toNat (x : Word256) : Nat :=
  x.w0.toNat + x.w1.toNat * 2 ^ 64 + x.w2.toNat * 2 ^ 128 + x.w3.toNat * 2 ^ 192

theorem toNat_lt (x : Word256) : x.toNat < 2 ^ 256 := by
  have h0 := x.w0.toNat_lt
  have h1 := x.w1.toNat_lt
  have h2 := x.w2.toNat_lt
  have h3 := x.w3.toNat_lt
  simp only [toNat]
  omega

/-- The four words of a 32-byte string. -/
def ofOctets (bs : Octets 32) : Word256 :=
  ⟨LittleEndian.word bs 0, LittleEndian.word bs 8, LittleEndian.word bs 16,
    LittleEndian.word bs 24⟩

/-- The 32 bytes of the four words. -/
def toOctets (x : Word256) : Octets 32 :=
  LittleEndian.ofWord x.w0 ++ LittleEndian.ofWord x.w1 ++ LittleEndian.ofWord x.w2 ++
    LittleEndian.ofWord x.w3

/-- The words stand for the number of the string. -/
theorem toNat_ofOctets (bs : Octets 32) : (ofOctets bs).toNat = LittleEndian.value bs.toList := by
  have hend : bs.toList.drop 32 = [] := List.drop_of_length_le (by simp)
  have h0 := LittleEndian.value_drop bs 0 (by decide)
  have h1 := LittleEndian.value_drop bs 8 (by decide)
  have h2 := LittleEndian.value_drop bs 16 (by decide)
  have h3 := LittleEndian.value_drop bs 24 (by decide)
  simp only [Nat.reduceAdd, hend, List.drop_zero, LittleEndian.value] at h0 h1 h2 h3
  simp only [toNat, ofOctets]
  omega

/-- The string of the words stands for their number. -/
theorem value_toOctets (x : Word256) : LittleEndian.value x.toOctets.toList = x.toNat := by
  have hword : ∀ w : UInt64, LittleEndian.value (LittleEndian.bytes 8 w.toNat) = w.toNat := by
    intro w
    rw [LittleEndian.value_bytes, Nat.mod_eq_of_lt w.toNat_lt]
  simp only [toOctets, Vector.toList_append, LittleEndian.toList_ofWord,
    LittleEndian.value_append, List.length_append, LittleEndian.length_bytes, hword, toNat]
  omega

/-- Word `i` of the string followed by a zero word, so that a window of bits may
run past the top. -/
def word (x : Word256) : Nat → UInt64
  | 0 => x.w0
  | 1 => x.w1
  | 2 => x.w2
  | 3 => x.w3
  | _ => 0

/-- The word that holds bit `pos`. -/
def wordIndex (pos : Nat) : Nat := pos / 64

/-- The place of bit `pos` in its word. -/
def bitOffset (pos : Nat) : Nat := pos % 64

/-- A window of `w` bits from bit `pos` on runs into the next word. -/
def Straddles (w pos : Nat) : Prop := 64 < bitOffset pos + w

instance (w pos : Nat) : Decidable (Straddles w pos) := by
  unfold Straddles; infer_instance

/-- The `w` bits from bit `pos` on, for `0 < w ≤ 16`: the word that holds the first
of them shifted down, joined with the next word where the window runs into it. -/
def window (x : Word256) (w pos : Nat) : UInt64 :=
  let low := x.word (wordIndex pos) >>> (bitOffset pos).toUInt64
  let bits :=
    if Straddles w pos then
      low ||| x.word (wordIndex pos + 1) <<< (64 - bitOffset pos).toUInt64
    else low
  bits &&& ((1 <<< w.toUInt64) - 1)

/-- A window that starts below bit 256 reads no word past the zero word. -/
theorem wordIndex_lt {pos : Nat} (h : pos < 256) : wordIndex pos + 1 < 5 := by
  simp only [wordIndex]
  omega

theorem bitOffset_lt (pos : Nat) : bitOffset pos < 64 := Nat.mod_lt _ (by decide)

/-- A window of at most 64 bits that straddles does not start at the foot of a word, so
the next word is never shifted by a whole word. -/
theorem Straddles.bitOffset_pos {w pos : Nat} (h : Straddles w pos) (hw : w ≤ 64) :
    0 < bitOffset pos := by
  simp only [Straddles] at h
  omega

end Word256

end TwistedEdwards
