import TwistedEdwards.Word.Bits

/-!
# Little-endian bytes

Numbers travel as byte strings, least significant byte first.  `value` reads a
string of any length, `bytes` writes a number in a given number of bytes, and
`Octets n` is a string whose length is known.

Main statements: `LittleEndian.value_bytes` (writing keeps the number modulo
`256 ^ n`) and `LittleEndian.bytes_value` (reading loses nothing), so the strings
of one length are exactly the numbers below `256 ^ n`; `LittleEndian.toNat_word` and
`LittleEndian.toList_ofWord` say the same of whole words.  `Octets.topBit_xorTopBit` and
`Octets.clearTopBit_xorTopBit` say what flipping the highest of 256 bits does, and
`Octets.value_clearTopBit` and `Octets.value_xorTopBit` what that bit is worth.
-/

namespace TwistedEdwards

/-- A byte string of length `n`. -/
abbrev Octets (n : Nat) := Vector UInt8 n

namespace Octets

/-- The string of a list of the right length. -/
def ofList? (n : Nat) (bs : List UInt8) : Option (Octets n) :=
  if h : bs.length = n then some ⟨bs.toArray, by simp [h]⟩ else none

/-- Bit `i` of the number: bit `i % 8` of byte `i / 8`. -/
def bit {n : Nat} (bs : Octets n) (i : Nat) : Bool :=
  (bs.toList.getD (i >>> 3) 0 >>> (i &&& 7).toUInt8) &&& 1 == 1

/-- The highest of 256 bits. -/
def topBit (bs : Octets 32) : Bool := bs[31] >>> 7 == 1

/-- The other 255 bits. -/
def clearTopBit (bs : Octets 32) : Octets 32 := bs.set 31 (bs[31] &&& 0x7f)

/-- Flips the highest bit if `bit` is set. -/
def xorTopBit (bs : Octets 32) (bit : Bool) : Octets 32 :=
  bs.set 31 (bs[31] ^^^ if bit then 0x80 else 0)

/-- Flipping the highest bit shows in that bit. -/
theorem topBit_xorTopBit (bs : Octets 32) (bit : Bool) :
    (bs.xorTopBit bit).topBit = (bs.topBit ^^ bit) := by
  have hall : ∀ i : Fin 256,
      ((UInt8.ofFin i ^^^ 0x80) >>> 7 == 1) = !(UInt8.ofFin i >>> 7 == 1) := by
    decide +kernel
  cases bit with
  | false => simp [topBit, xorTopBit]
  | true => simpa [topBit, xorTopBit] using hall bs[31].toFin

/-- Flipping the highest bit leaves the others. -/
theorem clearTopBit_xorTopBit (bs : Octets 32) (bit : Bool) :
    (bs.xorTopBit bit).clearTopBit = bs.clearTopBit := by
  have hall : ∀ i : Fin 256, (UInt8.ofFin i ^^^ 0x80) &&& 0x7f = UInt8.ofFin i &&& 0x7f := by
    decide +kernel
  cases bit with
  | false => simp [clearTopBit, xorTopBit]
  | true =>
    simp only [clearTopBit, xorTopBit, Vector.getElem_set_self, Vector.set_set, if_true]
    exact congrArg (fun top => bs.set 31 top) (hall bs[31].toFin)

end Octets

namespace LittleEndian

/-- The number that a byte string stands for. -/
def value : List UInt8 → Nat
  | [] => 0
  | b :: bs => b.toNat + 256 * value bs

/-- The `n` low bytes of a number. -/
def bytes : (n : Nat) → (v : Nat) → List UInt8
  | 0, _ => []
  | n + 1, v => v.toUInt8 :: bytes n (v / 256)

@[simp] theorem length_bytes (n v : Nat) : (bytes n v).length = n := by
  induction n generalizing v with
  | zero => rfl
  | succ n ih => simp [bytes, ih]

/-- A string of `n` bytes stands for a number below `256 ^ n`. -/
theorem value_lt (bs : List UInt8) : value bs < 256 ^ bs.length := by
  induction bs with
  | nil => simp [value]
  | cons b bs ih =>
    have hb := b.toNat_lt
    simp only [value, List.length_cons, Nat.pow_succ]
    omega

/-- Writing keeps a number modulo `256 ^ n`. -/
theorem value_bytes (n v : Nat) : value (bytes n v) = v % 256 ^ n := by
  induction n generalizing v with
  | zero => simp [value, bytes, Nat.mod_one]
  | succ n ih =>
    have hlow : v.toUInt8.toNat = v % 256 := UInt8.toNat_ofNat'
    rw [bytes, value, ih, hlow, Nat.pow_succ', Nat.mod_mul]

/-- What is read is written back. -/
theorem bytes_value (bs : List UInt8) : bytes bs.length (value bs) = bs := by
  induction bs with
  | nil => rfl
  | cons b bs ih =>
    have hb := b.toNat_lt
    have hlow : (value (b :: bs)).toUInt8 = b := by
      apply UInt8.toNat_inj.mp
      simp only [value, Nat.toUInt8_eq, UInt8.toNat_ofNat']
      omega
    have hrest : value (b :: bs) / 256 = value bs := by
      simp only [value]
      omega
    rw [List.length_cons, bytes, hlow, hrest, ih]

/-- Only zeros stand for zero. -/
theorem value_eq_zero_iff (bs : List UInt8) : value bs = 0 ↔ ∀ b ∈ bs, b = 0 := by
  induction bs with
  | nil => simp [value]
  | cons b bs ih =>
    have hzero : (0 : UInt8).toNat = 0 := rfl
    rw [List.forall_mem_cons, ← ih, value, ← UInt8.toNat_inj, hzero]
    omega

/-- The bits of a number are those of its bytes, eight at a time. -/
theorem testBit_value (bs : List UInt8) (i : Nat) :
    (value bs).testBit i = (bs.getD (i / 8) 0).toNat.testBit (i % 8) := by
  induction bs generalizing i with
  | nil => simp [value]
  | cons b bs ih =>
    have hb : b.toNat < 2 ^ 8 := b.toNat_lt
    have hvalue : value (b :: bs) = 2 ^ 8 * value bs + b.toNat := by
      rw [value]
      omega
    rw [hvalue, Nat.testBit_two_pow_mul_add _ hb]
    split
    · next hi => rw [Nat.div_eq_of_lt hi, Nat.mod_eq_of_lt hi, List.getD_cons_zero]
    · next hi =>
      have hplace : i / 8 = (i - 8) / 8 + 1 := by omega
      have hrest : i % 8 = (i - 8) % 8 := by omega
      rw [ih, hplace, hrest, List.getD_cons_succ]

theorem value_append (low high : List UInt8) :
    value (low ++ high) = value low + 256 ^ low.length * value high := by
  induction low with
  | nil => simp [value]
  | cons b low ih =>
    rw [List.cons_append, value, value, ih, List.length_cons, Nat.pow_succ', Nat.mul_add,
      Nat.mul_assoc, Nat.add_assoc]

/-- A byte below the bytes of a word. -/
@[inline] def join (b : UInt8) (w : UInt64) : UInt64 := b.toUInt64 ||| w <<< 8

/-- The eight bytes of `bs` from position `i` on, as a word. -/
@[inline] def word {n : Nat} (bs : Octets n) (i : Nat) (h : i + 8 ≤ n := by decide) : UInt64 :=
  join bs[i] (join bs[i + 1] (join bs[i + 2] (join bs[i + 3] (join bs[i + 4]
    (join bs[i + 5] (join bs[i + 6] bs[i + 7].toUInt64))))))

/-- A word as eight bytes. -/
def ofWord (w : UInt64) : Octets 8 :=
  #v[w.toUInt8, (w >>> 8).toUInt8, (w >>> 16).toUInt8, (w >>> 24).toUInt8,
    (w >>> 32).toUInt8, (w >>> 40).toUInt8, (w >>> 48).toUInt8, (w >>> 56).toUInt8]

theorem toNat_join {b : UInt8} {w : UInt64} (hw : w.toNat < 2 ^ 56) :
    (join b w).toNat = b.toNat + 256 * w.toNat := by
  have hb : b.toUInt64.toNat < 2 ^ (8 : UInt64).toNat := b.toNat_lt
  rw [join, Bits.toNat_or_shiftLeft (by decide) hb hw, Nat.mul_comm]
  rfl

/-- A word stands for its bytes. -/
theorem toNat_word {n : Nat} (bs : Octets n) (i : Nat) (h : i + 8 ≤ n) :
    (word bs i h).toNat =
      value [bs[i], bs[i + 1], bs[i + 2], bs[i + 3], bs[i + 4], bs[i + 5], bs[i + 6],
        bs[i + 7]] := by
  have hlast : bs[i + 7].toUInt64.toNat = value [bs[i + 7]] := rfl
  have hjoin : ∀ (b : UInt8) (rest : List UInt8) (w : UInt64), w.toNat = value rest →
      rest.length < 8 → (join b w).toNat = value (b :: rest) := by
    intro b rest w hw hlen
    have hbound : w.toNat < 2 ^ 56 := by
      rw [hw]
      exact Nat.lt_of_lt_of_le (value_lt rest)
        (Nat.pow_le_pow_right (by decide : 0 < 256) (by omega : rest.length ≤ 7))
    rw [toNat_join hbound, hw, value]
  exact hjoin _ _ _ (hjoin _ _ _ (hjoin _ _ _ (hjoin _ _ _ (hjoin _ _ _ (hjoin _ _ _
    (hjoin _ _ _ hlast (by simp)) (by simp)) (by simp)) (by simp)) (by simp)) (by simp)) (by simp)

/-- A word is written as its eight low bytes. -/
theorem toList_ofWord (w : UInt64) : (ofWord w).toList = bytes 8 w.toNat := by
  have hbyte : ∀ k : UInt64, k.toNat < 64 →
      (w >>> k).toUInt8 = (w.toNat / 2 ^ k.toNat).toUInt8 := by
    intro k hk
    apply UInt8.toNat_inj.mp
    rw [UInt64.toNat_toUInt8, Bits.toNat_shiftRight hk]
    rfl
  have hfirst : w.toUInt8 = w.toNat.toUInt8 := by
    apply UInt8.toNat_inj.mp
    rw [UInt64.toNat_toUInt8]
    rfl
  simp only [ofWord, bytes, hfirst, hbyte 8 (by decide), hbyte 16 (by decide),
    hbyte 24 (by decide), hbyte 32 (by decide), hbyte 40 (by decide), hbyte 48 (by decide),
    hbyte 56 (by decide), Nat.div_div_eq_div_mul]
  rfl

/-- A string read from position `i` on begins with the word there. -/
theorem value_drop {n : Nat} (bs : Octets n) (i : Nat) (h : i + 8 ≤ n) :
    value (bs.toList.drop i) = (word bs i h).toNat + 2 ^ 64 * value (bs.toList.drop (i + 8)) := by
  have hlen : bs.toList.length = n := Vector.length_toList
  have hcons : ∀ j, (hj : j < n) → bs.toList.drop j = bs[j] :: bs.toList.drop (j + 1) := by
    intro j hj
    rw [List.drop_eq_getElem_cons (by omega), Vector.getElem_toList]
  rw [toNat_word, hcons i (by omega), hcons (i + 1) (by omega), hcons (i + 2) (by omega),
    hcons (i + 3) (by omega), hcons (i + 4) (by omega), hcons (i + 5) (by omega),
    hcons (i + 6) (by omega), hcons (i + 7) (by omega)]
  simp only [value, Nat.add_assoc, Nat.mul_add, ← Nat.mul_assoc, Nat.reduceMul, Nat.reduceAdd,
    Nat.reducePow, Nat.mul_zero, Nat.zero_add]

end LittleEndian

namespace Octets

open LittleEndian

/-- A string is the bytes of its number. -/
theorem toList_eq_bytes {n : Nat} (bs : Octets n) : bs.toList = bytes n (value bs.toList) := by
  have hbytes := bytes_value bs.toList
  rw [Vector.length_toList] at hbytes
  exact hbytes.symm

/-- Strings of one length that stand for the same number are equal. -/
theorem value_inj {n : Nat} {a b : Octets n} (h : value a.toList = value b.toList) : a = b := by
  apply Vector.toList_inj.mp
  rw [toList_eq_bytes a, toList_eq_bytes b, h]

/-- A bit is read off its byte. -/
theorem bit_eq_testBit {n : Nat} (bs : Octets n) (i : Nat) :
    bs.bit i = (value bs.toList).testBit i := by
  have hlow : i &&& 7 = i % 8 := Nat.and_two_pow_sub_one_eq_mod i 3
  have hplace : i >>> 3 = i / 8 := Nat.shiftRight_eq_div_pow i 3
  have hlt : i % 8 < 8 := Nat.mod_lt i (by decide)
  have hshift : (i % 8).toUInt8.toNat % 8 = i % 8 := by
    rw [Nat.toUInt8_eq, UInt8.toNat_ofNat']
    omega
  have hone : (1 : UInt8).toNat = 1 := rfl
  rw [bit, hlow, hplace, testBit_value, Nat.testBit_eq_decide_div_mod_eq, Bool.eq_iff_iff,
    beq_iff_eq, decide_eq_true_iff, ← UInt8.toNat_inj, UInt8.toNat_and, UInt8.toNat_shiftRight,
    hshift, hone, Nat.and_one_is_mod, Nat.shiftRight_eq_div_pow]

/-- The last byte counts for the multiples of `2 ^ 248`. -/
theorem value_set_last (bs : Octets 32) (b : UInt8) :
    value (bs.set 31 b).toList = value (bs.toList.take 31) + 2 ^ 248 * b.toNat := by
  have hsplit : (bs.set 31 b).toList = bs.toList.take 31 ++ [b] := by
    rw [Vector.toList_set, List.set_eq_take_append_cons_drop, if_pos (by simp)]
    simp
  rw [hsplit, value_append]
  simp [value]

/-- The last of 32 bytes stands above the others. -/
theorem value_eq_take (bs : Octets 32) :
    value bs.toList = value (bs.toList.take 31) + 2 ^ 248 * bs[31].toNat := by
  rw [← value_set_last, Vector.set_getElem_self]

/-- The other bits are the number modulo `2 ^ 255`. -/
theorem value_clearTopBit (bs : Octets 32) :
    value bs.clearTopBit.toList = value bs.toList % 2 ^ 255 := by
  have hlow := value_lt (bs.toList.take 31)
  have hlen : (bs.toList.take 31).length = 31 := by simp
  have hbyte : (bs[31] &&& 0x7f).toNat = bs[31].toNat % 2 ^ 7 := by
    rw [UInt8.toNat_and]
    exact Nat.and_two_pow_sub_one_eq_mod _ 7
  rw [clearTopBit, value_set_last, hbyte, value_eq_take bs]
  rw [hlen] at hlow
  omega

/-- The highest bit is what is left above. -/
theorem topBit_iff (bs : Octets 32) : bs.topBit = true ↔ value bs.toList / 2 ^ 255 = 1 := by
  have hlow := value_lt (bs.toList.take 31)
  have hlen : (bs.toList.take 31).length = 31 := by simp
  have hbyte : (bs[31] >>> 7).toNat = bs[31].toNat / 2 ^ 7 := by
    rw [UInt8.toNat_shiftRight, Nat.shiftRight_eq_div_pow]
    rfl
  have hone : (1 : UInt8).toNat = 1 := rfl
  rw [topBit, beq_iff_eq, ← UInt8.toNat_inj, hbyte, hone, value_eq_take bs]
  rw [hlen] at hlow
  omega

/-- Flipping the highest bit of a number that does not have it adds `2 ^ 255`. -/
theorem value_xorTopBit {bs : Octets 32} (hbs : value bs.toList < 2 ^ 255) (bit : Bool) :
    value (bs.xorTopBit bit).toList = value bs.toList + if bit then 2 ^ 255 else 0 := by
  have hclear : (bs.xorTopBit bit).clearTopBit = bs.clearTopBit := clearTopBit_xorTopBit bs bit
  have htop := topBit_iff (bs.xorTopBit bit)
  have hbit : bs.topBit = false := by
    rw [← Bool.not_eq_true, topBit_iff]
    omega
  have hmod := congrArg (fun bs : Octets 32 => value bs.toList) hclear
  simp only [value_clearTopBit] at hmod
  have hlt := value_lt (bs.xorTopBit bit).toList
  have hlen : (bs.xorTopBit bit).toList.length = 32 := by simp
  rw [topBit_xorTopBit, hbit, Bool.false_xor] at htop
  rw [hlen] at hlt
  cases bit with
  | false =>
    simp only [Bool.false_eq_true, false_iff, if_false] at htop ⊢
    omega
  | true =>
    simp only [if_true, true_iff] at htop ⊢
    omega

end Octets

/-- Sets `count` bytes from position `start` on to zero; without a start nothing is erased. -/
def erase (buffer : List UInt8) (start : Option Nat) (count : Nat) : List UInt8 :=
  match start with
  | none => buffer
  | some i => buffer.take i ++ List.replicate count 0 ++ buffer.drop (i + count)

end TwistedEdwards
