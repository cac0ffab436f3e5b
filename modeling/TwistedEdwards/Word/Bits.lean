/-!
# Fields of bits

Limbs, words and bytes are cut out of one another with shifts and masks, and put
together with shifts and disjunctions.

Bounds are powers of two, on natural numbers and on integers.  Within the namespace
such a power is always the built-in one, also where a library adds a power of its own.

Main statements: `Bits.toNat_or_shiftLeft`, fields that do not overlap add up, and
`Bits.toNat_and_ones`, a mask keeps the low bits.
-/

namespace TwistedEdwards

attribute [default_instance 20000, scoped instance (20000)] instPowNat

namespace Bits

/-- Fields of bits that do not overlap add up; the bits shifted past the top are lost. -/
theorem toNat_or_shiftLeft_mod {a b k : UInt64} (hk : k.toNat < 64) (ha : a.toNat < 2 ^ k.toNat) :
    (a ||| b <<< k).toNat = a.toNat + b.toNat % 2 ^ (64 - k.toNat) * 2 ^ k.toNat := by
  have hsplit : (2 : Nat) ^ 64 = 2 ^ (64 - k.toNat) * 2 ^ k.toNat := by
    rw [← Nat.pow_add]; congr 1; omega
  rw [UInt64.toNat_or, UInt64.toNat_shiftLeft, Nat.mod_eq_of_lt hk, Nat.shiftLeft_eq, hsplit,
    Nat.mul_mod_mul_right, Nat.or_comm, ← Nat.shiftLeft_eq, ← Nat.shiftLeft_add_eq_or_of_lt ha,
    Nat.add_comm, Nat.shiftLeft_eq]

/-- Fields of bits that do not overlap add up. -/
theorem toNat_or_shiftLeft {a b k : UInt64} (hk : k.toNat < 64) (ha : a.toNat < 2 ^ k.toNat)
    (hb : b.toNat < 2 ^ (64 - k.toNat)) :
    (a ||| b <<< k).toNat = a.toNat + b.toNat * 2 ^ k.toNat := by
  rw [toNat_or_shiftLeft_mod hk ha, Nat.mod_eq_of_lt hb]

/-- A mask of `k` ones keeps the low `k` bits. -/
theorem toNat_and_ones {a m : UInt64} {k : Nat} (hm : m.toNat = 2 ^ k - 1) :
    (a &&& m).toNat = a.toNat % 2 ^ k := by
  rw [UInt64.toNat_and, hm, Nat.and_two_pow_sub_one_eq_mod]

/-- A shift by fewer than 64 bits divides. -/
theorem toNat_shiftRight {a k : UInt64} (hk : k.toNat < 64) :
    (a >>> k).toNat = a.toNat / 2 ^ k.toNat := by
  rw [UInt64.toNat_shiftRight, Nat.mod_eq_of_lt hk, Nat.shiftRight_eq_div_pow]

/-- The high bits of one word below the low bits of another; those shifted past the top are lost. -/
theorem toNat_shiftRight_or_shiftLeft {a b j k : UInt64} (hj : j.toNat < 64) (hk : k.toNat < 64)
    (ha : a.toNat < 2 ^ (j.toNat + k.toNat)) :
    (a >>> j ||| b <<< k).toNat =
      a.toNat / 2 ^ j.toNat + b.toNat % 2 ^ (64 - k.toNat) * 2 ^ k.toNat := by
  have hlow : (a >>> j).toNat < 2 ^ k.toNat := by
    rw [toNat_shiftRight hj]
    apply Nat.div_lt_of_lt_mul
    rw [← Nat.pow_add]
    exact ha
  rw [toNat_or_shiftLeft_mod hk hlow, toNat_shiftRight hj]

end Bits

end TwistedEdwards
