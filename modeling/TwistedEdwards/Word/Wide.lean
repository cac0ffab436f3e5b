import TwistedEdwards.Word.Bits

/-!
# Double words

A `Wide` is a 128-bit word kept as two 64-bit halves.  It is what a column of
a limb product is summed in, so it has just the operations a column needs: the
product of two words, the wrapping sum, and reading a word off a right shift.

Main statements: `Wide.toNat_product` (the product of two words never loses a
bit), `Wide.toNat_add` and `Wide.toNat_addWord` (sums wrap at `2 ^ 128`), and
`Wide.toNat_shiftRight` (the word read off a shift).
-/

namespace TwistedEdwards

/-- A 128-bit word, high half first. -/
structure Wide where
  hi : UInt64
  lo : UInt64
deriving DecidableEq

namespace Wide

/-- The number a double word stands for. -/
def toNat (x : Wide) : Nat := x.hi.toNat * 2 ^ 64 + x.lo.toNat

theorem toNat_lt (x : Wide) : x.toNat < 2 ^ 128 := by
  have hhi := x.hi.toNat_lt
  have hlo := x.lo.toNat_lt
  simp only [toNat]
  omega

/-- Double words of one number are the same. -/
theorem toNat_inj {x y : Wide} (h : x.toNat = y.toNat) : x = y := by
  obtain ⟨xhi, xlo⟩ := x
  obtain ⟨yhi, ylo⟩ := y
  have hx := xlo.toNat_lt
  have hy := ylo.toNat_lt
  simp only [toNat] at h
  simp only [Wide.mk.injEq, ← UInt64.toNat_inj]
  omega

/-- The low half of a word. -/
@[inline] def lowHalf (a : UInt64) : UInt64 := a &&& 0xffffffff

/-- The high half of a word. -/
@[inline] def highHalf (a : UInt64) : UInt64 := a >>> 32

/-- The high word of a product, from the four products of halves. -/
@[inline] def productHigh (a b : UInt64) : UInt64 :=
  let p00 := lowHalf a * lowHalf b
  let p01 := lowHalf a * highHalf b
  let p10 := highHalf a * lowHalf b
  let p11 := highHalf a * highHalf b
  let mid := highHalf p00 + lowHalf p01 + lowHalf p10
  p11 + highHalf p01 + highHalf p10 + highHalf mid

/-- The whole product of two words. -/
@[inline] def product (a b : UInt64) : Wide := ⟨productHigh a b, a * b⟩

/-- The sum, wrapping at `2 ^ 128`. -/
@[inline] def add (x y : Wide) : Wide :=
  let lo := x.lo + y.lo
  let hi := x.hi + y.hi
  ⟨if lo < x.lo then hi + 1 else hi, lo⟩

instance : Add Wide := ⟨add⟩

/-- The sum with a single word, wrapping at `2 ^ 128`. -/
@[inline] def addWord (x : Wide) (c : UInt64) : Wide :=
  let lo := x.lo + c
  ⟨if lo < c then x.hi + 1 else x.hi, lo⟩

/-- The low word of `x` shifted right by `k`, for `0 < k < 64`. -/
@[inline] def shiftRight (x : Wide) (k : UInt64) : UInt64 :=
  (x.hi <<< (64 - k)) ||| (x.lo >>> k)

theorem toNat_lowHalf (a : UInt64) : (lowHalf a).toNat = a.toNat % 2 ^ 32 := by
  simp only [lowHalf, UInt64.toNat_and]
  exact Nat.and_two_pow_sub_one_eq_mod a.toNat 32

theorem toNat_highHalf (a : UInt64) : (highHalf a).toNat = a.toNat / 2 ^ 32 := by
  simp [highHalf, UInt64.toNat_shiftRight, Nat.shiftRight_eq_div_pow]

/-- A product of halves fits a word. -/
private theorem toNat_mul_of_lt_half {a b : UInt64}
    (ha : a.toNat < 2 ^ 32) (hb : b.toNat < 2 ^ 32) :
    (a * b).toNat = a.toNat * b.toNat ∧
      a.toNat * b.toNat ≤ (2 ^ 32 - 1) * (2 ^ 32 - 1) := by
  have hle : a.toNat * b.toNat ≤ (2 ^ 32 - 1) * (2 ^ 32 - 1) :=
    Nat.mul_le_mul (by omega) (by omega)
  exact ⟨by rw [UInt64.toNat_mul, Nat.mod_eq_of_lt (by omega)], hle⟩

/-- The halves of two words multiply out to their product. -/
private theorem halves_mul (a b : Nat) :
    a * b = (a / 2 ^ 32) * (b / 2 ^ 32) * 2 ^ 64 +
      ((a % 2 ^ 32) * (b / 2 ^ 32) + (a / 2 ^ 32) * (b % 2 ^ 32)) * 2 ^ 32 +
      (a % 2 ^ 32) * (b % 2 ^ 32) := by
  have ha := (Nat.div_add_mod a (2 ^ 32)).symm
  have hb := (Nat.div_add_mod b (2 ^ 32)).symm
  generalize a / 2 ^ 32 = a1 at *
  generalize a % 2 ^ 32 = a0 at *
  generalize b / 2 ^ 32 = b1 at *
  generalize b % 2 ^ 32 = b0 at *
  subst ha hb
  grind

/-- The high word of a product, put together from half words. -/
theorem toNat_productHigh (a b : UInt64) :
    (productHigh a b).toNat = a.toNat * b.toNat / 2 ^ 64 := by
  have hal : (lowHalf a).toNat < 2 ^ 32 := by rw [toNat_lowHalf]; omega
  have hbl : (lowHalf b).toNat < 2 ^ 32 := by rw [toNat_lowHalf]; omega
  have hah : (highHalf a).toNat < 2 ^ 32 := by
    have := a.toNat_lt; rw [toNat_highHalf]; omega
  have hbh : (highHalf b).toNat < 2 ^ 32 := by
    have := b.toNat_lt; rw [toNat_highHalf]; omega
  obtain ⟨e00, l00⟩ := toNat_mul_of_lt_half hal hbl
  obtain ⟨e01, l01⟩ := toNat_mul_of_lt_half hal hbh
  obtain ⟨e10, l10⟩ := toNat_mul_of_lt_half hah hbl
  obtain ⟨e11, l11⟩ := toNat_mul_of_lt_half hah hbh
  have hsum := halves_mul a.toNat b.toNat
  rw [← toNat_lowHalf a, ← toNat_lowHalf b, ← toNat_highHalf a,
    ← toNat_highHalf b] at hsum
  simp only [productHigh, UInt64.toNat_add, toNat_highHalf, toNat_lowHalf] at *
  simp only [e00, e01, e10, e11] at *
  generalize a.toNat % 2 ^ 32 * (b.toNat % 2 ^ 32) = p00 at *
  generalize a.toNat % 2 ^ 32 * (b.toNat / 2 ^ 32) = p01 at *
  generalize a.toNat / 2 ^ 32 * (b.toNat % 2 ^ 32) = p10 at *
  generalize a.toNat / 2 ^ 32 * (b.toNat / 2 ^ 32) = p11 at *
  omega

/-- The product of two words is exact. -/
theorem toNat_product (a b : UInt64) : (product a b).toNat = a.toNat * b.toNat := by
  simp only [toNat, product, toNat_productHigh, UInt64.toNat_mul]
  exact Nat.div_add_mod' _ _

/-- Sums of double words wrap at `2 ^ 128`. -/
theorem toNat_add (x y : Wide) : (x + y).toNat = (x.toNat + y.toNat) % 2 ^ 128 := by
  have hx := x.hi.toNat_lt
  have hy := y.hi.toNat_lt
  have hxl := x.lo.toNat_lt
  have hyl := y.lo.toNat_lt
  show (add x y).toNat = _
  simp only [add, toNat, UInt64.lt_iff_toNat_lt, UInt64.toNat_add]
  split
  · rw [UInt64.toNat_add, UInt64.toNat_add, UInt64.toNat_one]; omega
  · rw [UInt64.toNat_add]; omega

/-- Adding a word to a double word wraps at `2 ^ 128`. -/
theorem toNat_addWord (x : Wide) (c : UInt64) :
    (x.addWord c).toNat = (x.toNat + c.toNat) % 2 ^ 128 := by
  have hx := x.hi.toNat_lt
  have hxl := x.lo.toNat_lt
  have hc := c.toNat_lt
  simp only [addWord, toNat, UInt64.lt_iff_toNat_lt, UInt64.toNat_add]
  split
  · rw [UInt64.toNat_add, UInt64.toNat_one]; omega
  · omega

/-- A shift reads the 64 bits above bit `k`. -/
theorem toNat_shiftRight (x : Wide) {k : UInt64} (hpos : 0 < k.toNat) (hk : k.toNat < 64) :
    (x.shiftRight k).toNat = x.toNat / 2 ^ k.toNat % 2 ^ 64 := by
  have hxl := x.lo.toNat_lt
  have hsub : (64 - k).toNat = 64 - k.toNat :=
    UInt64.toNat_sub_of_le 64 k (UInt64.le_iff_toNat_le.mpr (Nat.le_of_lt hk))
  have hmod : (64 - k.toNat) % 64 = 64 - k.toNat := Nat.mod_eq_of_lt (by omega)
  have hsplit : (2 : Nat) ^ 64 = 2 ^ k.toNat * 2 ^ (64 - k.toNat) := by
    rw [← Nat.pow_add]; congr 1; omega
  have hlow : x.lo.toNat / 2 ^ k.toNat < 2 ^ (64 - k.toNat) := by
    rw [Nat.div_lt_iff_lt_mul (Nat.two_pow_pos _), Nat.mul_comm, ← hsplit]
    exact hxl
  have hdiv : x.toNat / 2 ^ k.toNat =
      x.hi.toNat * 2 ^ (64 - k.toNat) + x.lo.toNat / 2 ^ k.toNat := by
    rw [toNat, hsplit, Nat.mul_left_comm, Nat.mul_add_div (Nat.two_pow_pos _)]
  have hhigh : x.hi.toNat * 2 ^ (64 - k.toNat) % 2 ^ 64 =
      (x.hi.toNat % 2 ^ k.toNat) * 2 ^ (64 - k.toNat) := by
    rw [hsplit, Nat.mul_mod_mul_right]
  have hrest : (x.hi.toNat % 2 ^ k.toNat) * 2 ^ (64 - k.toNat) +
      x.lo.toNat / 2 ^ k.toNat < 2 ^ 64 := by
    have hbits := Nat.mod_lt x.hi.toNat (Nat.two_pow_pos k.toNat)
    have hstep := Nat.mul_le_mul_right (2 ^ (64 - k.toNat)) (Nat.succ_le_of_lt hbits)
    rw [Nat.succ_mul, ← hsplit] at hstep
    omega
  rw [hdiv, ← Nat.mod_add_mod, hhigh, Nat.mod_eq_of_lt hrest, shiftRight,
    UInt64.toNat_or, UInt64.toNat_shiftLeft, UInt64.toNat_shiftRight, hsub, hmod,
    Nat.mod_eq_of_lt hk, Nat.shiftRight_eq_div_pow, Nat.shiftLeft_eq, hhigh,
    ← Nat.shiftLeft_eq, ← Nat.shiftLeft_add_eq_or_of_lt hlow]

end Wide

end TwistedEdwards
