import Mathlib.Data.FinEnum
import Mathlib.Data.Nat.Prime.Basic
import TwistedEdwards.Proofs.Random.Sample

/-!
# The generator never degenerates

A state of four zero words stays as it is, and every scalar drawn from it is zero.  No seed
comes near it.  The mixing of a word exclusive-ors it with its own shift and multiplies it
by odd constants, the step of the generator exclusive-ors words and rotates one, and both
can be undone.  So of the four words that a seed is mixed into at most one is zero, the
step is a bijection on states that keeps the zero state, and states that differ stay
different and other than zero however often the step is made.

Main statements: `Generator.mix_injective`, `Generator.advance_injective`,
`Generator.after_words_injective`, `Generator.after_words_ne_zero` and `Generator.seeded_runs`.
-/

namespace TwistedEdwards

namespace Bits

variable {a b c d k : UInt64}

/-- No word but zero is its own shift to the right. -/
theorem eq_zero_of_shiftRight_eq (hpos : 0 < k.toNat) (hk : k.toNat < 64) (h : c >>> k = c) :
    c = 0 := by
  have hdiv : c.toNat / 2 ^ k.toNat = c.toNat := by rw [← toNat_shiftRight hk, h]
  have hshift : 1 < 2 ^ k.toNat := Nat.one_lt_two_pow (by omega)
  apply UInt64.toNat_inj.mp
  by_contra hne
  have hlt := Nat.div_lt_self (Nat.pos_of_ne_zero hne) hshift
  omega

/-- No word but zero is its own shift to the left: it would be a multiple of `2 ^ 64` times an
odd number. -/
theorem eq_zero_of_shiftLeft_eq (hpos : 0 < k.toNat) (hk : k.toNat < 64) (h : c <<< k = c) :
    c = 0 := by
  have hmul : c.toNat * 2 ^ k.toNat % 2 ^ 64 = c.toNat % 2 ^ 64 := by
    rw [Nat.mod_eq_of_lt c.toNat_lt, ← Nat.shiftLeft_eq]
    nth_rewrite 2 [← h]
    rw [UInt64.toNat_shiftLeft, Nat.mod_eq_of_lt hk]
  have hdvd : 2 ^ 64 ∣ c.toNat * (2 ^ k.toNat - 1) := by
    rw [Nat.mul_sub_one]
    exact Nat.dvd_of_mod_eq_zero (Nat.sub_mod_eq_zero_of_mod_eq hmul)
  have hodd : Nat.Coprime (2 ^ 64) (2 ^ k.toNat - 1) := by
    apply Nat.Coprime.pow_left
    rw [Nat.coprime_two_left, ← Nat.not_even_iff_odd, Nat.even_sub Nat.one_le_two_pow]
    simp [Nat.even_pow, hpos.ne']
  have hle := Nat.eq_zero_of_dvd_of_lt (hodd.dvd_of_dvd_mul_right hdvd) c.toNat_lt
  exact UInt64.toNat_inj.mp hle

/-- Where two sums without carry agree, their summands differ in the same bits. -/
theorem xor_eq_xor_of_eq (h : a ^^^ c = b ^^^ d) : c ^^^ d = a ^^^ b := by
  calc c ^^^ d = a ^^^ (a ^^^ c) ^^^ d := by
        rw [← UInt64.xor_assoc a a, UInt64.xor_self, UInt64.zero_xor]
    _ = a ^^^ (b ^^^ d) ^^^ d := by rw [h]
    _ = a ^^^ b := by
        rw [UInt64.xor_assoc a, UInt64.xor_assoc b, UInt64.xor_self, UInt64.xor_zero]

/-- What two words differ in would be its own shift. -/
theorem xor_shiftRight_injective (hpos : 0 < k.toNat) (hk : k.toNat < 64) :
    Function.Injective fun z : UInt64 => z ^^^ (z >>> k) := by
  intro a b hab
  have hshift : (a ^^^ b) >>> k = a ^^^ b := by
    rw [UInt64.shiftRight_xor]
    exact xor_eq_xor_of_eq hab
  exact UInt64.xor_eq_zero_iff.mp (eq_zero_of_shiftRight_eq hpos hk hshift)

/-- A factor that has an inverse can be taken off. -/
theorem mul_injective {factor inverse : UInt64} (h : factor * inverse = 1) :
    Function.Injective fun z : UInt64 => z * factor := by
  intro a b hab
  have hcancel : ∀ z : UInt64, z * factor * inverse = z := by
    intro z
    rw [UInt64.mul_assoc, h, UInt64.mul_one]
  rw [← hcancel a, ← hcancel b]
  exact congrArg (· * inverse) hab

end Bits

namespace Generator

/-- Mixing can be undone step by step. -/
theorem mix_injective : Function.Injective mix := by
  have hfirst : (0xbf58476d1ce4e5b9 : UInt64) * 0x96de1b173f119089 = 1 := by decide
  have hsecond : (0x94d049bb133111eb : UInt64) * 0x319642b2d24d8ec3 = 1 := by decide
  have h30 := Bits.xor_shiftRight_injective (k := 30) (by decide) (by decide)
  have h27 := Bits.xor_shiftRight_injective (k := 27) (by decide) (by decide)
  have h31 := Bits.xor_shiftRight_injective (k := 31) (by decide) (by decide)
  exact h31.comp ((Bits.mul_injective hsecond).comp
    (h27.comp ((Bits.mul_injective hfirst).comp h30)))

/-- Rotating moves the high bits below the low ones. -/
theorem toNat_rotate (x : UInt64) {k : UInt64} (hpos : 0 < k.toNat) (hk : k.toNat < 64) :
    (rotate x k).toNat =
      x.toNat / 2 ^ (64 - k.toNat) + x.toNat % 2 ^ (64 - k.toNat) * 2 ^ k.toNat := by
  have hrest : (64 - k).toNat = 64 - k.toNat :=
    UInt64.toNat_sub_of_le _ _ (UInt64.le_iff_toNat_le.mpr hk.le)
  have hx : x.toNat < 2 ^ ((64 - k).toNat + k.toNat) := by
    rw [hrest, Nat.sub_add_cancel hk.le]
    exact x.toNat_lt
  rw [rotate, UInt64.or_comm, Bits.toNat_shiftRight_or_shiftLeft (by omega) hk hx, hrest]

/-- A rotation is undone by the rotation the other way. -/
theorem rotate_injective {k : UInt64} (hpos : 0 < k.toNat) (hk : k.toNat < 64) :
    Function.Injective fun x => rotate x k := by
  intro x y hxy
  have hnumber := congrArg UInt64.toNat hxy
  simp only [toNat_rotate _ hpos hk] at hnumber
  have hsplit : 2 ^ 64 = 2 ^ (64 - k.toNat) * 2 ^ k.toNat := by
    rw [← Nat.pow_add, Nat.sub_add_cancel hk.le]
  have hhigh : ∀ z : UInt64, z.toNat / 2 ^ (64 - k.toNat) < 2 ^ k.toNat := by
    intro z
    apply Nat.div_lt_of_lt_mul
    rw [← hsplit]
    exact z.toNat_lt
  -- the rotated word has the high bits as its remainder and the low bits as its quotient
  have hquotient := congrArg (· / 2 ^ k.toNat) hnumber
  have hremainder := congrArg (· % 2 ^ k.toNat) hnumber
  simp only [Nat.add_mul_div_right _ _ (Nat.two_pow_pos k.toNat), Nat.add_mul_mod_self_right,
    Nat.div_eq_of_lt (hhigh _), Nat.mod_eq_of_lt (hhigh _), Nat.zero_add] at hquotient hremainder
  apply UInt64.toNat_inj.mp
  rw [← Nat.div_add_mod x.toNat (2 ^ (64 - k.toNat)), hquotient, hremainder, Nat.div_add_mod]

/-- **One step** can be undone. -/
theorem advance_injective : Function.Injective advance := by
  rintro ⟨a0, a1, a2, a3⟩ ⟨b0, b1, b2, b3⟩ h
  simp only [advance, Generator.mk.injEq] at h
  obtain ⟨h0, h1, h2, h3⟩ := h
  have hlast : a3 ^^^ a1 = b3 ^^^ b1 := rotate_injective (by decide) (by decide) h3
  rw [hlast, UInt64.xor_left_inj] at h0
  subst h0
  -- the second words differ in what the third do, and that is its own shift by 17
  have hshift : (a1 ^^^ b1) <<< 17 = a1 ^^^ b1 := by
    rw [UInt64.shiftLeft_xor, Bits.xor_eq_xor_of_eq h2, Bits.xor_eq_xor_of_eq h1]
  have hsecond : a1 = b1 := UInt64.xor_eq_zero_iff.mp
    (Bits.eq_zero_of_shiftLeft_eq (k := 17) (by decide) (by decide) hshift)
  subst hsecond
  rw [UInt64.xor_right_inj, UInt64.xor_left_inj] at h1
  rw [UInt64.xor_left_inj] at hlast
  rw [h1, hlast]

instance : Finite Generator := by
  have hfields : Function.Injective fun g : Generator => (g.s0, g.s1, g.s2, g.s3) := by
    rintro ⟨a0, a1, a2, a3⟩ ⟨b0, b1, b2, b3⟩ h
    simpa only [Prod.mk.injEq, Generator.mk.injEq] using h
  exact Finite.of_injective _ hfields

/-- There are only so many states, so every state is reached from one. -/
theorem advance_bijective : Function.Bijective advance :=
  Finite.injective_iff_bijective.mp advance_injective

/-- The state of four zero words. -/
def zero : Generator := ⟨0, 0, 0, 0⟩

/-- Zero is the state that never changes. -/
theorem advance_zero : zero.advance = zero := by decide

/-- One step does not reach the zero state from any other. -/
theorem advance_ne_zero {g : Generator} (hg : g ≠ zero) : g.advance ≠ zero := by
  intro hzero
  rw [← advance_zero] at hzero
  exact hg (advance_injective hzero)

/-- A seed is mixed into words that differ, so at most one of them is zero. -/
theorem ofSeed_ne_zero (seed : UInt64) : ofSeed seed ≠ zero := by
  intro hzero
  obtain ⟨hfirst, hsecond, -, -⟩ := Generator.mk.inj hzero
  have hsame := mix_injective (hfirst.trans hsecond.symm)
  rw [UInt64.add_right_inj] at hsame
  exact absurd hsame (by decide)

/-- The first word of the state already tells the seed. -/
theorem ofSeed_injective : Function.Injective ofSeed := by
  intro seed seed' h
  obtain ⟨hfirst, -, -, -⟩ := Generator.mk.inj h
  exact (UInt64.add_left_inj seedStep).mp (mix_injective hfirst)

/-- A word is drawn, and then the others from the state that it leaves. -/
theorem after_words_succ (g : Generator) (n : Nat) :
    g.after (words (n + 1)) = g.advance.after (words n) := rfl

/-- **A run of steps** can be undone. -/
theorem after_words_injective (n : Nat) :
    Function.Injective fun g : Generator => g.after (words n) := by
  induction n with
  | zero => exact fun g g' h => h
  | succ n ih => exact ih.comp advance_injective

/-- From zero no word is ever drawn but zero. -/
theorem after_words_zero (n : Nat) : zero.after (words n) = zero := by
  induction n with
  | zero => rfl
  | succ n ih => rw [after_words_succ, advance_zero, ih]

/-- **A run of steps** does not reach the zero state from any other. -/
theorem after_words_ne_zero {g : Generator} (hg : g ≠ zero) (n : Nat) :
    g.after (words n) ≠ zero := by
  induction n generalizing g with
  | zero => exact hg
  | succ n ih =>
    rw [after_words_succ]
    exact ih (advance_ne_zero hg)

/-- A draw that the zero state survives gives the same ever after. -/
theorem mapM_zero {α β : Type} {draw : Draw α} (hafter : zero.after draw = zero) (xs : List β) :
    zero.drawn (xs.mapM fun _ => draw) = xs.map fun _ => zero.drawn draw := by
  induction xs with
  | nil => rfl
  | cons x xs ih =>
    rw [List.mapM_cons, drawn_bind, hafter, drawn_bind, ih]
    rfl

/-- The zero state gives eight zero words to a scalar, and 64 zero bytes are zero. -/
theorem scalar_zero : zero.drawn scalar = Scalar.zero ∧ zero.after scalar = zero := by
  decide +kernel

/-- **Seeded runs never degenerate.**  However often the next word is drawn, the state of a seed is
not the zero state, from which nothing but the scalar zero would ever be drawn.  Drawing a word is a
bijection on states, and different seeds never lead to the same state in as many draws. -/
theorem seeded_runs :
    (∀ (seed : UInt64) (n : Nat), (ofSeed seed).after (words n) ≠ zero) ∧
      (∀ n : Nat, zero.after (words n) = zero ∧
        zero.drawn ((List.range n).mapM fun _ => scalar) = List.replicate n Scalar.zero) ∧
      (Function.Bijective fun g : Generator => g.after next) ∧
      ∀ (seed seed' : UInt64) (n : Nat), seed ≠ seed' →
        (ofSeed seed).after (words n) ≠ (ofSeed seed').after (words n) := by
  refine ⟨?_, ?_, advance_bijective, ?_⟩
  · intro seed n
    exact after_words_ne_zero (ofSeed_ne_zero seed) n
  · intro n
    obtain ⟨hdrawn, hafter⟩ := scalar_zero
    refine ⟨after_words_zero n, ?_⟩
    rw [mapM_zero hafter, hdrawn, List.map_const', List.length_range]
  · intro seed seed' n hne hsame
    exact hne (ofSeed_injective (after_words_injective n hsame))

/-- The two seeds that differ in the top bit alone. -/
theorem seeded_runs_apart :
    (0 : UInt64) ≠ 0x8000000000000000 ∧
      (ofSeed 0).after (words 1000) ≠ (ofSeed 0x8000000000000000).after (words 1000) := by
  have hne : (0 : UInt64) ≠ 0x8000000000000000 := by decide
  obtain ⟨-, -, -, hdifferent⟩ := seeded_runs
  exact ⟨hne, hdifferent 0 0x8000000000000000 1000 hne⟩

end Generator

end TwistedEdwards
