import Mathlib.Tactic.LinearCombination
import TwistedEdwards.Digits.NonAdjacent
import TwistedEdwards.Proofs.Digits.Value
import TwistedEdwards.Proofs.Word.Window

/-!
# The non-adjacent form

Before a place, a carry and a number of places that are zero for sure are pending.  They
say how much of the number the remaining digits have to make up, and one step takes its
digit off that rest.  A pending carry comes from a set bit just below the place where it
counts, and it never counts above bit 256, so what is lost at the top is one carry or
nothing, and nothing below `2 ^ 255`.  The places that a digit makes pending keep the next
one that is not zero away from it.

Main statements: `Digits.Pending.Sound.step`, `Digits.Pending.Sound.run`,
`Digits.Pending.run_separated`, `Digits.nonAdjacent_range`, `Digits.value_nonAdjacent`,
`Digits.pendingCarry_eq_zero`, `Digits.nonAdjacent_eq_zero_iff` and `Digits.nonAdjacentFrom_257`.
-/

namespace TwistedEdwards

namespace Digits

/-- The window of an odd number gives an odd digit below half the window, and a carry exactly from
half the window up. -/
theorem oddDigit_spec {w window : Nat} (hw : 2 ≤ w) (hodd : window % 2 = 1)
    (hwindow : window ≤ 2 ^ w) :
    (oddDigit w window).1 + 2 ^ w * (oddDigit w window).2 = window ∧
      (oddDigit w window).1 % 2 = 1 ∧ (oddDigit w window).1.natAbs < 2 ^ (w - 1) ∧
      ((oddDigit w window).2 = 0 ∨ (oddDigit w window).2 = 1 ∧ 2 ^ (w - 1) ≤ window) := by
  obtain ⟨quarter, -, hhalf, hwhole, -, hcast⟩ := exists_quarter hw
  rw [hwhole] at hwindow
  unfold oddDigit
  rw [hhalf, hcast]
  split
  · refine ⟨?_, by omega, by omega, Or.inl rfl⟩
    rw [Nat.cast_zero, mul_zero, add_zero]
  · refine ⟨?_, by omega, by omega, Or.inr ⟨rfl, by omega⟩⟩
    rw [Nat.cast_one, mul_one, sub_add_cancel]

/-- What is pending before a place: the carry, and how many places are zero for sure. -/
structure Pending where
  carry : Nat
  skip : Nat

namespace Pending

/-- The digit of a place. -/
def digit (s : Pending) (x : Word256) (w pos : Nat) : Int :=
  match s with
  | ⟨_, _ + 1⟩ => 0
  | ⟨carry, 0⟩ =>
    let window := carry + (x.window w pos).toNat
    if window % 2 = 0 then 0 else (oddDigit w window).1

/-- What is pending after a place. -/
def next (s : Pending) (x : Word256) (w pos : Nat) : Pending :=
  match s with
  | ⟨carry, skip + 1⟩ => ⟨carry, skip⟩
  | ⟨carry, 0⟩ =>
    let window := carry + (x.window w pos).toNat
    if window % 2 = 0 then ⟨carry, 0⟩ else ⟨(oddDigit w window).2, w - 1⟩

/-- What the digits from place `pos` on have to make up of the number `n`. -/
def rest (s : Pending) (n pos : Nat) : Nat := 2 ^ s.skip * (n / 2 ^ (pos + s.skip) + s.carry)

/-- A pending carry comes from the bit just below the place where it counts. -/
structure Sound (s : Pending) (n pos : Nat) : Prop where
  carry_le : s.carry ≤ 1
  source : s.carry = 1 → 0 < pos + s.skip ∧ n / 2 ^ (pos + s.skip - 1) % 2 = 1

variable {s : Pending} {x : Word256} {w pos n k : Nat}

/-- A carry never counts above the top of the number. -/
theorem Sound.place_le (h : s.Sound n pos) (hone : s.carry = 1) (hn : n < 2 ^ k) :
    pos + s.skip ≤ k := by
  obtain ⟨hpos, hbit⟩ := h.source hone
  by_contra hlt
  have hpow : 2 ^ k ≤ 2 ^ (pos + s.skip - 1) := Nat.pow_le_pow_right (by decide) (by omega)
  rw [Nat.div_eq_of_lt (Nat.lt_of_lt_of_le hn hpow)] at hbit
  omega

/-- Beyond the top of the number no carry is pending. -/
theorem Sound.carry_eq_zero (h : s.Sound n pos) (hn : n < 2 ^ k) (hpos : k < pos) :
    s.carry = 0 := by
  have hcarry := h.carry_le
  by_contra hne
  have hplace := h.place_le (by omega) hn
  omega

/-- From the top of the number on the digits to come have to make up the carry alone. -/
theorem Sound.rest_eq_carry (h : s.Sound n pos) (hn : n < 2 ^ k) (hpos : k ≤ pos) :
    s.rest n pos = s.carry := by
  have hnull : n / 2 ^ (pos + s.skip) = 0 :=
    Nat.div_eq_of_lt (Nat.lt_of_lt_of_le hn (Nat.pow_le_pow_right (by decide) (by omega)))
  rw [rest, hnull, Nat.zero_add]
  rcases Nat.le_one_iff_eq_zero_or_eq_one.mp h.carry_le with hzero | hone
  · rw [hzero, Nat.mul_zero]
  · have hplace := h.place_le hone hn
    have hskip : s.skip = 0 := by omega
    rw [hskip, Nat.pow_zero, Nat.one_mul]

/-- An odd window that carries has its top bit set, with or without the carry that came in. -/
theorem window_source {y half carry : Nat} (hpos : 0 < half) (hhalf : half % 2 = 0)
    (hcarry : carry ≤ 1) (hodd : (carry + y % (half * 2)) % 2 = 1)
    (hhigh : half ≤ carry + y % (half * 2)) : y / half % 2 = 1 := by
  rw [← Nat.mod_mul_right_div_self]
  have hlt : y % (half * 2) < half * 2 := Nat.mod_lt _ (by omega)
  apply Nat.div_eq_of_lt_le
  · omega
  · omega

/-- A place with digit `d` leads from what is pending to what is pending after it: the rest loses
the digit, which is zero or odd and below half a window. -/
structure Step (s t : Pending) (d : Int) (w n pos : Nat) : Prop where
  sound : t.Sound n (pos + 1)
  rest_eq : (s.rest n pos : Int) = d + 2 * t.rest n (pos + 1)
  digit_range : d = 0 ∨ d % 2 = 1 ∧ d.natAbs < 2 ^ (w - 1)

variable {carry skip : Nat}

/-- Inside a window the digit is zero and one position less is left to skip. -/
theorem Sound.step_skip (h : Sound ⟨carry, skip + 1⟩ n pos) :
    Step ⟨carry, skip + 1⟩ ⟨carry, skip⟩ 0 w n pos := by
  have hplace : pos + (skip + 1) = pos + 1 + skip := by omega
  obtain ⟨hcarry, hsource⟩ := h
  dsimp only at hcarry hsource
  rw [hplace] at hsource
  refine ⟨⟨hcarry, hsource⟩, ?_, Or.inl rfl⟩
  simp only [rest, hplace, Nat.pow_succ]
  push_cast
  ring

/-- Where the rest is even a pending carry stays pending; its source is then the bit of the
place. -/
theorem Sound.step_even (h : Sound ⟨carry, 0⟩ n pos) (hw : 2 ≤ w)
    (heven : (carry + n / 2 ^ pos % 2 ^ w) % 2 = 0) :
    Step ⟨carry, 0⟩ ⟨carry, 0⟩ 0 w n pos := by
  obtain ⟨hcarry, -⟩ := h
  dsimp only at hcarry
  have hdvd : 2 ∣ 2 ^ w := dvd_pow_self 2 (by omega)
  have hparity : n / 2 ^ pos % 2 ^ w % 2 = n / 2 ^ pos % 2 := Nat.mod_mod_of_dvd _ hdvd
  refine ⟨⟨hcarry, ?_⟩, ?_, Or.inl rfl⟩
  · intro hone
    dsimp only at hone ⊢
    rw [Nat.add_zero, Nat.add_sub_cancel]
    omega
  · simp only [rest, Nat.add_zero, Nat.pow_succ, ← Nat.div_div_eq_div_mul]
    omega

/-- Where the rest is odd a window is taken off, and the places that it covers are zero. -/
theorem Sound.step_odd (h : Sound ⟨carry, 0⟩ n pos) (hw : 2 ≤ w)
    (hodd : (carry + n / 2 ^ pos % 2 ^ w) % 2 = 1) :
    Step ⟨carry, 0⟩ ⟨(oddDigit w (carry + n / 2 ^ pos % 2 ^ w)).2, w - 1⟩
      (oddDigit w (carry + n / 2 ^ pos % 2 ^ w)).1 w n pos := by
  obtain ⟨hcarry, -⟩ := h
  dsimp only at hcarry
  have hlt : n / 2 ^ pos % 2 ^ w < 2 ^ w := Nat.mod_lt _ (Nat.two_pow_pos w)
  obtain ⟨hvalue, hdigit, hsmall, hout⟩ := oddDigit_spec hw hodd (by omega)
  have hdiv := Nat.div_add_mod (n / 2 ^ pos) (2 ^ w)
  generalize oddDigit w (carry + n / 2 ^ pos % 2 ^ w) = out at hvalue hdigit hsmall hout ⊢
  obtain ⟨d, c⟩ := out
  dsimp only at hvalue hdigit hsmall hout ⊢
  have hplace : pos + 1 + (w - 1) = pos + w := by omega
  have hwidth : 2 ^ w = 2 ^ (w - 1) * 2 := (pow_sub_one_mul (by omega) 2).symm
  refine ⟨⟨?_, ?_⟩, ?_, Or.inr ⟨hdigit, hsmall⟩⟩
  · dsimp only
    omega
  · intro hone
    dsimp only at hone ⊢
    have hbit : pos + w - 1 = pos + (w - 1) := by omega
    have heven : 2 ^ (w - 1) % 2 = 0 := Nat.mod_eq_zero_of_dvd (dvd_pow_self 2 (by omega))
    have hhigh : 2 ^ (w - 1) ≤ carry + n / 2 ^ pos % 2 ^ w := by omega
    rw [hwidth] at hodd hhigh
    rw [hplace, hbit, Nat.pow_add, ← Nat.div_div_eq_div_mul]
    exact ⟨by omega, window_source (Nat.two_pow_pos _) heven hcarry hodd hhigh⟩
  · simp only [rest, Nat.add_zero, Nat.pow_zero, Nat.one_mul, hplace, Nat.pow_add,
      ← Nat.div_div_eq_div_mul]
    rw [← Int.natCast_inj] at hdiv hwidth
    push_cast at hvalue hdiv hwidth ⊢
    linear_combination -hvalue - hdiv + (c + n / 2 ^ pos / 2 ^ w : Int) * hwidth

/-- **One place** keeps what is pending sound and takes its digit off the rest. -/
theorem Sound.step (h : s.Sound x.toNat pos) (hw : 2 ≤ w) (hw' : w ≤ 16) :
    s.Step (s.next x w pos) (s.digit x w pos) w x.toNat pos := by
  obtain ⟨carry, skip⟩ := s
  cases skip with
  | succ skip => exact h.step_skip
  | zero =>
      simp only [digit, next, x.toNat_window pos hw']
      by_cases heven : (carry + x.toNat / 2 ^ pos % 2 ^ w) % 2 = 0
      · rw [if_pos heven, if_pos heven]
        exact h.step_even hw heven
      · rw [if_neg heven, if_neg heven]
        exact h.step_odd hw (by omega)

/-- What is pending after `n` places. -/
def after (x : Word256) (w : Nat) : (n pos : Nat) → Pending → Pending
  | 0, _, s => s
  | n + 1, pos, s => after x w n (pos + 1) (s.next x w pos)

/-- One position gives a digit and the state for the next. -/
theorem nonAdjacentFrom_succ (s : Pending) (x : Word256) (w n pos : Nat) :
    nonAdjacentFrom x w (n + 1) pos s.carry s.skip =
      s.digit x w pos ::
        nonAdjacentFrom x w n (pos + 1) (s.next x w pos).carry (s.next x w pos).skip := by
  obtain ⟨carry, skip⟩ := s
  cases skip with
  | succ skip => rfl
  | zero =>
      simp only [nonAdjacentFrom, digit, next]
      split <;> rfl

/-- A digit that is not zero stands where nothing is skipped, and skips the places that its window
covers. -/
theorem skip_of_digit_ne_zero (hdigit : s.digit x w pos ≠ 0) :
    s.skip = 0 ∧ (s.next x w pos).skip = w - 1 := by
  obtain ⟨carry, skip⟩ := s
  cases skip with
  | succ skip => exact absurd rfl hdigit
  | zero =>
      refine ⟨rfl, ?_⟩
      simp only [digit, next] at hdigit ⊢
      by_cases heven : (carry + (x.window w pos).toNat) % 2 = 0
      · rw [if_pos heven] at hdigit
        exact absurd rfl hdigit
      · rw [if_neg heven]

/-- Skipped places are zero. -/
theorem getD_of_lt_skip (s : Pending) (x : Word256) (w n pos : Nat) {i : Nat} (hi : i < s.skip) :
    (nonAdjacentFrom x w n pos s.carry s.skip).getD i 0 = 0 := by
  induction n generalizing s pos i with
  | zero => rfl
  | succ n ih =>
      obtain ⟨carry, skip⟩ := s
      cases skip with
      | zero => cases hi
      | succ skip =>
          rw [nonAdjacentFrom]
          cases i with
          | zero => rfl
          | succ i => exact ih ⟨carry, skip⟩ (pos + 1) (Nat.lt_of_succ_lt_succ hi)

/-- **A run of places** keeps digits that are not zero at least `w` places apart. -/
theorem run_separated (s : Pending) (x : Word256) (w n pos : Nat) {i j : Nat} (hij : i < j)
    (hi : (nonAdjacentFrom x w n pos s.carry s.skip).getD i 0 ≠ 0)
    (hj : (nonAdjacentFrom x w n pos s.carry s.skip).getD j 0 ≠ 0) : i + w ≤ j := by
  induction n generalizing s pos i j with
  | zero => exact absurd rfl hi
  | succ n ih =>
      obtain ⟨k, rfl⟩ : ∃ k, j = k + 1 := ⟨j - 1, by omega⟩
      rw [nonAdjacentFrom_succ] at hi hj
      rw [List.getD_cons_succ] at hj
      cases i with
      | zero =>
          -- the digit at hand skips `w - 1` places, so the other one is not among them
          rw [List.getD_cons_zero] at hi
          have hskip := (skip_of_digit_ne_zero hi).2
          by_contra hclose
          exact hj (getD_of_lt_skip _ x w n (pos + 1) (by omega))
      | succ i =>
          rw [List.getD_cons_succ] at hi
          have hrest := ih (s.next x w pos) (pos + 1) (Nat.lt_of_succ_lt_succ hij) hi hj
          omega

/-- The places after the first `n` go on from what these leave pending. -/
theorem nonAdjacentFrom_add (s : Pending) (x : Word256) (w n m pos : Nat) :
    nonAdjacentFrom x w (n + m) pos s.carry s.skip =
      nonAdjacentFrom x w n pos s.carry s.skip ++
        nonAdjacentFrom x w m (pos + n) (after x w n pos s).carry (after x w n pos s).skip := by
  induction n generalizing pos s with
  | zero =>
      rw [Nat.zero_add]
      rfl
  | succ n ih =>
      have hplaces : n + 1 + m = n + m + 1 := by omega
      have hpos : pos + (n + 1) = pos + 1 + n := by omega
      rw [hplaces, nonAdjacentFrom_succ, ih, hpos, nonAdjacentFrom_succ, List.cons_append, after]

/-- **A run of places** makes up what the rest loses. -/
theorem Sound.run (h : s.Sound x.toNat pos) (hw : 2 ≤ w) (hw' : w ≤ 16) (n : Nat) :
    (after x w n pos s).Sound x.toNat (pos + n) ∧
      (s.rest x.toNat pos : Int) = value 2 (nonAdjacentFrom x w n pos s.carry s.skip) +
        2 ^ n * (after x w n pos s).rest x.toNat (pos + n) ∧
      ∀ d ∈ nonAdjacentFrom x w n pos s.carry s.skip,
        d = 0 ∨ d % 2 = 1 ∧ d.natAbs < 2 ^ (w - 1) := by
  induction n generalizing pos s with
  | zero =>
      refine ⟨h, ?_, ?_⟩
      · simp [after, nonAdjacentFrom, value]
      · intro d hd
        cases hd
  | succ n ih =>
      have hstep := h.step hw hw'
      obtain ⟨hsound, hvalue, hrange⟩ := ih hstep.sound
      have hplace : pos + (n + 1) = pos + 1 + n := by omega
      rw [nonAdjacentFrom_succ, after, hplace]
      refine ⟨hsound, ?_, ?_⟩
      · rw [hstep.rest_eq, hvalue, value, Int.pow_succ]
        ring
      · intro d hd
        rcases List.mem_cons.mp hd with rfl | hd
        · exact hstep.digit_range
        · exact hrange d hd

/-- Zero has no digit, and nothing is ever pending. -/
theorem nonAdjacentFrom_eq_replicate (hx : x.toNat = 0) (hw : w ≤ 16) (n pos : Nat) :
    nonAdjacentFrom x w n pos 0 0 = List.replicate n 0 := by
  induction n generalizing pos with
  | zero => rfl
  | succ n ih =>
      have hwindow : (x.window w pos).toNat = 0 := by
        rw [x.toNat_window pos hw, hx, Nat.zero_div, Nat.zero_mod]
      rw [nonAdjacentFrom, hwindow, if_pos (by decide), ih, List.replicate_succ]

end Pending

/-- The carry that the last of the 256 places leaves. -/
def pendingCarry (w : Nat) (bs : Octets 32) : Nat :=
  (Pending.after (Word256.ofOctets bs) w 256 0 ⟨0, 0⟩).carry

/-- After all positions the state is sound, and the digits with what is left stand for the number.
-/
theorem pending_run (bs : Octets 32) {w : Nat} (hw : 2 ≤ w) (hw' : w ≤ 16) :
    (Pending.after (Word256.ofOctets bs) w 256 0 ⟨0, 0⟩).Sound
        (LittleEndian.value bs.toList) 256 ∧
      (LittleEndian.value bs.toList : Int) = value 2 (nonAdjacent w bs) + 2 ^ 256 *
        (Pending.after (Word256.ofOctets bs) w 256 0 ⟨0, 0⟩).rest
          (LittleEndian.value bs.toList) 256 ∧
      ∀ d ∈ nonAdjacent w bs, d = 0 ∨ d % 2 = 1 ∧ d.natAbs < 2 ^ (w - 1) := by
  have hstart : Pending.Sound ⟨0, 0⟩ (Word256.ofOctets bs).toNat 0 := by
    refine ⟨Nat.zero_le 1, ?_⟩
    intro hone
    cases hone
  have hrun := hstart.run hw hw' 256
  rw [Word256.toNat_ofOctets] at hrun
  have hrest : Pending.rest ⟨0, 0⟩ (LittleEndian.value bs.toList) 0 =
      LittleEndian.value bs.toList := by
    simp [Pending.rest]
  rw [hrest] at hrun
  exact hrun

/-- Digits are zero or odd, and below half a window. -/
theorem nonAdjacent_range (bs : Octets 32) {w : Nat} (hw : 2 ≤ w) (hw' : w ≤ 16) :
    ∀ d ∈ nonAdjacent w bs, d = 0 ∨ d % 2 = 1 ∧ d.natAbs < 2 ^ (w - 1) :=
  (pending_run bs hw hw').2.2

/-- Every digit of a width up to 8 fits a byte. -/
theorem nonAdjacent_fits (bs : Octets 32) {w : Nat} (hw : 2 ≤ w) (hw' : w ≤ 8) :
    ∀ d ∈ nonAdjacent w bs, -2 ^ 7 ≤ d ∧ d < 2 ^ 7 := by
  intro d hd
  have hrange := nonAdjacent_range bs hw (by omega) d hd
  have hroom : 2 ^ (w - 1) ≤ 2 ^ 7 := Nat.pow_le_pow_right (by decide) (by omega)
  omega

/-- Digits that are not zero are at least `w` places apart. -/
theorem nonAdjacent_separated (bs : Octets 32) (w : Nat) {i j : Nat} (hij : i < j)
    (hi : (nonAdjacent w bs).getD i 0 ≠ 0) (hj : (nonAdjacent w bs).getD j 0 ≠ 0) : i + w ≤ j :=
  Pending.run_separated ⟨0, 0⟩ (Word256.ofOctets bs) w 256 0 hij hi hj

/-- A window carries at most one past the top. -/
theorem pendingCarry_le_one (bs : Octets 32) {w : Nat} (hw : 2 ≤ w) (hw' : w ≤ 16) :
    pendingCarry w bs ≤ 1 :=
  (pending_run bs hw hw').1.carry_le

/-- The digits stand for the number, short of a carry that is lost at the top. -/
theorem value_nonAdjacent (bs : Octets 32) {w : Nat} (hw : 2 ≤ w) (hw' : w ≤ 16) :
    value 2 (nonAdjacent w bs) =
      LittleEndian.value bs.toList - 2 ^ 256 * pendingCarry w bs := by
  obtain ⟨hsound, hvalue, -⟩ := pending_run bs hw hw'
  rw [hvalue, hsound.rest_eq_carry (Word256.value_lt bs) le_rfl, pendingCarry]
  ring

/-- No carry is lost below `2 ^ 255`. -/
theorem pendingCarry_eq_zero {bs : Octets 32} (hbs : LittleEndian.value bs.toList < 2 ^ 255)
    {w : Nat} (hw : 2 ≤ w) (hw' : w ≤ 16) : pendingCarry w bs = 0 :=
  (pending_run bs hw hw').1.carry_eq_zero hbs (by decide)

/-- Either no carry is lost or one that is worth `2 ^ 256`. -/
theorem value_nonAdjacent_cases (bs : Octets 32) {w : Nat} (hw : 2 ≤ w) (hw' : w ≤ 16) :
    pendingCarry w bs = 0 ∧ value 2 (nonAdjacent w bs) = LittleEndian.value bs.toList ∨
      pendingCarry w bs = 1 ∧
        value 2 (nonAdjacent w bs) = LittleEndian.value bs.toList - 2 ^ 256 := by
  rw [value_nonAdjacent bs hw hw']
  rcases Nat.le_one_iff_eq_zero_or_eq_one.mp (pendingCarry_le_one bs hw hw') with hnone | hone
  · refine Or.inl ⟨hnone, ?_⟩
    rw [hnone, Nat.cast_zero, mul_zero, sub_zero]
  · refine Or.inr ⟨hone, ?_⟩
    rw [hone, Nat.cast_one, mul_one]

/-- Only zero has no digit that is not zero. -/
theorem nonAdjacent_eq_zero_iff (bs : Octets 32) {w : Nat} (hw : 2 ≤ w) (hw' : w ≤ 16) :
    (∀ d ∈ nonAdjacent w bs, d = 0) ↔ LittleEndian.value bs.toList = 0 := by
  have hlt := Word256.value_lt bs
  constructor
  · intro hzero
    have hnone := value_eq_zero 2 hzero
    rcases value_nonAdjacent_cases bs hw hw' with ⟨-, hvalue⟩ | ⟨-, hvalue⟩
    · omega
    · omega
  · intro hzero d hd
    rw [nonAdjacent, Pending.nonAdjacentFrom_eq_replicate
      ((Word256.toNat_ofOctets bs).trans hzero) hw'] at hd
    exact List.eq_of_mem_replicate hd

/-- Below `2 ^ 255` the digits stand for the number. -/
theorem value_nonAdjacent_of_lt {bs : Octets 32} (hbs : LittleEndian.value bs.toList < 2 ^ 255)
    {w : Nat} (hw : 2 ≤ w) (hw' : w ≤ 16) :
    value 2 (nonAdjacent w bs) = LittleEndian.value bs.toList := by
  rw [value_nonAdjacent bs hw hw', pendingCarry_eq_zero hbs hw hw', Nat.cast_zero, mul_zero,
    sub_zero]

/-- The carry that is lost is the digit that one place more would have. -/
theorem nonAdjacentFrom_257 (bs : Octets 32) {w : Nat} (hw : 2 ≤ w) (hw' : w ≤ 16) :
    nonAdjacentFrom (Word256.ofOctets bs) w 257 0 0 0 =
      nonAdjacent w bs ++ [(pendingCarry w bs : Int)] := by
  have hsplit := Pending.nonAdjacentFrom_add ⟨0, 0⟩ (Word256.ofOctets bs) w 256 1 0
  obtain ⟨hsound, -, -⟩ := pending_run bs hw hw'
  have hlt := Word256.value_lt bs
  rw [← Word256.toNat_ofOctets] at hsound hlt
  unfold pendingCarry
  generalize Pending.after (Word256.ofOctets bs) w 256 0 ⟨0, 0⟩ = s at hsplit hsound ⊢
  -- nothing is left above place 256, so its digit makes up the whole rest
  have hstep := hsound.step hw hw'
  have hnone := hstep.sound.carry_eq_zero hlt (by decide)
  have hdigit : s.digit (Word256.ofOctets bs) w 256 = s.carry := by
    have hrest := hstep.rest_eq
    rw [hsound.rest_eq_carry hlt le_rfl, hstep.sound.rest_eq_carry hlt (by decide), hnone] at hrest
    omega
  have hlast :
      nonAdjacentFrom (Word256.ofOctets bs) w 1 256 s.carry s.skip = [(s.carry : Int)] := by
    rw [Pending.nonAdjacentFrom_succ, hdigit]
    rfl
  rw [Nat.zero_add, hlast] at hsplit
  exact hsplit

end Digits

end TwistedEdwards
