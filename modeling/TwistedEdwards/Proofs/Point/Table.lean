import TwistedEdwards.Point.Table
import TwistedEdwards.Proofs.Point.Addition

/-!
# Tables hold multiples

The entries of a table stand for the multiples that their places say, and selecting gives
the multiple for a digit.  A centred digit beyond 8 finds no entry and counts for nothing;
an odd digit below 16 always finds one.

Main statements: `CentredTable.select_denotes`, `OddTable.ofPoint_denotes` and
`OddTable.addDigit_denotes`.
-/

namespace TwistedEdwards

open Curve

variable {p q : Point} {P Q : AffinePoint} {n : Nat}

theorem Point.Denotes.double_nsmul (hp : p.Denotes (n • P)) : p.double.Denotes ((2 * n) • P) := by
  rw [mul_nsmul', two_nsmul]
  exact hp.double

theorem Point.Denotes.add_nsmul (hp : p.Denotes (n • P)) (hq : q.Denotes P) :
    (p + q).Denotes ((n + 1) • P) := by
  rw [succ_nsmul]
  exact hp.add hq

/-- A multiple is that of the magnitude, negated for a negative number. -/
theorem zsmul_eq_natAbs (digit : Int) (P : AffinePoint) :
    digit • P = if digit < 0 then -(digit.natAbs • P) else digit.natAbs • P := by
  rw [← natCast_zsmul, ← neg_zsmul]
  split
  · congr 1
    omega
  · congr 1
    omega

theorem CachedPoint.identity_denotes : CachedPoint.identity.Denotes 0 := by
  have hzero := FieldElement.zero_denotes
  have hone := FieldElement.one_denotes
  rw [AffinePoint.zero_def, CachedPoint.identity]
  refine ⟨?_, ?_, hone.bounded.mono (by decide), ?_, ?_⟩ <;> dsimp only <;> rw [hone.residue_eq]
  · exact hone.mono.of_eq (by simp only [AffinePoint.zero, add_zero, mul_one])
  · exact hone.mono.of_eq (by simp only [AffinePoint.zero, sub_zero, mul_one])
  · exact hzero.mono.of_eq (by simp only [AffinePoint.zero, mul_zero, zero_mul])
  · exact one_ne_zero

theorem CachedPoint.Denotes.neg {q : CachedPoint} (hq : q.Denotes Q) : (-q).Denotes (-Q) := by
  have hneg : -q = ⟨q.yMinusX, q.yPlusX, q.z, -q.t2d⟩ := rfl
  rw [hneg]
  refine ⟨?_, ?_, hq.z, ?_, hq.z_ne_zero⟩
  · rw [AffinePoint.x_neg, AffinePoint.y_neg, ← sub_eq_add_neg]
    exact hq.yMinusX
  · rw [AffinePoint.x_neg, AffinePoint.y_neg, sub_neg_eq_add]
    exact hq.yPlusX
  · rw [AffinePoint.x_neg, AffinePoint.y_neg]
    exact hq.t2d.neg.mono.of_eq (by ring)

/-- A bit chooses between a cached point and its negative. -/
theorem CachedPoint.Denotes.negateIf {q : CachedPoint} (hq : q.Denotes Q) (bit : Bool) :
    (q.negateIf bit).Denotes (if bit then -Q else Q) := by
  rw [CachedPoint.negateIf, CachedPoint.select_eq]
  cases bit with
  | false => exact hq
  | true => exact hq.neg

namespace CentredTable

/-- The entry `k` places on is the multiple by `k + 1`. -/
theorem ofPoint_denotes (hp : p.Denotes P) (k : Nat) :
    ∀ q ∈ (ofPoint p)[k]?, q.Denotes ((k + 1) • P) := by
  have h1 : p.Denotes (1 • P) := by
    rw [one_nsmul]
    exact hp
  have h2 := h1.double_nsmul
  have h3 := h2.add_nsmul hp
  have h4 := h2.double_nsmul
  have h5 := h4.add_nsmul hp
  have h6 := h3.double_nsmul
  have h7 := h6.add_nsmul hp
  have h8 := h4.double_nsmul
  intro q hq
  match k with
  | 0 => exact Option.some.inj hq ▸ h1.cached
  | 1 => exact Option.some.inj hq ▸ h2.cached
  | 2 => exact Option.some.inj hq ▸ h3.cached
  | 3 => exact Option.some.inj hq ▸ h4.cached
  | 4 => exact Option.some.inj hq ▸ h5.cached
  | 5 => exact Option.some.inj hq ▸ h6.cached
  | 6 => exact Option.some.inj hq ▸ h7.cached
  | 7 => exact Option.some.inj hq ▸ h8.cached
  | k + 8 => cases hq

/-- Looking at every entry in turn finds the one with the number, if there is one. -/
theorem foldl_select (table : CentredTable) (found : CachedPoint) (number start : Nat) :
    (table.zipIdx start).foldl (fun found (q, i) => found.select q (number == i)) found =
      if start ≤ number then (table[number - start]?).getD found else found := by
  induction table generalizing found start with
  | nil => simp
  | cons q rest ih =>
      rw [List.zipIdx_cons, List.foldl_cons, ih]
      dsimp only
      rw [CachedPoint.select_eq]
      rcases Nat.lt_trichotomy number start with hlt | heq | hgt
      · have hne : (number == start) = false := beq_eq_false_iff_ne.mpr (by omega)
        rw [hne, if_neg Bool.false_ne_true, if_neg (by omega), if_neg (by omega)]
      · have hbeq : (number == start) = true := beq_iff_eq.mpr heq
        have hzero : number - start = 0 := by omega
        rw [hbeq, if_pos rfl, if_neg (by omega), if_pos (by omega), hzero]
        rfl
      · have hne : (number == start) = false := beq_eq_false_iff_ne.mpr (by omega)
        have hsucc : number - start = number - (start + 1) + 1 := by omega
        rw [hne, if_neg Bool.false_ne_true, if_pos (by omega), if_pos (by omega), hsucc,
          List.getElem?_cons_succ]

/-- A number from one to the length of the table finds the entry of its place. -/
theorem getElem?_eq_entry (table : CentredTable) {number : Nat} (hpos : 1 ≤ number)
    (hle : number ≤ table.length) : table[number - 1]? = some (table.entry number) := by
  have hentry := foldl_select table CachedPoint.identity number 1
  rw [if_pos hpos] at hentry
  rw [entry, hentry, List.getElem?_eq_getElem (by omega), Option.getD_some]

/-- A digit beyond the table counts for nothing. -/
def kept (digit : Int) : Int := if digit.natAbs ≤ 8 then digit else 0

/-- The entry of a number up to eight; past the table there is the neutral point. -/
theorem entry_denotes (hp : p.Denotes P) (number : Nat) :
    ((ofPoint p).entry number).Denotes ((if number ≤ 8 then number else 0) • P) := by
  have hentry := foldl_select (ofPoint p) CachedPoint.identity number 1
  have hpoint := ofPoint_denotes hp (number - 1)
  unfold entry
  rw [hentry]
  by_cases hzero : number = 0
  · rw [hzero, if_neg (by decide), if_pos (by decide), zero_nsmul]
    exact CachedPoint.identity_denotes
  · rw [if_pos (by omega)]
    cases hfound : (ofPoint p)[number - 1]? with
    | none =>
        have hlen : (ofPoint p).length ≤ number - 1 := List.getElem?_eq_none_iff.mp hfound
        have height : (ofPoint p).length = 8 := rfl
        rw [if_neg (by omega), zero_nsmul]
        exact CachedPoint.identity_denotes
    | some q =>
        obtain ⟨hlt, -⟩ := List.getElem?_eq_some_iff.mp hfound
        have height : (ofPoint p).length = 8 := rfl
        have hq := hpoint q hfound
        rw [Nat.sub_add_cancel (by omega)] at hq
        rw [if_pos (by omega)]
        exact hq

/-- Selecting gives the multiple for a digit that the table keeps, and the neutral element for the
others. -/
theorem select_denotes (hp : p.Denotes P) (digit : Int) :
    ((ofPoint p).select digit).Denotes (kept digit • P) := by
  have hentry := (entry_denotes hp digit.natAbs).negateIf (decide (digit < 0))
  unfold select
  have hmultiple : kept digit • P = if decide (digit < 0) = true
      then -((if digit.natAbs ≤ 8 then digit.natAbs else 0) • P)
      else (if digit.natAbs ≤ 8 then digit.natAbs else 0) • P := by
    unfold kept
    split
    · rw [zsmul_eq_natAbs digit P]
      exact if_congr decide_eq_true_iff.symm rfl rfl
    · rw [zero_zsmul, zero_nsmul, neg_zero, ite_self]
  rw [hmultiple]
  exact hentry

end CentredTable

namespace OddTable

/-- The odd multiples go on from the first one in steps of two. -/
theorem oddMultiples_denotes {twice : CachedPoint} (htwice : twice.Denotes (2 • P)) {m : Nat}
    (hp : p.Denotes (m • P)) (k : Nat) :
    ∀ q ∈ (oddMultiples twice n p)[k]?, q.Denotes ((m + 2 * k) • P) := by
  intro q hq
  induction n generalizing p m k with
  | zero => cases hq
  | succ n ih =>
      cases k with
      | zero => exact Option.some.inj hq ▸ hp.cached
      | succ k =>
          have hnext : (p.addCached twice).extended.Denotes ((m + 2) • P) := by
            rw [add_nsmul]
            exact (hp.addCached htwice).extended
          have hplace : m + 2 * (k + 1) = m + 2 + 2 * k := by omega
          rw [hplace]
          exact ih hnext k hq

theorem size_ofPoint (p : Point) : (ofPoint p).size = 8 := by
  rw [ofPoint, List.size_toArray, length_oddMultiples]

/-- The entry `k` places on is the odd multiple by `2 k + 1`. -/
theorem ofPoint_denotes (hp : p.Denotes P) (k : Nat) :
    ∀ q ∈ (ofPoint p)[k]?, q.Denotes ((2 * k + 1) • P) := by
  have htwice : p.double.cached.Denotes (2 • P) := by
    rw [two_nsmul]
    exact hp.double.cached
  have hfirst : p.Denotes (1 • P) := by
    rw [one_nsmul]
    exact hp
  rw [ofPoint, List.getElem?_toArray, Nat.add_comm]
  exact oddMultiples_denotes htwice hfirst k

/-- The entry for a digit below 16 is the multiple by its odd magnitude. -/
theorem entry_denotes (hp : p.Denotes P) {digit : Int} (hdigit : digit.natAbs < 16) :
    ((ofPoint p).entry digit).Denotes ((2 * (digit.natAbs / 2) + 1) • P) := by
  have hplace : place digit < (ofPoint p).size := by
    rw [size_ofPoint, place]
    omega
  have hfound := Array.getElem?_eq_getElem hplace
  have hentry := ofPoint_denotes hp (place digit) _ hfound
  rw [entry, Array.getD_eq_getD_getElem?, hfound, Option.getD_some]
  exact hentry

/-- A step adds the multiple for a digit that is zero or odd. -/
theorem addDigit_denotes {acc : Point} {A : AffinePoint} (hacc : acc.Denotes A) (hp : p.Denotes P)
    {digit : Int} (hdigit : digit = 0 ∨ digit % 2 = 1 ∧ digit.natAbs < 16) :
    ((ofPoint p).addDigit digit acc).Denotes (A + digit • P) := by
  rcases hdigit with rfl | ⟨hodd, hsmall⟩
  · rw [addDigit_zero, zero_zsmul, add_zero]
    exact hacc
  · have hentry := entry_denotes hp hsmall
    have hmagnitude : 2 * (digit.natAbs / 2) + 1 = digit.natAbs := by omega
    rw [hmagnitude] at hentry
    rw [zsmul_eq_natAbs]
    unfold addDigit
    by_cases hneg : digit < 0
    · rw [if_neg (by omega), if_pos hneg, if_pos hneg, ← sub_eq_add_neg]
      exact (hacc.subCached hentry).extended
    · rw [if_pos (by omega), if_neg hneg]
      exact (hacc.addCached hentry).extended

end OddTable

end TwistedEdwards
