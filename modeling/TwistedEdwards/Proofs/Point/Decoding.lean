import TwistedEdwards.Program.Point
import TwistedEdwards.Proofs.Field.Octets
import TwistedEdwards.Proofs.Point.Validity

/-!
# Which strings are points

A string of 32 bytes is an ordinate in its low 255 bits and a parity in its top bit.  The
ordinate is refused when it is not below the prime, and when no abscissa makes a point of
the curve with it; as the denominator of the abscissa never vanishes, that is when the
ratio is not a square.  Of two opposite abscissas the parity chooses one, and where the only
abscissa is zero an odd one is refused.  A refusal comes before the first coordinate is set, so
the point that was handed in is as it was, whatever it was.

Main statements: `Curve.abscissa_unique`, `Point.abscissa?_eq_none_iff`,
`Point.abscissa?_eq_some`, `Point.readOctets_exact`, and `Point.decode_exact`.
-/

namespace TwistedEdwards

open Curve LittleEndian

/-- An ordinate has at most one abscissa of each parity. -/
theorem Curve.abscissa_unique {x x' y : ZMod fieldOrder} (h : Equation x y)
    (h' : Equation x' y) (hparity : x'.val % 2 = x.val % 2) : x' = x := by
  rw [equation_iff] at h h'
  have hsq : x' ^ 2 = x ^ 2 := mul_left_cancel₀ (ordinate_denominator_ne_zero y) (h'.trans h.symm)
  exact FieldElement.eq_of_sq_eq hsq hparity

/-- Where zero is an abscissa it is the only one. -/
theorem Curve.eq_zero_of_equation {x y : ZMod fieldOrder} (hzero : Equation 0 y)
    (h : Equation x y) : x = 0 := by
  rw [equation_iff] at hzero h
  have hsq : x ^ 2 = 0 := by
    apply mul_left_cancel₀ (ordinate_denominator_ne_zero y)
    linear_combination h - hzero
  exact pow_eq_zero_iff (by decide : 2 ≠ 0) |>.mp hsq

namespace Octets

/-- The ordinate of a string: the number of its low 255 bits. -/
def ordinate (bs : Octets 32) : Nat := value bs.toList % 2 ^ 255

/-- The parity that a string asks for: bit 255 of its number. -/
def sign (bs : Octets 32) : Nat := value bs.toList / 2 ^ 255

theorem sign_lt (bs : Octets 32) : bs.sign < 2 := by
  have hlt := value_lt bs.toList
  have hlen : bs.toList.length = 32 := by simp
  rw [hlen] at hlt
  unfold sign
  omega

theorem topBit_eq_true_iff (bs : Octets 32) : bs.topBit = true ↔ bs.sign = 1 := bs.topBit_iff

end Octets

namespace Point

variable {bs : Octets 32} {y f : FieldElement} {Y : ZMod fieldOrder}

/-- What is read stands for the ordinate, below the prime or not. -/
theorem ofOctets_denotes (bs : Octets 32) :
    FieldElement.Denotes (2 ^ 51) (FieldElement.ofOctets bs) bs.ordinate := by
  refine ⟨FieldElement.bounded_ofWord256 _, ?_⟩
  rw [FieldElement.residue, FieldElement.toNat_ofOctets]
  rfl

/-- Writing the ordinate back compares it with the prime. -/
theorem ordinate?_eq (bs : Octets 32) :
    ordinate? bs = if bs.ordinate < fieldOrder then some (FieldElement.ofOctets bs) else none := by
  have hwritten : value (FieldElement.ofOctets bs).toOctets.toList = bs.ordinate % fieldOrder :=
    FieldElement.value_toOctets_ofOctets bs
  have hiff : (FieldElement.ofOctets bs).toOctets.difference bs.clearTopBit = 0 ↔
      bs.ordinate < fieldOrder := by
    rw [Octets.difference_eq_zero_iff, ← Nat.mod_eq_iff_lt (by decide), ← hwritten,
      Octets.ordinate, ← bs.value_clearTopBit]
    constructor
    · intro heq
      rw [heq]
    · exact Octets.value_inj
  unfold ordinate?
  exact if_congr hiff rfl rfl

/-- The abscissa is the root of a ratio whose denominator never vanishes. -/
theorem ratio_denotes (hy : FieldElement.Denotes (2 ^ 51) y Y) :
    FieldElement.Denotes (2 ^ 52) (y.square - .one) (Y ^ 2 - 1) ∧
      FieldElement.Denotes (2 ^ 53) (y.square * d + .one) (coefficient * Y ^ 2 + 1) := by
  constructor
  · exact (hy.square.sub FieldElement.one_denotes).mono
  · refine ((hy.square.mul coefficient_denotes).add FieldElement.one_denotes).mono.of_eq ?_
    ring

/-- No abscissa is found exactly where the curve has none. -/
theorem abscissa?_eq_none_iff (hy : FieldElement.Denotes (2 ^ 51) y Y) :
    abscissa? y = none ↔ ¬∃ x, Equation x Y := by
  obtain ⟨hu, hv⟩ := ratio_denotes hy
  have hsome := FieldElement.sqrtRatio?_isSome_iff hu hv
  rw [and_iff_right (ordinate_denominator_ne_zero Y)] at hsome
  simp only [equation_iff]
  rw [← hsome, Bool.not_eq_true, Option.isSome_eq_false_iff, Option.isNone_iff_eq_none]
  rfl

/-- The abscissa that is found is the even one. -/
theorem abscissa?_eq_some (hy : FieldElement.Denotes (2 ^ 51) y Y) (h : abscissa? y = some f) :
    ∃ x, FieldElement.Denotes (2 ^ 52) f x ∧ Equation x Y ∧ x.val % 2 = 0 := by
  obtain ⟨hu, hv⟩ := ratio_denotes hy
  obtain ⟨x, hx, hroot, heven⟩ := FieldElement.sqrtRatio?_eq_some hu hv h
  exact ⟨x, hx, equation_iff.mpr hroot, heven⟩

/-- The coordinates that are set are those of the point of the ordinate and the abscissa. -/
theorem writeAffine_denotes {P : AffinePoint} {odd : Bool} {x : ZMod fieldOrder} (r : Point)
    (hf : FieldElement.Denotes (2 ^ 52) f x) (hy : FieldElement.Denotes (2 ^ 51) y P.y)
    (hx : P.x = if odd then -x else x) : (r.writeAffine f y odd).Denotes P := by
  have hone := FieldElement.one_denotes
  have hsigned := hf.negateIf odd
  rw [← hx] at hsigned
  rw [writeAffine_eq]
  refine ⟨?_, ?_, hone.bounded.mono (by decide), ?_, ?_⟩ <;> dsimp only <;> rw [hone.residue_eq]
  · exact hsigned.of_eq (mul_one _).symm
  · exact hy.mono.of_eq (mul_one _).symm
  · exact (hsigned.mul hy).mono.of_eq (mul_one _).symm
  · exact one_ne_zero

/-- The quadruple `(x : y : 1 : x y)` for the ordinate of the string and its only abscissa of the
parity that the string asks for. -/
structure IsDecodedFrom (p : Point) (bs : Octets 32) (x : ZMod fieldOrder) : Prop where
  valid : p.Valid
  x_eq : p.x.residue = x
  y_eq : p.y.residue = bs.ordinate
  z_eq : p.z = .one
  t_eq : p.t.residue = x * bs.ordinate
  equation : Equation x bs.ordinate
  parity : x.val % 2 = bs.sign
  unique : ∀ x', Equation x' bs.ordinate → x'.val % 2 = bs.sign → x' = x

/-- A quadruple over one with the ordinate and the parity of a string is what the string is read as.
-/
theorem Denotes.isDecodedFrom {p : Point} {P : AffinePoint} (hp : p.Denotes P) (hz : p.z = .one)
    (hy : P.y = bs.ordinate) (hparity : P.x.val % 2 = bs.sign) : p.IsDecodedFrom bs P.x := by
  have hone : p.z.residue = 1 := by rw [hz, FieldElement.one_denotes.residue_eq]
  have hcurve : Equation P.x bs.ordinate := hy ▸ P.equation
  refine ⟨hp.valid, ?_, ?_, hz, ?_, hcurve, hparity, ?_⟩
  · rw [hp.x.residue_eq, hone, mul_one]
  · rw [hp.y.residue_eq, hone, mul_one, hy]
  · rw [hp.t.residue_eq, hone, mul_one, hy]
  · intro x' hx' hparity'
    exact abscissa_unique hcurve hx' (hparity'.trans hparity.symm)

/-- An ordinate from the prime up is refused, whatever the curve has there. -/
theorem readOctets_of_fieldOrder_le (r : Point) (hbs : fieldOrder ≤ bs.ordinate) :
    r.readOctets bs = ⟨r, DecodeError.invalidEncoding.code⟩ := by
  rw [readOctets, ordinate?_eq, if_neg (Nat.not_lt.mpr hbs)]
  rfl

/-- For an ordinate below the prime the root decides. -/
theorem readOctets_of_lt (r : Point) (hbs : bs.ordinate < fieldOrder) :
    r.readOctets bs = r.readAbscissa bs.topBit (FieldElement.ofOctets bs)
      (abscissa? (FieldElement.ofOctets bs)) := by
  rw [readOctets, ordinate?_eq, if_pos hbs]
  rfl

/-- An ordinate below the prime with no abscissa is refused. -/
theorem readOctets_of_not_exists (r : Point) (hbs : bs.ordinate < fieldOrder)
    (hnone : ¬∃ x, Equation x bs.ordinate) :
    r.readOctets bs = ⟨r, DecodeError.notOnCurve.code⟩ := by
  rw [readOctets_of_lt r hbs, (abscissa?_eq_none_iff (ofOctets_denotes bs)).mpr hnone]
  rfl

/-- Zero cannot be odd. -/
theorem readAbscissa_some {x : ZMod fieldOrder} (r : Point)
    (hx : FieldElement.Denotes (2 ^ 52) f x) (odd : Bool) : r.readAbscissa odd y (some f) =
      if odd = true ∧ x = 0 then ⟨r, DecodeError.invalidEncoding.code⟩
      else ⟨r.writeAffine f y odd, 0⟩ := by
  have hnonzero := hx.isNonzero_iff
  have htest : (odd && !f.isNonzero) = true ↔ odd = true ∧ x = 0 := by
    rw [Bool.and_eq_true, Bool.not_eq_true', ← Bool.not_eq_true, hnonzero, not_not]
  unfold readAbscissa
  exact if_congr htest rfl rfl

/-- The even abscissa, or its opposite, has the parity that the string asks for. -/
theorem writeAffine_isDecodedFrom {x : ZMod fieldOrder} (r : Point)
    (hx : FieldElement.Denotes (2 ^ 52) f x) (hcurve : Equation x bs.ordinate)
    (heven : x.val % 2 = 0) (hkept : ¬(bs.topBit = true ∧ x = 0)) :
    (r.writeAffine f (FieldElement.ofOctets bs) bs.topBit).IsDecodedFrom bs
      (if bs.topBit then -x else x) := by
  have hsign := bs.topBit_eq_true_iff
  have hbit := bs.sign_lt
  cases htop : bs.topBit with
  | false =>
      have hclear : ¬bs.sign = 1 := by
        rw [← hsign, htop]
        exact Bool.false_ne_true
      have hp : (r.writeAffine f (FieldElement.ofOctets bs) false).Denotes
          ⟨x, bs.ordinate, hcurve⟩ := writeAffine_denotes r hx (ofOctets_denotes bs) rfl
      refine hp.isDecodedFrom rfl rfl ?_
      dsimp only
      omega
  | true =>
      have hzero : x ≠ 0 := fun h => hkept ⟨htop, h⟩
      have hp : (r.writeAffine f (FieldElement.ofOctets bs) true).Denotes
          (-⟨x, bs.ordinate, hcurve⟩) := writeAffine_denotes r hx (ofOctets_denotes bs) rfl
      refine hp.isDecodedFrom rfl rfl ?_
      have hother := FieldElement.val_neg_mod_two hzero
      rw [heven] at hother
      exact hother.trans (hsign.mp htop).symm

/-- Where there is an abscissa, only an odd zero is refused. -/
theorem readOctets_of_exists (hbs : bs.ordinate < fieldOrder)
    (hroot : ∃ x, Equation x bs.ordinate) :
    ((∀ r : Point, r.readOctets bs = ⟨r, DecodeError.invalidEncoding.code⟩) ∧
        Equation 0 bs.ordinate ∧ bs.sign = 1) ∨
      ∃ p x, (∀ r : Point, r.readOctets bs = ⟨p, 0⟩) ∧ p.IsDecodedFrom bs x ∧
        ¬(x = 0 ∧ bs.sign = 1) := by
  have hy := ofOctets_denotes bs
  have hsign := bs.topBit_eq_true_iff
  cases hfound : abscissa? (FieldElement.ofOctets bs) with
  | none => exact absurd hroot ((abscissa?_eq_none_iff hy).mp hfound)
  | some f =>
      obtain ⟨x, hx, hcurve, heven⟩ := abscissa?_eq_some hy hfound
      by_cases hrefused : bs.topBit = true ∧ x = 0
      · left
        refine ⟨?_, hrefused.2 ▸ hcurve, hsign.mp hrefused.1⟩
        intro r
        rw [readOctets_of_lt r hbs, hfound, readAbscissa_some r hx, if_pos hrefused]
      · right
        refine ⟨_, _, ?_, writeAffine_isDecodedFrom identity hx hcurve heven hrefused, ?_⟩
        · intro r
          rw [readOctets_of_lt r hbs, hfound, readAbscissa_some r hx, if_neg hrefused]
          rfl
        rintro ⟨hnull, hset⟩
        have htop := hsign.mpr hset
        rw [if_pos htop] at hnull
        exact hrefused ⟨htop, neg_eq_zero.mp hnull⟩

/-- The status of a refusal is turned into its cause. -/
theorem decode_of_refused {cause : DecodeError}
    (h : ∀ r : Point, r.readOctets bs = ⟨r, cause.code⟩) : decode bs = .error cause := by
  have hcode : cause.code ≠ 0 := by cases cause <;> decide
  rw [decode, h, Reading.result]
  dsimp only
  rw [if_neg hcode, DecodeError.ofCode?_code, Option.getD_some]

/-- A status of zero comes with the point. -/
theorem decode_of_read {p : Point} (h : ∀ r : Point, r.readOctets bs = ⟨p, 0⟩) :
    decode bs = .ok p := by
  rw [decode, h]
  rfl

/-- The reader and its status, case by case: what is refused is left as it was handed in, and what
is read does not depend on it. -/
theorem readOctets_exact (bs : Octets 32) :
    (fieldOrder ≤ bs.ordinate → ∀ r : Point, r.readOctets bs = ⟨r, -1⟩) ∧
      (bs.ordinate < fieldOrder → (¬∃ x, Equation x bs.ordinate) →
        ∀ r : Point, r.readOctets bs = ⟨r, -2⟩) ∧
      (bs.ordinate < fieldOrder → (∃ x, Equation x bs.ordinate) →
        (∀ x, Equation x bs.ordinate → x = 0) → bs.sign = 1 →
        ∀ r : Point, r.readOctets bs = ⟨r, -1⟩) ∧
      (bs.ordinate < fieldOrder → (∃ x, Equation x bs.ordinate) →
        ¬((∀ x, Equation x bs.ordinate → x = 0) ∧ bs.sign = 1) →
        ∃ p x, (∀ r : Point, r.readOctets bs = ⟨p, 0⟩) ∧ p.IsDecodedFrom bs x) := by
  refine ⟨fun hbs r => readOctets_of_fieldOrder_le r hbs,
    fun hbs hnone r => readOctets_of_not_exists r hbs hnone, ?_, ?_⟩
  · intro hbs hroot honly hsign
    rcases readOctets_of_exists hbs hroot with ⟨hrefused, -⟩ | ⟨p, x, -, hp, hkept⟩
    · exact hrefused
    · exact absurd ⟨honly x hp.equation, hsign⟩ hkept
  · intro hbs hroot hkept
    rcases readOctets_of_exists hbs hroot with ⟨-, hzero, hsign⟩ | ⟨p, x, hread, hp, -⟩
    · exact absurd ⟨fun x => eq_zero_of_equation hzero, hsign⟩ hkept
    · exact ⟨p, x, hread, hp⟩

/-- A step that reads a string sets its register to the point, or answers the cause of the refusal
and leaves the file as it was. -/
theorem run_decode (bs : Octets 32) (target : Nat) (regs : Registers Point) :
    (PointStep.set target (.decode bs)).run regs =
      match decode bs with
      | .ok p => (.value p, regs.write target p)
      | .error cause => (.refused (.undecodable cause), regs) := by
  have hvalue : (PointOperation.decode bs).value regs target =
      (decode bs).mapError Refusal.undecodable := rfl
  simp only [PointStep.run, hvalue]
  cases decode bs with
  | error cause => rfl
  | ok p => rfl

/-- **Exact acceptance.**  Refused are an ordinate that is not below the prime, one without an
abscissa, and an odd abscissa where only zero is one; every other string is the point of its
ordinate and of the abscissa with its parity.  The reader answers the status -1 or -2 of a refusal
and hands the point back as it got it; `decode` tells the cause with that status and leaves the
registers alone.  The denominator of the abscissa vanishes for no ordinate. -/
theorem decode_exact (bs : Octets 32) :
    (fieldOrder ≤ bs.ordinate →
        (∀ r : Point, r.readOctets bs = ⟨r, -1⟩) ∧ decode bs = .error .invalidEncoding) ∧
      (bs.ordinate < fieldOrder → (¬∃ x, Equation x bs.ordinate) →
        (∀ r : Point, r.readOctets bs = ⟨r, -2⟩) ∧ decode bs = .error .notOnCurve) ∧
      (bs.ordinate < fieldOrder → (∃ x, Equation x bs.ordinate) →
        (∀ x, Equation x bs.ordinate → x = 0) → bs.sign = 1 →
        (∀ r : Point, r.readOctets bs = ⟨r, -1⟩) ∧ decode bs = .error .invalidEncoding) ∧
      (bs.ordinate < fieldOrder → (∃ x, Equation x bs.ordinate) →
        ¬((∀ x, Equation x bs.ordinate → x = 0) ∧ bs.sign = 1) →
        ∃ p x, (∀ r : Point, r.readOctets bs = ⟨p, 0⟩) ∧ decode bs = .ok p ∧
          p.IsDecodedFrom bs x) ∧
      (∀ cause, decode bs = .error cause → ∀ target regs,
        (PointStep.set target (.decode bs)).run regs = (.refused (.undecodable cause), regs)) ∧
      (∀ p, decode bs = .ok p → ∀ target regs,
        (PointStep.set target (.decode bs)).run regs = (.value p, regs.write target p)) ∧
      DecodeError.invalidEncoding.code = -1 ∧ DecodeError.notOnCurve.code = -2 ∧
      ∀ y : ZMod fieldOrder, coefficient * y ^ 2 + 1 ≠ 0 := by
  obtain ⟨hlarge, hnone, hodd, hread⟩ := readOctets_exact bs
  refine ⟨?_, ?_, ?_, ?_, ?_, ?_, rfl, rfl, ordinate_denominator_ne_zero⟩
  · intro hbs
    have hrefused := hlarge hbs
    exact ⟨hrefused, decode_of_refused hrefused⟩
  · intro hbs hcurve
    have hrefused := hnone hbs hcurve
    exact ⟨hrefused, decode_of_refused hrefused⟩
  · intro hbs hroot honly hsign
    have hrefused := hodd hbs hroot honly hsign
    exact ⟨hrefused, decode_of_refused hrefused⟩
  · intro hbs hroot hkept
    obtain ⟨p, x, hp, hdecoded⟩ := hread hbs hroot hkept
    exact ⟨p, x, hp, decode_of_read hp, hdecoded⟩
  · intro cause hcause target regs
    rw [run_decode, hcause]
  · intro p hp target regs
    rw [run_decode, hp]

end Point

end TwistedEdwards
