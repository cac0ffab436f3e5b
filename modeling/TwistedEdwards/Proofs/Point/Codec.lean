import TwistedEdwards.Proofs.Point.Decoding
import TwistedEdwards.Proofs.Point.Encoding
import TwistedEdwards.Proofs.Point.Equality

/-!
# Writing and reading points

A string that is read is written back as it was, since the ordinate is below the prime and
the abscissa has the parity that the string asks for.  A point of the curve is written with
its least ordinate and the parity of its abscissa, so it is read, and as an ordinate has one
abscissa of each parity, what is read is the point again.  Reading and writing therefore
pair the strings that are read with the points of the curve.

Main statements: `Point.IsDecodedFrom.toOctets_eq`, `Point.decode_toOctets`, and
`Point.codec_inverse`.
-/

namespace TwistedEdwards

open Curve LittleEndian

namespace Octets

/-- A string is its ordinate and its parity. -/
theorem value_eq_ordinate (bs : Octets 32) :
    value bs.toList = bs.ordinate + 2 ^ 255 * bs.sign := by
  rw [ordinate, sign, Nat.mod_add_div]

end Octets

namespace AffinePoint

/-- The low 255 bits of what a point writes are its ordinate. -/
theorem ordinate_toOctets (P : AffinePoint) : P.toOctets.ordinate = P.y.val := by
  rw [Octets.ordinate, P.value_toOctets, Nat.add_mul_mod_self_left,
    Nat.mod_eq_of_lt P.y_val_lt]

/-- The top bit of what a point writes is the parity of its abscissa. -/
theorem sign_toOctets (P : AffinePoint) : P.toOctets.sign = P.x.val % 2 := by
  have hlt := P.y_val_lt
  rw [Octets.sign, P.value_toOctets]
  omega

/-- The ordinate of the string of a point is the ordinate of the point. -/
theorem cast_ordinate_toOctets (P : AffinePoint) :
    (P.toOctets.ordinate : ZMod fieldOrder) = P.y := by
  rw [P.ordinate_toOctets, ZMod.natCast_zmod_val]

end AffinePoint

namespace Point

variable {bs : Octets 32} {p : Point}

/-- What is read has an ordinate below the prime and the abscissa that the string asks for. -/
theorem exists_isDecodedFrom (h : decode bs = .ok p) :
    bs.ordinate < fieldOrder ∧ ∃ x, p.IsDecodedFrom bs x := by
  have hlt : bs.ordinate < fieldOrder := by
    by_contra hle
    rw [decode_of_refused fun r => readOctets_of_fieldOrder_le r (Nat.not_lt.mp hle)] at h
    cases h
  refine ⟨hlt, ?_⟩
  by_cases hroot : ∃ x, Equation x bs.ordinate
  · rcases readOctets_of_exists hlt hroot with ⟨hrefused, -⟩ | ⟨q, x, hread, hdecoded, -⟩
    · rw [decode_of_refused hrefused] at h
      cases h
    · rw [decode_of_read hread] at h
      obtain rfl : q = p := Except.ok.inj h
      exact ⟨x, hdecoded⟩
  · rw [decode_of_refused fun r => readOctets_of_not_exists r hlt hroot] at h
    cases h

/-- What is read stands over `Z = 1`, so its coordinates are those of the point. -/
theorem IsDecodedFrom.affine_eq {x : ZMod fieldOrder} (hp : p.IsDecodedFrom bs x) :
    hp.valid.affine.x = x ∧ hp.valid.affine.y = bs.ordinate := by
  have hone : p.z.residue = 1 := by rw [hp.z_eq, FieldElement.one_denotes.residue_eq]
  constructor
  · change p.x.residue / p.z.residue = x
    rw [hone, div_one, hp.x_eq]
  · change p.y.residue / p.z.residue = bs.ordinate
    rw [hone, div_one, hp.y_eq]

/-- **What is read is written back.** -/
theorem IsDecodedFrom.toOctets_eq {x : ZMod fieldOrder} (hp : p.IsDecodedFrom bs x)
    (hbs : bs.ordinate < fieldOrder) : p.toOctets = bs := by
  obtain ⟨hx, hy⟩ := hp.affine_eq
  apply Octets.value_inj
  rw [hp.valid.denotes.toOctets_eq, AffinePoint.value_toOctets, hx, hy,
    ZMod.val_natCast_of_lt hbs, hp.parity, bs.value_eq_ordinate]

/-- **What is written is read** as the point again. -/
theorem decode_toOctets (P : AffinePoint) : ∃ p, decode P.toOctets = .ok p ∧ p.Denotes P := by
  have hlt : P.toOctets.ordinate < fieldOrder := by
    rw [P.ordinate_toOctets]
    exact ZMod.val_lt P.y
  have hcurve : Equation P.x P.toOctets.ordinate := by
    rw [P.cast_ordinate_toOctets]
    exact P.equation
  rcases readOctets_of_exists hlt ⟨P.x, hcurve⟩ with ⟨-, hzero, hsign⟩ | ⟨p, x, hread, hp, -⟩
  · -- an odd zero is not written
    rw [P.sign_toOctets, eq_zero_of_equation hzero hcurve, ZMod.val_zero] at hsign
    cases hsign
  · have hx : P.x = x := hp.unique P.x hcurve P.sign_toOctets.symm
    have hP : hp.valid.affine = P := by
      ext
      · rw [hp.affine_eq.1, hx]
      · rw [hp.affine_eq.2, P.cast_ordinate_toOctets]
    refine ⟨p, decode_of_read hread, ?_⟩
    rw [← hP]
    exact hp.valid.denotes

/-- The strings that are read as a point. -/
def Accepted : Type := { bs : Octets 32 // (decode? bs).isSome = true }

/-- The point of the curve that an accepted string stands for. -/
def Accepted.affine (bs : Accepted) : AffinePoint := ((decode? bs.1).get bs.2).toAffine

/-- Forgetting the cause of a refusal keeps the point. -/
theorem decode?_eq_some_iff : decode? bs = some p ↔ decode bs = .ok p := by
  unfold decode?
  cases decode bs with
  | error cause => simp [Except.toOption]
  | ok q => simp [Except.toOption]

/-- An accepted string is the string of its point. -/
theorem Accepted.toOctets_affine (bs : Accepted) : bs.affine.toOctets = bs.1 := by
  have hok : decode bs.1 = .ok ((decode? bs.1).get bs.2) :=
    decode?_eq_some_iff.mp (Option.some_get bs.2).symm
  obtain ⟨hlt, x, hp⟩ := exists_isDecodedFrom hok
  rw [affine, ← hp.valid.denotes_toAffine.toOctets_eq, hp.toOctets_eq hlt]

/-- The accepted strings are as many as the points of the curve. -/
theorem Accepted.affine_bijective : Function.Bijective Accepted.affine := by
  constructor
  · intro a b hab
    apply Subtype.ext
    rw [← a.toOctets_affine, ← b.toOctets_affine, hab]
  · intro P
    obtain ⟨p, hok, hp⟩ := decode_toOctets P
    have hsome := decode?_eq_some_iff.mpr hok
    refine ⟨⟨P.toOctets, by rw [hsome]; rfl⟩, ?_⟩
    have hget : (decode? P.toOctets).get (by rw [hsome]; rfl) = p :=
      Option.get_of_eq_some _ hsome
    unfold affine
    rw [hget]
    exact hp.toAffine_eq

/-- **Reading and writing are inverse to each other.**  A string that is read is what its point
writes; every valid quadruple, in any representation, writes a string that is read as the same
point; and the strings that are read are as many as the points of the curve, one for each. -/
theorem codec_inverse :
    (∀ bs p, decode bs = .ok p → p.Valid ∧ p.toOctets = bs) ∧
      (∀ p : Point, p.Valid → ∃ q, decode p.toOctets = .ok q ∧ q.Valid ∧ q.same p = true) ∧
      (∀ bs : Accepted, ∃ p, decode bs.1 = .ok p ∧ p.Denotes bs.affine) ∧
      Function.Bijective Accepted.affine := by
  refine ⟨?_, ?_, ?_, Accepted.affine_bijective⟩
  · intro bs p hok
    obtain ⟨hlt, x, hp⟩ := exists_isDecodedFrom hok
    exact ⟨hp.valid, hp.toOctets_eq hlt⟩
  · intro p hp
    obtain ⟨q, hok, hq⟩ := decode_toOctets hp.affine
    rw [hp.denotes.toOctets_eq]
    exact ⟨q, hok, hq.valid, (hq.same_iff hp.denotes).mpr rfl⟩
  · intro bs
    obtain ⟨p, hok, hp⟩ := decode_toOctets bs.affine
    rw [bs.toOctets_affine] at hok
    exact ⟨p, hok, hp⟩

/-- The base point is read back from what its quadruple writes, and so is its double, whose `Z` is
not one. -/
theorem codec_inverse_base :
    base.Valid ∧ base.double.Valid ∧
      (∃ q, decode base.toOctets = .ok q ∧ q.same base = true) ∧
      ∃ q, decode base.double.toOctets = .ok q ∧ q.same base.double = true := by
  have hbase := base_denotes.valid
  have hdouble := base_denotes.double.valid
  obtain ⟨q, hq, -, hsame⟩ := codec_inverse.2.1 base hbase
  obtain ⟨r, hr, -, hsame'⟩ := codec_inverse.2.1 base.double hdouble
  exact ⟨hbase, hdouble, ⟨q, hq, hsame⟩, r, hr, hsame'⟩

end Point

end TwistedEdwards
