import TwistedEdwards.Proofs.Field.Canonical

/-!
# Bytes of field elements

An element is written as the least number of its residue, whatever limbs it is kept in, and
what is written is read back.  Equality, zero and parity are asked of the bytes, as the
equality of two strings, a byte that is not zero and the lowest bit, and so decide what they
ask of the least numbers.

Main statements: `FieldElement.toNat_ofOctets_toOctets` and `FieldElement.toOctets_exact`.
-/

namespace TwistedEdwards

namespace FieldElement

/-- An element is odd exactly where its string stands for an odd number. -/
theorem isNegative_iff_value (f : FieldElement) :
    f.isNegative = true ↔ LittleEndian.value f.toOctets.toList % 2 = 1 := by
  rw [isNegative_iff, ← value_toOctets]

variable {f g : FieldElement}

section Limbs

variable (hf : f.Bounded (2 ^ 64 - 2 ^ 13 + 1))
include hf

/-- What is written is the least number of the residue. -/
theorem value_toOctets_eq_mod :
    LittleEndian.value f.toOctets.toList = f.toNat % fieldOrder := by
  rw [value_toOctets, toNat_canonical hf]

/-- The top bit of what is written is clear. -/
theorem value_toOctets_lt : LittleEndian.value f.toOctets.toList < 2 ^ 255 := by
  have horder : fieldOrder < 2 ^ 255 := by decide
  rw [value_toOctets_eq_mod hf]
  exact (Nat.mod_lt _ (by decide)).trans horder

/-- What is written below the prime leaves the top bit clear. -/
theorem topBit_toOctets : f.toOctets.topBit = false := by
  have hlt := value_toOctets_lt hf
  rw [Bool.eq_false_iff, Ne, Octets.topBit_iff]
  omega

/-- What is written is read back, as the least number of the residue. -/
theorem toNat_ofOctets_toOctets : (ofOctets f.toOctets).toNat = f.toNat % fieldOrder := by
  rw [toNat_ofOctets, Nat.mod_eq_of_lt (value_toOctets_lt hf), value_toOctets_eq_mod hf]

omit hf in
/-- A string is written back as the least number for its low 255 bits. -/
theorem value_toOctets_ofOctets (bs : Octets 32) :
    LittleEndian.value (ofOctets bs).toOctets.toList =
      LittleEndian.value bs.toList % 2 ^ 255 % fieldOrder := by
  have hread : (ofOctets bs).Bounded (2 ^ 64 - 2 ^ 13 + 1) :=
    (bounded_ofWord256 _).mono (by decide)
  rw [value_toOctets_eq_mod hread, toNat_ofOctets]

/-- Writing what was read back changes nothing. -/
theorem toOctets_ofOctets_toOctets : (ofOctets f.toOctets).toOctets = f.toOctets := by
  apply Octets.value_inj
  rw [value_toOctets_ofOctets, Nat.mod_eq_of_lt (value_toOctets_lt hf), value_toOctets_eq_mod hf,
    Nat.mod_mod]

end Limbs

/-- **Bytes of an element.**  Limbs up to `2 ^ 64 - 2 ^ 13` are written as the least number of their
residue and read back as it, a string is written back as the residue of its low 255 bits, and the
predicates decide equality, zero and parity of the least numbers. -/
theorem toOctets_exact (hf : f.Bounded (2 ^ 64 - 2 ^ 13 + 1))
    (hg : g.Bounded (2 ^ 64 - 2 ^ 13 + 1)) :
    f.toOctets.toList = LittleEndian.bytes 32 (f.toNat % fieldOrder) ∧
      f.toOctets.topBit = false ∧
      (∀ bs : Octets 32, (ofOctets bs).toOctets.toList =
        LittleEndian.bytes 32 (LittleEndian.value bs.toList % 2 ^ 255 % fieldOrder)) ∧
      (ofOctets f.toOctets).toNat % fieldOrder = f.toNat % fieldOrder ∧
      (f.same g = true ↔ f.toNat % fieldOrder = g.toNat % fieldOrder) ∧
      (f.isNonzero = true ↔ f.toNat % fieldOrder ≠ 0) ∧
      (f.isNegative = true ↔ f.toNat % fieldOrder % 2 = 1) := by
  have hvalue := value_toOctets_eq_mod hf
  have hvalue' := value_toOctets_eq_mod hg
  refine ⟨?_, topBit_toOctets hf, ?_, ?_, ?_, ?_, ?_⟩
  · rw [← hvalue]
    exact Octets.toList_eq_bytes f.toOctets
  · intro bs
    rw [← value_toOctets_ofOctets]
    exact Octets.toList_eq_bytes (ofOctets bs).toOctets
  · rw [toNat_ofOctets_toOctets hf, Nat.mod_mod]
  · rw [same_iff_toOctets_eq, ← hvalue, ← hvalue']
    constructor
    · intro hbytes
      rw [hbytes]
    · exact Octets.value_inj
  · rw [isNonzero_iff_exists_octet, ← hvalue, Ne, LittleEndian.value_eq_zero_iff]
    push Not
    rfl
  · rw [isNegative_iff_value, hvalue]

/-- Limbs as large as two carry passes take. -/
def widest : FieldElement :=
  ⟨0xffffffffffffe000, 0xffffffffffffe000, 0xffffffffffffe000, 0xffffffffffffe000,
    0xffffffffffffe000⟩

/-- The widest limbs stand for `2 ^ 13 * (2 ^ 255 - 1)`, of which eighteen times `2 ^ 13` is
left. -/
theorem toOctets_exact_widest :
    widest.Bounded (2 ^ 64 - 2 ^ 13 + 1) ∧
      Bounded (2 ^ 64 - 2 ^ 13 + 1) ⟨0x24000, 0, 0, 0, 0⟩ ∧
      widest.toOctets.toList = LittleEndian.bytes 32 (18 * 2 ^ 13) ∧
      widest.same ⟨0x24000, 0, 0, 0, 0⟩ = true ∧ widest.isNegative = false := by
  have hbound : widest.Bounded (2 ^ 64 - 2 ^ 13 + 1) := by decide
  have hsmall : Bounded (2 ^ 64 - 2 ^ 13 + 1) ⟨0x24000, 0, 0, 0, 0⟩ := by decide
  have hleast : widest.toNat % fieldOrder = 18 * 2 ^ 13 := by decide +kernel
  obtain ⟨hbytes, -, -, -, hsame, -, hnegative⟩ := toOctets_exact hbound hsmall
  rw [hleast] at hbytes hsame hnegative
  refine ⟨hbound, hsmall, hbytes, hsame.mpr rfl, ?_⟩
  rw [Bool.eq_false_iff, Ne, hnegative]
  decide

/-- A larger limb can lose the carry that it takes in. -/
example : (canonical ⟨0xffffffffffffffff, 0xffffffffffffe001, 0, 0, 0⟩).toNat = 2 ^ 51 - 1 := by
  decide +kernel

end FieldElement

end TwistedEdwards
