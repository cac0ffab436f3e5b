import TwistedEdwards.Digits.Radix16
import TwistedEdwards.Proofs.Digits.Value

/-!
# Centred digits of radix 16

Recentring turns nibbles into digits from -7 to 8 and gives the top digit whatever is
carried into it, which is at most 16.  The number is kept, so a number below `2 ^ 255` has
no room for a top digit above 8.

Main statements: `Digits.value_radix16`, `Digits.radix16_split` and
`Digits.radix16_centred`.
-/

namespace TwistedEdwards

namespace Digits

/-- The mask and the shift cut a byte at its fourth bit. -/
theorem toNat_nibbles (b : UInt8) :
    (b &&& 15).toNat = b.toNat % 2 ^ 4 ∧ (b >>> 4).toNat = b.toNat / 2 ^ 4 := by
  constructor
  · rw [UInt8.toNat_and]
    exact Nat.and_two_pow_sub_one_eq_mod _ 4
  · rw [UInt8.toNat_shiftRight, Nat.shiftRight_eq_div_pow]
    rfl

theorem nibbles_cons (b : UInt8) (bs : List UInt8) :
    nibbles (b :: bs) = ((b &&& 15).toNat : Int) :: ((b >>> 4).toNat : Int) :: nibbles bs :=
  rfl

/-- The nibbles stand for the number of the bytes. -/
theorem value_nibbles (bs : List UInt8) : value 16 (nibbles bs) = LittleEndian.value bs := by
  induction bs with
  | nil => rfl
  | cons b bs ih =>
      obtain ⟨hlow, hhigh⟩ := toNat_nibbles b
      rw [nibbles_cons, value, value, ih, hlow, hhigh, LittleEndian.value]
      omega

theorem nibbles_range (bs : List UInt8) : ∀ d ∈ nibbles bs, 0 ≤ d ∧ d ≤ 15 := by
  intro d hd
  obtain ⟨b, -, hmem⟩ := List.mem_flatMap.mp hd
  obtain ⟨hlow, hhigh⟩ := toNat_nibbles b
  have hb := b.toNat_lt
  rcases List.mem_pair.mp hmem with rfl | rfl
  · omega
  · omega

theorem length_nibbles (bs : List UInt8) : (nibbles bs).length = 2 * bs.length := by
  induction bs with
  | nil => rfl
  | cons b bs ih =>
      rw [nibbles_cons, List.length_cons, List.length_cons, ih, List.length_cons]
      omega

/-- Every digit but the last is centred, and the last one takes the carry. -/
theorem recenter_range {carry : Int} {digits : List Int} (hcarry : 0 ≤ carry ∧ carry ≤ 1)
    (h : ∀ d ∈ digits, 0 ≤ d ∧ d ≤ 15) :
    (∀ d ∈ (recenter carry digits).dropLast, -7 ≤ d ∧ d ≤ 8) ∧
      ∀ d ∈ (recenter carry digits).getLast?, 0 ≤ d ∧ d ≤ 16 := by
  induction digits generalizing carry with
  | nil => simp [recenter]
  | cons d rest ih =>
      have hd := h d List.mem_cons_self
      cases rest with
      | nil =>
          simp only [recenter, List.dropLast_singleton, List.getLast?_singleton, Option.mem_def,
            Option.some.injEq, forall_eq']
          refine ⟨?_, by omega⟩
          intro e he
          cases he
      | cons e rest =>
          have hout : 0 ≤ carryOut (d + carry) ∧ carryOut (d + carry) ≤ 1 ∧
              -7 ≤ d + carry - 16 * carryOut (d + carry) ∧
              d + carry - 16 * carryOut (d + carry) ≤ 8 := by
            rw [carryOut_eq (by omega)]
            split <;> omega
          obtain ⟨hdrop, hlast⟩ :=
            ih ⟨hout.1, hout.2.1⟩ (fun c hc => h c (List.mem_cons_of_mem d hc))
          have hne : recenter (carryOut (d + carry)) (e :: rest) ≠ [] := by
            intro hnil
            have hlen := length_recenter (carryOut (d + carry)) (e :: rest)
            rw [hnil] at hlen
            cases hlen
          simp only [recenter]
          rw [List.dropLast_cons_of_ne_nil hne, List.getLast?_cons_of_ne_nil hne]
          refine ⟨?_, hlast⟩
          intro c hc
          rcases List.mem_cons.mp hc with rfl | hc
          · exact hout.2.2
          · exact hdrop c hc

theorem length_radix16 (bs : Octets 32) : (radix16 bs).length = 64 := by
  rw [radix16, length_recenter, length_nibbles, Vector.length_toList]

/-- The digits stand for the whole number. -/
theorem value_radix16 (bs : Octets 32) :
    value 16 (radix16 bs) = LittleEndian.value bs.toList := by
  have hne : nibbles bs.toList ≠ [] := by
    intro hnil
    have hlen := length_nibbles bs.toList
    rw [hnil, Vector.length_toList] at hlen
    cases hlen
  rw [radix16, value_recenter 0 _ hne, value_nibbles, Int.add_zero]

/-- The digit of the highest place, which takes the last carry as it is. -/
def topDigit (bs : Octets 32) : Int := (radix16 bs).getD 63 0

/-- The lower 63 digits are centred, and the top digit is not negative. -/
theorem radix16_split (bs : Octets 32) :
    ∃ low, radix16 bs = low ++ [topDigit bs] ∧ low.length = 63 ∧
      (∀ d ∈ low, -7 ≤ d ∧ d ≤ 8) ∧ 0 ≤ topDigit bs ∧ topDigit bs ≤ 16 := by
  have hlen := length_radix16 bs
  have hne : radix16 bs ≠ [] := by
    intro hnil
    rw [hnil] at hlen
    cases hlen
  have hcarry : (0 : Int) ≤ 0 ∧ (0 : Int) ≤ 1 := by omega
  obtain ⟨hlow, hlast⟩ := recenter_range hcarry (nibbles_range bs.toList)
  have htop : (radix16 bs).getLast hne = topDigit bs := by
    rw [topDigit, List.getLast_eq_getElem, List.getD_eq_getElem?_getD]
    simp only [hlen]
    rw [List.getElem?_eq_getElem (by omega), Option.getD_some]
  refine ⟨(radix16 bs).dropLast, ?_, ?_, hlow, hlast _ ?_⟩
  · rw [← htop, List.dropLast_append_getLast]
  · rw [List.length_dropLast, hlen]
  · rw [← htop]
    exact List.getLast?_eq_some_getLast hne

/-- Every digit fits a byte. -/
theorem radix16_fits (bs : Octets 32) : ∀ d ∈ radix16 bs, -2 ^ 7 ≤ d ∧ d < 2 ^ 7 := by
  obtain ⟨low, hsplit, -, hlow, htop⟩ := radix16_split bs
  rw [hsplit]
  intro d hd
  rcases List.mem_append.mp hd with hd | hd
  · have hrange := hlow d hd
    omega
  · rw [List.mem_singleton.mp hd]
    omega

/-- Below `2 ^ 255` the top digit is centred too. -/
theorem topDigit_le {bs : Octets 32} (hbs : LittleEndian.value bs.toList < 2 ^ 255) :
    topDigit bs ≤ 8 := by
  obtain ⟨low, hsplit, hlen, hlow, -⟩ := radix16_split bs
  have hvalue := value_radix16 bs
  have hleast := le_value (by decide : (1 : Int) ≤ 16) (fun d hd => (hlow d hd).1)
  rw [hsplit, value_append] at hvalue
  rw [hlen] at hvalue hleast
  simp only [value] at hvalue
  omega

/-- Below `2 ^ 255` every digit is centred. -/
theorem radix16_centred {bs : Octets 32} (hbs : LittleEndian.value bs.toList < 2 ^ 255) :
    ∀ d ∈ radix16 bs, -7 ≤ d ∧ d ≤ 8 := by
  obtain ⟨low, hsplit, -, hlow, htop⟩ := radix16_split bs
  have hcentred := topDigit_le hbs
  rw [hsplit]
  intro d hd
  rcases List.mem_append.mp hd with hd | hd
  · exact hlow d hd
  · rw [List.mem_singleton.mp hd]
    omega

end Digits

end TwistedEdwards
