import Mathlib
import Fluxion.Decimal.Reader

/-!
Doubles and their bits. A finite magnitude is `man * 2 ^ exp` for one pair of numbers, and its bits
count the magnitudes below it.
-/

namespace Fluxion.Decimal

open Float.Model Float.Model.UnpackedFloat

/-- Bits that are no NaN are those of the double made from them. -/
theorem toBits_ofBits {b : UInt64} (h : Format.binary64.Valid b.toBitVec) :
    (Float.ofBits b).toBits = b := by
  have hbits : (Float.ofModel ⟨b, h⟩).toBits = b := rfl
  have hfloat := Float.ofBits_toBits (.ofModel ⟨b, h⟩)
  rw [hbits] at hfloat
  rw [hfloat, hbits]

theorem toNat_unpackExponent (b : BitVec Format.binary64.numBits) :
    (unpackExponent b).toNat = b.toNat / 2 ^ 52 % 2 ^ 11 := by
  simp [unpackExponent, BitVec.extractLsb, BitVec.extractLsb'_toNat, Nat.shiftRight_eq_div_pow]

theorem toNat_unpackMantissa (b : BitVec Format.binary64.numBits) :
    (unpackMantissa b).toNat = b.toNat % 2 ^ 52 := by
  simp [unpackMantissa, BitVec.extractLsb, BitVec.extractLsb'_toNat]

theorem toNat_ofNat_bits {m : Nat} (h : m ≤ 2047 * 2 ^ 52) : (UInt64.ofNat m).toNat = m := by
  rw [UInt64.toNat_ofNat', Nat.mod_eq_of_lt]
  omega

/-- No magnitude up to infinity is a NaN. -/
theorem valid_ofNat {m : Nat} (h : m ≤ 2047 * 2 ^ 52) :
    Format.binary64.Valid (UInt64.ofNat m).toBitVec := by
  refine ⟨fun hexp hman => absurd ?_ hman⟩
  have hbits : (UInt64.ofNat m).toBitVec.toNat = m := toNat_ofNat_bits h
  have hfield : m / 2 ^ 52 % 2 ^ 11 = 2047 := by
    rw [← hbits, ← toNat_unpackExponent, hexp]
    decide
  apply BitVec.eq_of_toNat_eq
  rw [toNat_unpackMantissa, hbits]
  change m % 2 ^ 52 = 0
  omega

theorem toNat_toBits_ofMagnitude {m : Nat} (h : m ≤ 2047 * 2 ^ 52) :
    (ofMagnitude false m).toBits.toNat = m := by
  change (Float.ofBits (UInt64.ofNat m)).toBits.toNat = m
  rw [toBits_ofBits (valid_ofNat h), toNat_ofNat_bits h]

/-- Whole number and power of two that stand for a finite magnitude. -/
structure IsDouble (man : Nat) (exp : Int) : Prop where
  small : man < 2 ^ 53
  least : -1074 ≤ exp
  greatest : exp ≤ 971
  denormal : man < 2 ^ 52 → exp = -1074

/-- The bits of the magnitude `man * 2 ^ exp`. -/
def magnitudeBits (man : Nat) (exp : Int) : Nat :=
  if man < 2 ^ 52 then man else (exp + 1074).toNat * 2 ^ 52 + man

theorem magnitudeBits_lt {man : Nat} {exp : Int} (h : IsDouble man exp) :
    magnitudeBits man exp < 2047 * 2 ^ 52 := by
  have hsmall := h.small
  have hgreatest := h.greatest
  unfold magnitudeBits
  split <;> omega

/-- A finite magnitude is read as the numbers that have its bits. -/
theorem ofFloat_ofMagnitude {m : Nat} (h : m < 2047 * 2 ^ 52) : ∃ man exp, IsDouble man exp ∧
    magnitudeBits man exp = m ∧ Reading.ofFloat (ofMagnitude false m) = .finite false man exp := by
  have hbits : (ofMagnitude false m).toBits.toNat = m := toNat_toBits_ofMagnitude (by omega)
  have hsign : decide (2 ^ 63 ≤ m) = false := decide_eq_false (by omega)
  by_cases hfield : m / 2 ^ 52 % 2 ^ 11 = 0
  · refine ⟨m % 2 ^ 52, -1074, ⟨by omega, by omega, by omega, fun _ => rfl⟩, ?_, ?_⟩
    · rw [magnitudeBits, if_pos (by omega)]
      omega
    · rw [Reading.ofFloat, hbits]
      simp only [Nat.pow_eq, -Nat.reducePow]
      rw [hsign, if_neg (by omega), if_pos hfield]
  · refine ⟨2 ^ 52 + m % 2 ^ 52, ((m / 2 ^ 52 % 2 ^ 11 : Nat) : Int) - 1075,
      ⟨by omega, by omega, by omega, by omega⟩, ?_, ?_⟩
    · rw [magnitudeBits, if_neg (by omega)]
      omega
    · rw [Reading.ofFloat, hbits]
      simp only [Nat.pow_eq, -Nat.reducePow]
      rw [hsign, if_neg (by omega), if_neg hfield]

theorem isFinite_infinite : (ofMagnitude false (2047 * 2 ^ 52)).isFinite = false := by decide

/-- Only infinity is no finite magnitude. -/
theorem lt_of_isFinite {m : Nat} (h : m ≤ 2047 * 2 ^ 52) (hf : (ofMagnitude false m).isFinite = true) :
    m < 2047 * 2 ^ 52 := by
  rcases Nat.lt_or_eq_of_le h with hlt | rfl
  · exact hlt
  · rw [isFinite_infinite] at hf
    cases hf

end Fluxion.Decimal
