import Mathlib
import Fluxion.Proofs.Decimal.Bits

/-!
Reading takes the nearest double. The reals that round to a double are those up to half way to its
neighbours, and half way itself where the double is even.
-/

namespace Fluxion.Decimal

variable {num den man : Nat} {exp : Int} {x : ℚ}

/-! ### Powers -/

theorem powDown_pos {b : Nat} (hb : 0 < b) (e : Int) : 0 < powDown b e := Nat.pow_pos hb

theorem powUp_pos {b : Nat} (hb : 0 < b) (e : Int) : 0 < powUp b e := Nat.pow_pos hb

/-- A power is the quotient of its two parts. -/
theorem powUp_div_powDown {b : Nat} (hb : 0 < b) (e : Int) :
    (powUp b e : ℚ) / powDown b e = (b : ℚ) ^ e := by
  have hne : (b : ℚ) ≠ 0 := by exact_mod_cast hb.ne'
  change ((b ^ e.toNat : Nat) : ℚ) / (b ^ (-e).toNat : Nat) = _
  push_cast
  rw [← zpow_natCast, ← zpow_natCast, ← zpow_sub₀ hne]
  congr 1
  omega

theorem two_zpow_pos (e : Int) : (0 : ℚ) < 2 ^ e := zpow_pos (by norm_num) e

theorem two_zpow_lt {d e : Int} : (2 : ℚ) ^ d < 2 ^ e ↔ d < e := zpow_lt_zpow_iff_right₀ (by norm_num)

theorem two_zpow_le {d e : Int} : (2 : ℚ) ^ d ≤ 2 ^ e ↔ d ≤ e := zpow_le_zpow_iff_right₀ (by norm_num)

theorem two_zpow_add (d e : Int) : (2 : ℚ) ^ (d + e) = 2 ^ d * 2 ^ e := zpow_add₀ (by norm_num) d e

/-- A quotient over a power of two. -/
theorem scaled_eq (num den : Nat) (e : Int) :
    ((num * powDown 2 e : Nat) : ℚ) / ((den * powUp 2 e : Nat) : ℚ) = (num : ℚ) / den / 2 ^ e := by
  have hpow := powUp_div_powDown (b := 2) (by decide) e
  push_cast at hpow ⊢
  rw [← hpow, div_div_div_eq]

/-! ### Rounding to a whole number -/

theorem roundEven_eq {m : Nat} (hden : 0 < den) (hlow : 2 * m * den ≤ 2 * num + den)
    (hhigh : 2 * num ≤ 2 * m * den + den)
    (hodd : m % 2 = 1 → 2 * m * den < 2 * num + den ∧ 2 * num < 2 * m * den + den) :
    roundEven num den = m := by
  have hsplit := Nat.div_add_mod num den
  have hlt := Nat.mod_lt num hden
  unfold roundEven
  generalize num / den = q at *
  generalize num % den = r at *
  have hq : q = m ∨ q + 1 = m := by
    have h1 : m ≤ q + 1 := by
      by_contra hc
      nlinarith [Nat.mul_le_mul_right den (show q + 2 ≤ m by omega)]
    have h2 : q ≤ m := by
      by_contra hc
      nlinarith [Nat.mul_le_mul_right den (show m + 1 ≤ q by omega)]
    omega
  rcases hq with rfl | rfl
  · have hrest : 2 * r ≤ den := by nlinarith
    have hstrict : q % 2 = 1 → 2 * r < den := by
      intro h
      nlinarith [(hodd h).2]
    have hno : (decide (2 * r > den) || (2 * r == den && q % 2 == 1)) = false := by
      simp only [Bool.or_eq_false_iff, decide_eq_false_iff_not, Bool.and_eq_false_iff, beq_eq_false_iff_ne]
      omega
    simp [hno]
  · have hrest : den ≤ 2 * r := by nlinarith
    have hstrict : (q + 1) % 2 = 1 → den < 2 * r := by
      intro h
      nlinarith [(hodd h).1]
    have hyes : (decide (2 * r > den) || (2 * r == den && q % 2 == 1)) = true := by
      simp only [Bool.or_eq_true, decide_eq_true_eq, Bool.and_eq_true, beq_iff_eq]
      omega
    simp [hyes]

/-- A quotient within half of a whole number is rounded to it, at half when it is even. -/
theorem roundEven_of_near {m : Nat} (hden : 0 < den) (hlow : (m : ℚ) - 1 / 2 ≤ num / den)
    (hhigh : (num : ℚ) / den ≤ m + 1 / 2)
    (hodd : m % 2 = 1 → (m : ℚ) - 1 / 2 < num / den ∧ (num : ℚ) / den < m + 1 / 2) :
    roundEven num den = m := by
  have hpos : (0 : ℚ) < den := by exact_mod_cast hden
  rw [le_div_iff₀ hpos] at hlow
  rw [div_le_iff₀ hpos] at hhigh
  rw [lt_div_iff₀ hpos, div_lt_iff₀ hpos] at hodd
  apply roundEven_eq hden
  · have h : (2 * m * den : ℚ) ≤ 2 * num + den := by linarith
    exact_mod_cast h
  · have h : (2 * num : ℚ) ≤ 2 * m * den + den := by linarith
    exact_mod_cast h
  · intro hm
    obtain ⟨h1, h2⟩ := hodd hm
    have h : (2 * m * den : ℚ) < 2 * num + den ∧ (2 * num : ℚ) < 2 * m * den + den :=
      ⟨by linarith, by linarith⟩
    exact_mod_cast h

/-! ### The power of two of a quotient -/

/-- The power of two that leaves 53 digits before the point. -/
def scaleOf (num den : Nat) : Int :=
  let guess : Int := (num.log2 : Int) - den.log2 - 52
  if num * powDown 2 guess < 2 ^ 52 * den * powUp 2 guess then guess - 1 else guess

theorem nearestBits_eq (num den : Nat) : nearestBits num den =
    let e := max (scaleOf num den) (-1074)
    let m := roundEven (num * powDown 2 e) (den * powUp 2 e)
    min (if m < 2 ^ 52 then m else (e + 1074).toNat * 2 ^ 52 + m) (2047 * 2 ^ 52) := rfl

theorem log2_bounds {n : Nat} (hn : 0 < n) : (2 : ℚ) ^ (n.log2 : Int) ≤ n ∧ (n : ℚ) < 2 ^ ((n.log2 : Int) + 1) := by
  have hlow := Nat.log2_self_le hn.ne'
  have hhigh := Nat.lt_log2_self (n := n)
  constructor
  · rw [zpow_natCast]
    exact_mod_cast hlow
  · rw [zpow_add_one₀ (by norm_num), zpow_natCast, ← pow_succ]
    exact_mod_cast hhigh

theorem lt_powUp_iff (num : Nat) {den : Nat} (hden : 0 < den) (g : Int) :
    num * powDown 2 g < 2 ^ 52 * den * powUp 2 g ↔ (num : ℚ) / den < 2 ^ (g + 52) := by
  have hpos : (0 : ℚ) < den := by exact_mod_cast hden
  have hdown : (0 : ℚ) < powDown 2 g := by exact_mod_cast powDown_pos (by decide) g
  have hpow := powUp_div_powDown (b := 2) (by decide) g
  have hup : (powUp 2 g : ℚ) = 2 ^ g * powDown 2 g := by
    rw [div_eq_iff hdown.ne'] at hpow
    exact_mod_cast hpow
  rw [two_zpow_add, div_lt_iff₀ hpos, ← Nat.cast_lt (α := ℚ)]
  push_cast
  rw [hup, show (4503599627370496 : ℚ) * den * (2 ^ g * powDown 2 g) =
    2 ^ g * 4503599627370496 * den * powDown 2 g by ring, mul_lt_mul_iff_left₀ hdown]

theorem quotient_bounds (hnum : 0 < num) (hden : 0 < den) :
    (2 : ℚ) ^ ((num.log2 : Int) - den.log2 - 1) < num / den ∧
      (num : ℚ) / den < 2 ^ ((num.log2 : Int) - den.log2 + 1) := by
  have hpos : (0 : ℚ) < den := by exact_mod_cast hden
  obtain ⟨hn, hn'⟩ := log2_bounds hnum
  obtain ⟨hd, hd'⟩ := log2_bounds hden
  constructor
  · rw [lt_div_iff₀ hpos]
    calc (2 : ℚ) ^ ((num.log2 : Int) - den.log2 - 1) * den
        < 2 ^ ((num.log2 : Int) - den.log2 - 1) * 2 ^ ((den.log2 : Int) + 1) :=
          mul_lt_mul_of_pos_left hd' (two_zpow_pos _)
      _ = 2 ^ (num.log2 : Int) := by
          rw [← two_zpow_add]
          congr 1
          omega
      _ ≤ num := hn
  · rw [div_lt_iff₀ hpos]
    calc (num : ℚ) < 2 ^ ((num.log2 : Int) + 1) := hn'
      _ = 2 ^ ((num.log2 : Int) - den.log2 + 1) * 2 ^ (den.log2 : Int) := by
          rw [← two_zpow_add]
          congr 1
          omega
      _ ≤ 2 ^ ((num.log2 : Int) - den.log2 + 1) * den :=
          mul_le_mul_of_nonneg_left hd (two_zpow_pos _).le

theorem scaleOf_bounds (hnum : 0 < num) (hden : 0 < den) :
    (2 : ℚ) ^ (scaleOf num den + 52) ≤ num / den ∧ (num : ℚ) / den < 2 ^ (scaleOf num den + 53) := by
  obtain ⟨hlow, hhigh⟩ := quotient_bounds hnum hden
  simp only [scaleOf, lt_powUp_iff num hden]
  split
  case isTrue h =>
    constructor
    · refine le_trans ?_ hlow.le
      rw [two_zpow_le]
      omega
    · refine lt_of_lt_of_le h ?_
      rw [two_zpow_le]
      omega
  case isFalse h =>
    constructor
    · exact not_lt.mp h
    · refine lt_of_lt_of_le hhigh ?_
      rw [two_zpow_le]
      omega

/-- The power of two is the only one that leaves 53 digits. -/
theorem scaleOf_eq {e : Int} (hnum : 0 < num) (hden : 0 < den) (hlow : (2 : ℚ) ^ (e + 52) ≤ num / den)
    (hhigh : (num : ℚ) / den < 2 ^ (e + 53)) : scaleOf num den = e := by
  obtain ⟨h1, h2⟩ := scaleOf_bounds hnum hden
  have h3 := two_zpow_lt.mp (lt_of_le_of_lt h1 hhigh)
  have h4 := two_zpow_lt.mp (lt_of_le_of_lt hlow h2)
  omega

/-- A quotient below a power of two has a smaller one. -/
theorem scaleOf_lt {e : Int} (hnum : 0 < num) (hden : 0 < den) (h : (num : ℚ) / den < 2 ^ (e + 52)) :
    scaleOf num den < e := by
  have := two_zpow_lt.mp (lt_of_le_of_lt (scaleOf_bounds hnum hden).1 h)
  omega

/-! ### Reals that round to a double -/

/-- Quarters of a unit from a double half way down to its neighbour; the double below a power of two
is nearer. -/
def quartersDown (man : Nat) (exp : Int) : Nat := if man = 2 ^ 52 ∧ exp > -1074 then 1 else 2

/-- The double `man * 2 ^ exp` is the nearest to the number. -/
structure Rounds (man : Nat) (exp : Int) (x : ℚ) : Prop where
  low : (4 * man - quartersDown man exp : ℚ) * 2 ^ (exp - 2) ≤ x
  high : x ≤ (4 * man + 2 : ℚ) * 2 ^ (exp - 2)
  odd : man % 2 = 1 → (4 * man - quartersDown man exp : ℚ) * 2 ^ (exp - 2) < x ∧
    x < (4 * man + 2 : ℚ) * 2 ^ (exp - 2)

/-- With the double's own power of two its whole number is found. -/
theorem roundEven_of_rounds (hden : 0 < den) (h : Rounds man exp (num / den)) :
    roundEven (num * powDown 2 exp) (den * powUp 2 exp) = man := by
  have hpos := two_zpow_pos exp
  have hquarter : (2 : ℚ) ^ exp = 4 * 2 ^ (exp - 2) := by
    rw [show exp = 2 + (exp - 2) by omega, two_zpow_add]
    norm_num
  have hdown : (quartersDown man exp : ℚ) ≤ 2 := by
    unfold quartersDown
    split <;> norm_num
  have hp4 := two_zpow_pos (exp - 2)
  apply roundEven_of_near (Nat.mul_pos hden (powUp_pos (by decide) exp))
  · rw [scaled_eq, le_div_iff₀ hpos, hquarter]
    nlinarith [h.low]
  · rw [scaled_eq, div_le_iff₀ hpos, hquarter]
    nlinarith [h.high]
  · intro hm
    obtain ⟨h1, h2⟩ := h.odd hm
    rw [scaled_eq, lt_div_iff₀ hpos, div_lt_iff₀ hpos, hquarter]
    exact ⟨by nlinarith, by nlinarith⟩

/-- With its own power of two the bits of the double are found. -/
theorem nearestBits_of_scale (hdouble : IsDouble man exp) (hden : 0 < den)
    (h : Rounds man exp (num / den)) (hscale : max (scaleOf num den) (-1074) = exp) :
    nearestBits num den = magnitudeBits man exp := by
  simp only [nearestBits_eq, hscale, roundEven_of_rounds hden h]
  exact Nat.min_eq_left (magnitudeBits_lt hdouble).le

/-- Just below a power of two the number is rounded up to it with the next lower power. -/
theorem nearestBits_below (hdouble : IsDouble (2 ^ 52) exp) (hnum : 0 < num) (hden : 0 < den)
    (hexp : exp > -1074) (h : Rounds (2 ^ 52) exp (num / den)) (hlt : (num : ℚ) / den < 2 ^ (exp + 52)) :
    nearestBits num den = magnitudeBits (2 ^ 52) exp := by
  have hlow := h.low
  have hp := two_zpow_pos (exp - 2)
  have hquarters : quartersDown (2 ^ 52) exp = 1 := if_pos ⟨rfl, hexp⟩
  have hp52 : (2 : ℚ) ^ (exp + 52) = 2 ^ 54 * 2 ^ (exp - 2) := by
    rw [show exp + 52 = 54 + (exp - 2) by omega, two_zpow_add]
    norm_num
  have hp51 : (2 : ℚ) ^ (exp - 1 + 52) = 2 ^ 53 * 2 ^ (exp - 2) := by
    rw [show exp - 1 + 52 = 53 + (exp - 2) by omega, two_zpow_add]
    norm_num
  have hp1 : (2 : ℚ) ^ (exp - 1) = 2 * 2 ^ (exp - 2) := by
    rw [show exp - 1 = 1 + (exp - 2) by omega, two_zpow_add]
    norm_num
  rw [hquarters] at hlow
  push_cast at hlow
  have hscale : scaleOf num den = exp - 1 := by
    apply scaleOf_eq hnum hden
    · rw [hp51]
      linarith
    · rw [show exp - 1 + 53 = exp + 52 by omega]
      exact hlt
  have hround : roundEven (num * powDown 2 (exp - 1)) (den * powUp 2 (exp - 1)) = 2 ^ 53 := by
    have hpos := two_zpow_pos (exp - 1)
    rw [hp52] at hlt
    apply roundEven_of_near (Nat.mul_pos hden (powUp_pos (by decide) _))
    · rw [scaled_eq, le_div_iff₀ hpos, hp1]
      push_cast
      linarith
    · rw [scaled_eq, div_le_iff₀ hpos, hp1]
      push_cast
      linarith
    · intro hodd
      exact absurd hodd (by decide)
  have hmax : max (exp - 1) (-1074) = exp - 1 := by omega
  have hbits : magnitudeBits (2 ^ 52) exp = (exp - 1 + 1074).toNat * 2 ^ 52 + 2 ^ 53 := by
    rw [magnitudeBits, if_neg (Nat.lt_irrefl _)]
    omega
  simp only [nearestBits_eq, hscale, hmax, hround]
  rw [if_neg (by decide), ← hbits]
  exact Nat.min_eq_left (magnitudeBits_lt hdouble).le

/-- A quotient that rounds to a double is read as that double. -/
theorem nearestBits_of_rounds (hdouble : IsDouble man exp) (hnum : 0 < num) (hden : 0 < den)
    (h : Rounds man exp (num / den)) : nearestBits num den = magnitudeBits man exp := by
  have hp := two_zpow_pos (exp - 2)
  have hp52 : (2 : ℚ) ^ (exp + 52) = 2 ^ 54 * 2 ^ (exp - 2) := by
    rw [show exp + 52 = 54 + (exp - 2) by omega, two_zpow_add]
    norm_num
  have hp53 : (2 : ℚ) ^ (exp + 53) = 2 ^ 55 * 2 ^ (exp - 2) := by
    rw [show exp + 53 = 55 + (exp - 2) by omega, two_zpow_add]
    norm_num
  have hleast := hdouble.least
  by_cases hlt : (num : ℚ) / den < 2 ^ (exp + 52)
  · have hscale := scaleOf_lt hnum hden hlt
    by_cases hexp : exp = -1074
    · exact nearestBits_of_scale hdouble hden h (by omega)
    · have hlow : (4 * man - quartersDown man exp : ℚ) * 2 ^ (exp - 2) < 2 ^ 54 * 2 ^ (exp - 2) :=
        lt_of_le_of_lt h.low (hp52 ▸ hlt)
      have hdown : quartersDown man exp ≤ 2 := by
        unfold quartersDown
        split <;> decide
      have hnat : (4 * man : ℚ) < 2 ^ 54 + 2 := by
        have hcast : (quartersDown man exp : ℚ) ≤ 2 := by exact_mod_cast hdown
        have := lt_of_mul_lt_mul_right hlow hp.le
        linarith
      have hsmall : 4 * man < 2 ^ 54 + 2 := by exact_mod_cast hnat
      obtain rfl : man = 2 ^ 52 := by
        have hnormal : ¬ man < 2 ^ 52 := fun hm => hexp (hdouble.denormal hm)
        omega
      exact nearestBits_below hdouble hnum hden (by omega) h hlt
  · have hhigh : (num : ℚ) / den < 2 ^ (exp + 53) := by
      have hman : (man : ℚ) ≤ 2 ^ 53 - 1 := by
        have hsmall := hdouble.small
        have hle : (man + 1 : ℚ) ≤ 2 ^ 53 := by exact_mod_cast hsmall
        linarith
      rw [hp53]
      nlinarith [h.high]
    have hscale := scaleOf_eq hnum hden (not_lt.mp hlt) hhigh
    exact nearestBits_of_scale hdouble hden h (by omega)

end Fluxion.Decimal
