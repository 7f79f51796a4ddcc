import Mathlib
import Fluxion.Proofs.Decimal.Digits
import Fluxion.Proofs.Decimal.Shortest

/-!
A literal reads back as the double that it was written for.
-/

namespace Fluxion.Decimal

variable {man c : Nat} {exp i : Int} {x : ℚ}

/-! ### Reading -/

theorem lt_pow_length_toDigits (n : Nat) : n < 10 ^ (Nat.toDigits 10 n).length := by
  induction n using Nat.strong_induction_on with
  | _ n ih =>
    rw [Nat.toDigits_eq_if (by decide)]
    by_cases hn : n < 10
    · simp [hn]
    · have hless := ih (n / 10) (by omega)
      rw [if_neg hn, List.length_append, List.length_singleton, Nat.pow_succ]
      omega

theorem length_toString (n : Nat) : (toString n).length = (Nat.toDigits 10 n).length := by
  rw [← String.length_toList, toList_toString_nat]

/-- What rounds to a positive double lies in the range of doubles. -/
theorem Rounds.bounds (h : Rounds man exp x) (hdouble : IsDouble man exp) (hman : 0 < man) :
    (2 : ℚ) ^ (-1075 : Int) ≤ x ∧ x < 2 ^ (1024 : Int) := by
  have hdown : (quartersDown man exp : ℚ) ≤ 2 := by
    unfold quartersDown
    split <;> norm_num
  have hone : (1 : ℚ) ≤ man := by exact_mod_cast hman
  have hsmall : (man + 1 : ℚ) ≤ 2 ^ 53 := by exact_mod_cast hdouble.small
  have hp := two_zpow_pos (exp - 2)
  have hleast : (2 : ℚ) ^ (-1076 : Int) ≤ 2 ^ (exp - 2) := two_zpow_le.mpr (by have := hdouble.least; omega)
  have hmost : (2 : ℚ) ^ (exp - 2) ≤ 2 ^ (969 : Int) := two_zpow_le.mpr (by have := hdouble.greatest; omega)
  constructor
  · calc (2 : ℚ) ^ (-1075 : Int) = 2 * 2 ^ (-1076 : Int) := by
          rw [show (-1075 : Int) = 1 + -1076 by rfl, two_zpow_add]
          rfl
      _ ≤ 2 * 2 ^ (exp - 2) := by linarith
      _ ≤ (4 * man - quartersDown man exp) * 2 ^ (exp - 2) :=
          mul_le_mul_of_nonneg_right (by linarith) hp.le
      _ ≤ x := h.low
  · calc x ≤ (4 * man + 2) * 2 ^ (exp - 2) := h.high
      _ < 2 ^ 55 * 2 ^ (exp - 2) := mul_lt_mul_of_pos_right (by linarith) hp
      _ ≤ 2 ^ 55 * 2 ^ (969 : Int) := by linarith
      _ = 2 ^ (1024 : Int) := by
          rw [show (1024 : Int) = 55 + 969 by rfl, two_zpow_add]
          rfl

theorem Rounds.pos (h : Rounds man exp (c * 10 ^ i)) (hdouble : IsDouble man exp) (hman : 0 < man) :
    0 < c := by
  have hlow := (h.bounds hdouble hman).1
  rcases Nat.eq_zero_or_pos c with rfl | hc
  · rw [Nat.cast_zero, zero_mul] at hlow
    exact absurd hlow (not_le.mpr (two_zpow_pos _))
  · exact hc

/-- A decimal that rounds to a double is read as that double. -/
theorem nearest_of_rounds (hdouble : IsDouble man exp) (hman : 0 < man)
    (h : Rounds man exp (c * 10 ^ i)) :
    nearest false c i = ofMagnitude false (magnitudeBits man exp) := by
  obtain ⟨hlow, hhigh⟩ := h.bounds hdouble hman
  have hten : (0 : ℚ) < 10 ^ i := zpow_pos (by norm_num) i
  have hc := h.pos hdouble hman
  have hsmall : ¬ i + (toString c).length < -400 := by
    intro hlt
    have hdigits : (c : ℚ) < 10 ^ ((toString c).length : Int) := by
      rw [length_toString, zpow_natCast]
      exact_mod_cast lt_pow_length_toDigits c
    have hx : (c : ℚ) * 10 ^ i < 2 ^ (-1075 : Int) := by
      calc (c : ℚ) * 10 ^ i < 10 ^ ((toString c).length : Int) * 10 ^ i :=
            mul_lt_mul_of_pos_right hdigits hten
        _ = 10 ^ (i + (toString c).length) := by
            rw [← zpow_add₀ (by norm_num), Int.add_comm]
        _ < 2 ^ (-1075 : Int) := ten_zpow_lt_two_zpow (by omega) (by omega)
    linarith
  have hlarge : ¬ i > 400 := by
    intro hgt
    have hone : (1 : ℚ) ≤ c := by exact_mod_cast hc
    have hx : (2 : ℚ) ^ (1024 : Int) ≤ c * 10 ^ i := by
      calc (2 : ℚ) ^ (1024 : Int) ≤ 2 ^ (3 * 401 : Int) := two_zpow_le.mpr (by decide)
        _ = 8 ^ (401 : Int) := by
            rw [zpow_mul]
            congr 1
        _ ≤ 10 ^ (401 : Int) := zpow_le_zpow_left₀ (by decide) (by norm_num) (by norm_num)
        _ ≤ 10 ^ i := zpow_le_zpow_right₀ (by norm_num) (by omega)
        _ ≤ c * 10 ^ i := by nlinarith
    linarith
  have hvalue : ((c * powUp 10 i : Nat) : ℚ) / (powDown 10 i : Nat) = c * 10 ^ i := by
    have hpow := powUp_div_powDown (b := 10) (by decide) i
    push_cast at hpow ⊢
    rw [mul_div_assoc, hpow]
  have hguard : (decide (c = 0) || decide (i + ((toString c).length : Int) < -400)) = false := by
    simp only [Bool.or_eq_false_iff, decide_eq_false_iff_not]
    exact ⟨by omega, hsmall⟩
  rw [nearest, hguard, if_neg Bool.false_ne_true, if_neg hlarge, nearestBits_of_rounds hdouble
    (Nat.mul_pos hc (powUp_pos (by decide) i)) (powDown_pos (by decide) i) (hvalue ▸ h)]

/-! ### Texts -/

/-- A text writes the number `c * 10 ^ i`. -/
def Writes (text : List Char) (c : Nat) (i : Int) : Prop :=
  ∃ w, Spells text w ∧
    (digitsValue (w.whole ++ w.frac) : ℚ) * 10 ^ (w.exponent - w.frac.length) = c * 10 ^ i

theorem isWhole_take {n k : Nat} (hn : 0 < n) (hk : 0 < k) :
    isWhole ((Nat.toDigits 10 n).take k) = true := by
  obtain ⟨d, ds, hds, h0⟩ := exists_cons_toDigits hn
  have hall := areDigits_toDigits n
  obtain ⟨k, rfl⟩ : ∃ j, k = j + 1 := ⟨k - 1, by omega⟩
  rw [hds] at hall ⊢
  simp only [areDigits, List.all_cons, Bool.and_eq_true, List.all_eq_true] at hall
  rw [List.take_succ_cons, isWhole, if_neg h0, hall.1, Bool.true_and]
  exact List.all_eq_true.mpr fun x hx => hall.2 x (List.mem_of_mem_take hx)

theorem areDigits_drop (n k : Nat) : areDigits ((Nat.toDigits 10 n).drop k) = true :=
  List.all_eq_true.mpr fun x hx => List.all_eq_true.mp (areDigits_toDigits n) x (List.mem_of_mem_drop hx)

theorem fractionText_of_ne {ds : List Char} (h : ds ≠ []) : fractionText ds = '.' :: ds := by
  obtain ⟨d, ds, rfl⟩ := List.exists_cons_of_ne_nil h
  rfl

theorem writes_whole (hc : 0 < c) (n : Nat) :
    Writes (Nat.toDigits 10 c ++ List.replicate n '0' ++ ['.', '0']) c n := by
  have hvalue : digitsValue (Nat.toDigits 10 c ++ List.replicate n '0' ++ ['0']) = c * 10 ^ (n + 1) := by
    rw [List.append_assoc, show List.replicate n '0' ++ ['0'] = List.replicate (n + 1) '0' from
      List.replicate_succ'.symm, digitsValue_append_zeros, digitsValue_toDigits]
  refine ⟨⟨Nat.toDigits 10 c ++ List.replicate n '0', ['0'], 0⟩, ⟨?_, rfl, [], .missing, rfl, .inl (by simp)⟩, ?_⟩
  · exact isWhole_toDigits_append hc (areDigits_zeros n)
  · simp only [hvalue, List.length_singleton]
    push_cast
    rw [pow_succ, zpow_natCast, zpow_neg_one]
    ring

theorem writes_fraction (hc : 0 < c) (n : Nat) (hi : (Nat.toDigits 10 c).length + i = -(n : Int)) :
    Writes ('0' :: '.' :: (List.replicate n '0' ++ Nat.toDigits 10 c)) c i := by
  obtain ⟨d, ds, hds, -⟩ := exists_cons_toDigits hc
  have hne : List.replicate n '0' ++ Nat.toDigits 10 c ≠ [] := by simp [hds]
  have hvalue : digitsValue (['0'] ++ (List.replicate n '0' ++ Nat.toDigits 10 c)) = c := by
    rw [← List.append_assoc, show ['0'] ++ List.replicate n '0' = List.replicate (n + 1) '0' from rfl,
      digitsValue_zeros_append, digitsValue_toDigits]
  refine ⟨⟨['0'], List.replicate n '0' ++ Nat.toDigits 10 c, 0⟩,
    ⟨rfl, areDigits_append.mpr ⟨areDigits_zeros n, areDigits_toDigits c⟩, [], .missing, ?_, .inl hne⟩, ?_⟩
  · rw [List.append_nil, fractionText_of_ne hne]
    rfl
  · simp only [hvalue, List.length_append, List.length_replicate]
    congr 2
    omega

theorem writes_point (hc : 0 < c) {k : Nat} (hk : 0 < k) (hlt : k < (Nat.toDigits 10 c).length)
    (hi : (Nat.toDigits 10 c).length + i = k) :
    Writes ((Nat.toDigits 10 c).take k ++ '.' :: (Nat.toDigits 10 c).drop k) c i := by
  have hne : (Nat.toDigits 10 c).drop k ≠ [] := by
    rw [Ne, List.drop_eq_nil_iff]
    omega
  refine ⟨⟨(Nat.toDigits 10 c).take k, (Nat.toDigits 10 c).drop k, 0⟩,
    ⟨isWhole_take hc hk, areDigits_drop c k, [], .missing, ?_, .inl hne⟩, ?_⟩
  · rw [List.append_nil, fractionText_of_ne hne]
  · simp only [List.take_append_drop, digitsValue_toDigits, List.length_drop]
    congr 2
    omega

theorem writes_power (hc : 0 < c) {power : List Char} {e : Int} (hpower : PowerText power e)
    (hsome : power ≠ []) (he : (Nat.toDigits 10 c).length + i - 1 = e) :
    Writes ((Nat.toDigits 10 c).take 1 ++ (fractionText ((Nat.toDigits 10 c).drop 1) ++ power)) c i := by
  obtain ⟨d, ds, hds, -⟩ := exists_cons_toDigits hc
  have hlen : 0 < (Nat.toDigits 10 c).length := by simp [hds]
  refine ⟨⟨(Nat.toDigits 10 c).take 1, (Nat.toDigits 10 c).drop 1, e⟩,
    ⟨isWhole_take hc (by decide), areDigits_drop c 1, power, hpower, rfl, .inr hsome⟩, ?_⟩
  simp only [List.take_append_drop, digitsValue_toDigits, List.length_drop]
  congr 2
  omega

/-! ### Layouts -/

theorem toList_zeros (n : Nat) : (zeros n).toList = List.replicate n '0' := by
  rw [zeros, toList_pushn]
  rfl

theorem writes_positionalText (hc : 0 < c) : Writes (positionalText ".0" (toString c) i).toList c i := by
  rw [positionalText, length_toString]
  by_cases hi : i ≥ 0
  · have htext : (toString c ++ zeros i.toNat ++ ".0").toList =
        Nat.toDigits 10 c ++ List.replicate i.toNat '0' ++ ['.', '0'] := by
      simp [toList_zeros]
    have hwrites := writes_whole hc i.toNat
    rw [Int.toNat_of_nonneg hi] at hwrites
    rw [if_pos hi, htext]
    exact hwrites
  · rw [if_neg hi]
    by_cases hpoint : ((Nat.toDigits 10 c).length : Int) + i ≤ 0
    · have htext : ("0." ++ zeros (-(((Nat.toDigits 10 c).length : Int) + i)).toNat ++ toString c).toList =
          '0' :: '.' :: (List.replicate (-(((Nat.toDigits 10 c).length : Int) + i)).toNat '0' ++
            Nat.toDigits 10 c) := by
        simp [toList_zeros]
      rw [if_pos hpoint, htext]
      exact writes_fraction hc _ (by omega)
    · have htext : ((splitDigits (toString c) (((Nat.toDigits 10 c).length : Int) + i).toNat).1 ++ "." ++
          (splitDigits (toString c) (((Nat.toDigits 10 c).length : Int) + i).toNat).2).toList =
          (Nat.toDigits 10 c).take (((Nat.toDigits 10 c).length : Int) + i).toNat ++
            '.' :: (Nat.toDigits 10 c).drop (((Nat.toDigits 10 c).length : Int) + i).toNat := by
        simp [splitDigits]
      rw [if_neg hpoint]
      change Writes ((splitDigits _ _).1 ++ "." ++ (splitDigits _ _).2).toList c i
      rw [htext]
      exact writes_point hc (by omega) (by omega) (by omega)

/-- The power of ten as it is written. -/
theorem powerText_natAbs (e : Int) : PowerText
    ('e' :: (if e < 0 then "-" ++ toString e.natAbs else toString e.natAbs).toList) e := by
  obtain ⟨d, ds, hds, -⟩ : ∃ d ds, Nat.toDigits 10 e.natAbs = d :: ds ∧ True := by
    have := exists_cons_of_isWhole (isWhole_toDigits e.natAbs)
    obtain ⟨d, ds, h, -⟩ := this
    exact ⟨d, ds, h, trivial⟩
  have hne : Nat.toDigits 10 e.natAbs ≠ [] := by simp [hds]
  by_cases he : e < 0
  · have htext : (if e < 0 then "-" ++ toString e.natAbs else toString e.natAbs).toList =
        '-' :: Nat.toDigits 10 e.natAbs := by
      rw [if_pos he]
      simp
    have hpower := PowerText.negative hne (areDigits_toDigits e.natAbs)
    rw [digitsValue_toDigits, show (-(e.natAbs : Int)) = e by omega] at hpower
    rwa [htext]
  · have htext : (if e < 0 then "-" ++ toString e.natAbs else toString e.natAbs).toList =
        Nat.toDigits 10 e.natAbs := by
      rw [if_neg he]
      exact toList_toString_nat _
    have hpower := PowerText.positive hne (areDigits_toDigits e.natAbs)
    rw [digitsValue_toDigits, show (e.natAbs : Int) = e by omega] at hpower
    rwa [htext]

theorem writes_scientificText (hc : 0 < c) {e : Int} (he : (Nat.toDigits 10 c).length + i - 1 = e) :
    Writes (scientificText (toString c) e).toList c i := by
  have htext : (scientificText (toString c) e).toList = (Nat.toDigits 10 c).take 1 ++
      (fractionText ((Nat.toDigits 10 c).drop 1) ++
        'e' :: (if e < 0 then "-" ++ toString e.natAbs else toString e.natAbs).toList) := by
    have hback : String.ofList ((Nat.toDigits 10 c).drop 1) = "" ↔ (Nat.toDigits 10 c).drop 1 = [] := by
      rw [← String.toList_inj, String.toList_ofList]
      rfl
    rw [scientificText, splitDigits, toList_toString_nat]
    by_cases hnil : (Nat.toDigits 10 c).drop 1 = []
    · simp only [hnil, if_true, fractionText]
      simp
    · simp only [hback, hnil, if_false, fractionText_of_ne hnil]
      simp
  rw [htext]
  exact writes_power hc (powerText_natAbs e) (by simp) he

/-- The literal for a positive double writes the decimal that was found for it. -/
theorem writes_magnitudeText (hman : man ≠ 0) (hfound : shortest man exp = (c, i)) (hc : 0 < c) :
    Writes (magnitudeText .literal man exp).toList c i := by
  rw [magnitudeText, if_neg hman, hfound]
  change Writes (if Layout.literal.positional (((toString c).length : Int) + i - 1)
    then positionalText ".0" (toString c) i
    else scientificText (toString c) (((toString c).length : Int) + i - 1)).toList c i
  split
  · exact writes_positionalText hc
  · exact writes_scientificText hc (by rw [length_toString])

/-- The literal for a finite double without a sign reads back as the double. -/
theorem readsBack_ofMagnitude {m : Nat} (h : m < 2047 * 2 ^ 52) : ReadsBack (ofMagnitude false m) := by
  obtain ⟨man, exp, hdouble, hbits, hread⟩ := ofFloat_ofMagnitude h
  refine ⟨by simp [isNegative, hread], ?_⟩
  have htext : render .literal (ofMagnitude false m) = magnitudeText .literal man exp := by
    simp [render, hread]
  rw [htext]
  by_cases hman : man = 0
  · have hzero : m = 0 := by rw [← hbits, hman, magnitudeBits, if_pos (by decide)]
    refine ⟨⟨['0'], ['0'], 0⟩, ⟨rfl, rfl, [], .missing, ?_, .inl (by simp)⟩, ?_⟩
    · rw [magnitudeText, if_pos hman]
      rfl
    · rw [hzero]
      rfl
  · obtain ⟨c, i, hfound⟩ : ∃ c i, shortest man exp = (c, i) := ⟨_, _, rfl⟩
    have hrounds := rounds_shortest hdouble (by omega) hfound
    have hc := hrounds.pos hdouble (by omega)
    obtain ⟨w, hspells, hvalue⟩ := writes_magnitudeText hman hfound hc
    refine ⟨w, hspells, ?_⟩
    rw [← hvalue] at hrounds
    rw [Written.toFloat, nearest_of_rounds hdouble (by omega) hrounds, hbits]

end Fluxion.Decimal
