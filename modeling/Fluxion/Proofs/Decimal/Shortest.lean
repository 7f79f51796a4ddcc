import Mathlib
import Fluxion.Decimal.Shortest
import Fluxion.Proofs.Decimal.Rounding

/-!
The decimal that is found for a double rounds to it, as every grid that is finer than the double's
unit has such a point.
-/

namespace Fluxion.Decimal

variable {man c : Nat} {exp i : Int}

/-! ### Points of a grid -/

theorem cross_eq (e i : Int) (a : Nat) :
    ((a * (powUp 2 e * powDown 10 i) : Nat) : ℚ) =
      (a * 2 ^ e) * (powDown 2 e * powDown 10 i) := by
  have hpow := powUp_div_powDown (b := 2) (by decide) e
  have hdown : (powDown 2 e : ℚ) ≠ 0 := by exact_mod_cast (powDown_pos (by decide) e).ne'
  rw [div_eq_iff hdown] at hpow
  push_cast at hpow ⊢
  rw [hpow]
  ring

theorem cross_eq' (e i : Int) (c : Nat) :
    ((c * (powUp 10 i * powDown 2 e) : Nat) : ℚ) =
      (c * 10 ^ i) * (powDown 2 e * powDown 10 i) := by
  have hpow := powUp_div_powDown (b := 10) (by decide) i
  have hdown : (powDown 10 i : ℚ) ≠ 0 := by exact_mod_cast (powDown_pos (by decide) i).ne'
  rw [div_eq_iff hdown] at hpow
  push_cast at hpow ⊢
  rw [hpow]
  ring

/-- The test whether a point of the grid stands for the double. -/
def inside (man : Nat) (exp i : Int) (c : Nat) : Bool :=
  let ten := powUp 10 i * powDown 2 (exp - 2)
  let unit := powUp 2 (exp - 2) * powDown 10 i
  let lowest := (4 * man - quartersDown man exp) * unit
  let highest := (4 * man + 2) * unit
  if man % 2 = 0 then lowest ≤ c * ten && c * ten ≤ highest
  else lowest < c * ten && c * ten < highest

/-- The point of the grid at or below the double. -/
def lowPoint (man : Nat) (exp i : Int) : Nat :=
  4 * man * (powUp 2 (exp - 2) * powDown 10 i) / (powUp 10 i * powDown 2 (exp - 2))

theorem gridPoint?_eq (man : Nat) (exp i : Int) : ∃ nearer : Nat,
    (nearer = lowPoint man exp i ∨ nearer = lowPoint man exp i + 1) ∧
    gridPoint? man exp i =
      match inside man exp i (lowPoint man exp i), inside man exp i (lowPoint man exp i + 1) with
      | true, true => some nearer
      | true, false => some (lowPoint man exp i)
      | false, true => some (lowPoint man exp i + 1)
      | false, false => none := by
  refine ⟨_, ?_, rfl⟩
  split
  · exact .inl rfl
  · exact .inr rfl

/-- The point that is found stands for the double. -/
theorem inside_of_gridPoint? (h : gridPoint? man exp i = some c) : inside man exp i c = true := by
  obtain ⟨nearer, hnearer, heq⟩ := gridPoint?_eq man exp i
  rw [heq] at h
  cases hlow : inside man exp i (lowPoint man exp i) <;>
    cases hnext : inside man exp i (lowPoint man exp i + 1) <;> simp only [hlow, hnext] at h
  case false.false => cases h
  case false.true =>
    cases h
    exact hnext
  case true.false =>
    cases h
    exact hlow
  case true.true =>
    cases h
    rcases hnearer with rfl | rfl
    · exact hlow
    · exact hnext

theorem gridPoint?_ne_none (h : inside man exp i (lowPoint man exp i + 1) = true) :
    gridPoint? man exp i ≠ none := by
  obtain ⟨nearer, -, heq⟩ := gridPoint?_eq man exp i
  rw [heq, h]
  cases inside man exp i (lowPoint man exp i) <;> simp

theorem denominator_pos (e i : Int) : (0 : ℚ) < powDown 2 e * powDown 10 i := by
  have h2 : (0 : ℚ) < powDown 2 e := by exact_mod_cast powDown_pos (by decide) e
  have h10 : (0 : ℚ) < powDown 10 i := by exact_mod_cast powDown_pos (by decide) i
  exact mul_pos h2 h10

theorem cross_le {a : Nat} {e : Int} : a * (powUp 2 e * powDown 10 i) ≤ c * (powUp 10 i * powDown 2 e) ↔
    (a : ℚ) * 2 ^ e ≤ c * 10 ^ i := by
  rw [← Nat.cast_le (α := ℚ), cross_eq, cross_eq', mul_le_mul_iff_left₀ (denominator_pos e i)]

theorem cross_le' {a : Nat} {e : Int} : c * (powUp 10 i * powDown 2 e) ≤ a * (powUp 2 e * powDown 10 i) ↔
    (c : ℚ) * 10 ^ i ≤ a * 2 ^ e := by
  rw [← Nat.cast_le (α := ℚ), cross_eq, cross_eq', mul_le_mul_iff_left₀ (denominator_pos e i)]

/-- The test says what it should. -/
theorem inside_iff (hman : 0 < man) : inside man exp i c = true ↔ Rounds man exp (c * 10 ^ i) := by
  have hdown : quartersDown man exp ≤ 4 * man := by
    unfold quartersDown
    split <;> omega
  have hlow := cross_le (a := 4 * man - quartersDown man exp) (c := c) (i := i) (e := exp - 2)
  have hhigh := cross_le' (a := 4 * man + 2) (c := c) (i := i) (e := exp - 2)
  have hlow' := not_congr (cross_le' (a := 4 * man - quartersDown man exp) (c := c) (i := i) (e := exp - 2))
  have hhigh' := not_congr (cross_le (a := 4 * man + 2) (c := c) (i := i) (e := exp - 2))
  push_cast [hdown] at hlow hhigh hlow' hhigh'
  rw [not_le, not_le] at hlow' hhigh'
  unfold inside
  simp only
  rcases Nat.mod_two_eq_zero_or_one man with heven | hodd
  · rw [if_pos heven, Bool.and_eq_true, decide_eq_true_eq, decide_eq_true_eq, hlow, hhigh]
    constructor
    · rintro ⟨h1, h2⟩
      exact ⟨h1, h2, fun h => absurd h (by omega)⟩
    · intro h
      exact ⟨h.low, h.high⟩
  · rw [if_neg (by omega), Bool.and_eq_true, decide_eq_true_eq, decide_eq_true_eq, hlow', hhigh']
    constructor
    · rintro ⟨h1, h2⟩
      exact ⟨h1.le, h2.le, fun _ => ⟨h1, h2⟩⟩
    · intro h
      exact h.odd hodd

/-! ### The search -/

/-- A grid that is finer than half the double's unit has a point that stands for it. -/
theorem gridPoint?_of_fine (hman : 0 < man) (hfine : (10 : ℚ) ^ i < 2 ^ (exp - 1)) :
    gridPoint? man exp i ≠ none := by
  have hten : 0 < powUp 10 i * powDown 2 (exp - 2) :=
    Nat.mul_pos (powUp_pos (by decide) i) (powDown_pos (by decide) _)
  have hbelow := cross_le'.mp (Nat.div_mul_le_self (4 * man * (powUp 2 (exp - 2) * powDown 10 i))
    (powUp 10 i * powDown 2 (exp - 2)))
  have habove := not_congr (cross_le' (a := 4 * man) (c := lowPoint man exp i + 1) (i := i) (e := exp - 2))
  rw [not_le, not_le] at habove
  have hnext := habove.mp (by
    rw [Nat.mul_comm (lowPoint man exp i + 1)]
    exact Nat.lt_mul_div_succ _ hten)
  change ((lowPoint man exp i : Nat) : ℚ) * 10 ^ i ≤ _ at hbelow
  have hhalf : (2 : ℚ) ^ (exp - 1) = 2 * 2 ^ (exp - 2) := by
    rw [show exp - 1 = 1 + (exp - 2) by omega, two_zpow_add]
    norm_num
  have hp := two_zpow_pos (exp - 2)
  have hquarters : (0 : ℚ) ≤ quartersDown man exp := Nat.cast_nonneg _
  push_cast at hbelow hnext
  apply gridPoint?_ne_none
  rw [inside_iff hman]
  push_cast
  have hlow : (4 * man - quartersDown man exp : ℚ) * 2 ^ (exp - 2) < (lowPoint man exp i + 1) * 10 ^ i := by
    nlinarith
  have hhigh : ((lowPoint man exp i : ℚ) + 1) * 10 ^ i < (4 * man + 2) * 2 ^ (exp - 2) := by
    rw [hhalf] at hfine
    linarith
  exact ⟨hlow.le, hhigh.le, fun _ => ⟨hlow, hhigh⟩⟩

theorem gridPoint?_of_searchGrids {steps : Nat} {j : Int} (hfound : searchGrids man exp steps i = (c, j))
    (hfine : ∃ k : Nat, k < steps ∧ gridPoint? man exp (i - k) ≠ none) :
    gridPoint? man exp j = some c := by
  induction steps generalizing i with
  | zero =>
    obtain ⟨k, hk, -⟩ := hfine
    exact absurd hk (Nat.not_lt_zero k)
  | succ steps ih =>
    rw [searchGrids] at hfound
    cases hpoint : gridPoint? man exp i with
    | some c' =>
      simp only [hpoint, Prod.mk.injEq] at hfound
      obtain ⟨rfl, rfl⟩ := hfound
      exact hpoint
    | none =>
      simp only [hpoint] at hfound
      apply ih hfound
      obtain ⟨k, hk, hne⟩ := hfine
      cases k with
      | zero => exact absurd hpoint (by simpa using hne)
      | succ k =>
        refine ⟨k, by omega, ?_⟩
        rwa [show i - 1 - (k : Int) = i - ((k + 1 : Nat) : Int) by omega]

/-- Comparing a power of ten with one of two: three digits are fewer than ten bits, and ten digits more
than thirty-three. -/
theorem ten_zpow_lt_two_zpow {k e : Int} (hpos : 0 ≤ k → 10 * k < 3 * e) (hneg : k < 0 → 33 * k ≤ 10 * e) :
    (10 : ℚ) ^ k < 2 ^ e := by
  rcases lt_or_ge k 0 with hk | hk
  · obtain ⟨n, rfl⟩ : ∃ n : Nat, k = -((n + 1 : Nat) : Int) := ⟨(-k - 1).toNat, by omega⟩
    apply lt_of_pow_lt_pow_left₀ 10 (two_zpow_pos e).le
    calc ((10 : ℚ) ^ (-((n + 1 : Nat) : Int))) ^ 10 = ((10 ^ 10) ^ (n + 1))⁻¹ := by
          rw [zpow_neg, zpow_natCast, inv_pow, ← pow_mul, ← pow_mul, Nat.mul_comm]
      _ < ((2 ^ 33) ^ (n + 1))⁻¹ := by
          apply inv_strictAnti₀ (by positivity)
          exact pow_lt_pow_left₀ (by norm_num) (by norm_num) (by omega)
      _ = 2 ^ (33 * -((n + 1 : Nat) : Int)) := by
          rw [zpow_mul, zpow_neg, zpow_natCast]
          norm_num
      _ ≤ 2 ^ (e * 10) := by
          rw [two_zpow_le]
          have := hneg hk
          omega
      _ = (2 ^ e) ^ 10 := by rw [zpow_mul]; rfl
  · obtain ⟨n, rfl⟩ := Int.eq_ofNat_of_zero_le hk
    apply lt_of_pow_lt_pow_left₀ 3 (two_zpow_pos e).le
    calc ((10 : ℚ) ^ (n : Int)) ^ 3 = (10 ^ 3) ^ n := by
          rw [zpow_natCast, ← pow_mul, ← pow_mul, Nat.mul_comm]
      _ ≤ (2 ^ 10) ^ n := pow_le_pow_left₀ (by norm_num) (by norm_num) n
      _ = 2 ^ (10 * (n : Int)) := by
          rw [zpow_mul, zpow_natCast]
          norm_num
      _ < 2 ^ (e * 3) := by
          rw [two_zpow_lt]
          have := hpos hk
          omega
      _ = (2 ^ e) ^ 3 := by rw [zpow_mul]; rfl

theorem startingGrid_fine (h : IsDouble man exp) (hman : 0 < man) :
    (10 : ℚ) ^ (startingGrid man exp - 21) < 2 ^ (exp - 1) := by
  have hlog : man.log2 ≤ 52 := by
    have := (Nat.log2_lt hman.ne').mpr h.small
    omega
  have hleast := h.least
  have hgreatest := h.greatest
  have hfloor : startingGrid man exp = (exp + man.log2 + 1) * 30103 / 100000 + 1 := by
    rw [startingGrid, Int.fdiv_eq_ediv_of_nonneg _ (by decide)]
  rw [hfloor]
  apply ten_zpow_lt_two_zpow
  · intro hk
    omega
  · intro hk
    omega

/-- The decimal that is found rounds to the double. -/
theorem rounds_shortest (h : IsDouble man exp) (hman : 0 < man) (hfound : shortest man exp = (c, i)) :
    Rounds man exp (c * 10 ^ i) := by
  rw [← inside_iff hman]
  apply inside_of_gridPoint?
  refine gridPoint?_of_searchGrids hfound ⟨21, by decide, ?_⟩
  exact gridPoint?_of_fine hman (startingGrid_fine h hman)

end Fluxion.Decimal
