import Mathlib.Algebra.Polynomial.Taylor
import Mathlib.Tactic.FieldSimp
import Mathlib.Tactic.NormNum
import Fluxion.Eval.Stencil
import Fluxion.Proofs.Numbers.Rational

/-!
Numerical derivatives of polynomials in exact arithmetic. Around the point, the stencil sees the
Taylor coefficients of a polynomial of degree six: it finds the first and errs by the fifth alone,
so the error at the doubled step is sixteen times the error at the step.
-/

namespace Fluxion.Estimate

open Polynomial

/-! ### The numbers of the stencil -/

theorem lit_of_unpack {v : Float} {m : Nat} {e : Int} (hm : 0 < m)
    (h : v.toModel.unpack = .finite .positive m e hm) : (lit v : ℚ) = m * 2 ^ e := by
  change rationalOf v.toModel.unpack = _
  rw [h, rationalOf_positive]

theorem lit_two : (lit 2.0 : ℚ) = 2 := by
  rw [lit_of_unpack (m := 2 ^ 52) (e := -51) (by decide) rfl]
  norm_num

theorem lit_four : (lit 4.0 : ℚ) = 4 := by
  rw [lit_of_unpack (m := 2 ^ 52) (e := -50) (by decide) rfl]
  norm_num

theorem lit_eight : (lit 8.0 : ℚ) = 8 := by
  rw [lit_of_unpack (m := 2 ^ 52) (e := -49) (by decide) rfl]
  norm_num

theorem lit_twelve : (lit 12.0 : ℚ) = 12 := by
  rw [lit_of_unpack (m := 3 * 2 ^ 51) (e := -49) (by decide) rfl]
  norm_num

theorem lit_fifteen : (lit 15.0 : ℚ) = 15 := by
  rw [lit_of_unpack (m := 15 * 2 ^ 49) (e := -49) (by decide) rfl]
  norm_num

/-- What the stencil makes of the values around zero: of the coefficients it sees the first, which
is the derivative there, and the fifth. -/
theorem stencil_of_polynomial {q : ℚ[X]} (hq : q.natDegree ≤ 6) {h : ℚ} (hh : h ≠ 0) :
    stencil (q.eval (-(2 * h))) (q.eval (-h)) (q.eval h) (q.eval (2 * h)) h =
      q.coeff 1 - 4 * h ^ 4 * q.coeff 5 := by
  have heval : ∀ t, q.eval t = ∑ k ∈ Finset.range 7, q.coeff k * t ^ k :=
    Polynomial.eval_eq_sum_range' (by omega)
  simp only [stencil, lit_eight, lit_twelve, heval, Finset.sum_range_succ, Finset.sum_range_zero]
  field_simp
  ring

/-- The same for the values around any point. -/
theorem stencil_around {p : ℚ[X]} (hp : p.natDegree ≤ 6) (x : ℚ) {h : ℚ} (hh : h ≠ 0) :
    stencil (p.eval (x - 2 * h)) (p.eval (x - h)) (p.eval (x + h)) (p.eval (x + 2 * h)) h =
      p.derivative.eval x - 4 * h ^ 4 * (taylor x p).coeff 5 := by
  have hq := stencil_of_polynomial (q := taylor x p) (by rwa [natDegree_taylor]) hh
  simp only [taylor_eval, taylor_coeff_one, neg_add_eq_sub] at hq
  rwa [add_comm h, add_comm (2 * h)] at hq

/-- For polynomials of degree six the error of the derivative is the truncation error that is
reported; up to degree four there is none. -/
theorem truncation_is_error {E : Type} {p : ℚ[X]} (hp : p.natDegree ≤ 6) (x : ℚ) {h : ℚ}
    (hh : h ≠ 0) :
    ∃ e : Estimate ℚ, fivePointAt (fun y => (.ok (p.eval y) : Except E ℚ)) x h = .ok e ∧
      e.step = h ∧ |e.derivative - p.derivative.eval x| = e.truncation ∧
      (p.natDegree ≤ 4 → e.derivative = p.derivative.eval x ∧ e.truncation = 0) := by
  have hfine := stencil_around hp x hh
  have hcoarse := stencil_around hp x (mul_ne_zero two_ne_zero hh)
  have hfour : 2 * (2 * h) = 4 * h := by ring
  rw [hfour] at hcoarse
  refine ⟨_, rfl, rfl, ?_, fun hlow => ?_⟩
  · set c := (taylor x p).coeff 5
    have hdiff : (p.derivative.eval x - 4 * h ^ 4 * c) - (p.derivative.eval x - 4 * (2 * h) ^ 4 * c) =
        -15 * (p.derivative.eval x - 4 * h ^ 4 * c - p.derivative.eval x) := by ring
    simp only [lit_two, lit_four, lit_fifteen, hfine, hcoarse, hdiff]
    change _ = |_| / 15
    rw [abs_mul]
    norm_num
  · have hfive : (taylor x p).coeff 5 = 0 :=
      coeff_eq_zero_of_natDegree_lt (by rw [natDegree_taylor]; omega)
    simp only [lit_two, lit_four, lit_fifteen, hfine, hcoarse, hfive, mul_zero, sub_zero, sub_self]
    exact ⟨trivial, by change |(0 : ℚ)| / 15 = 0; simp⟩

/-- The sixth power at one with step one half: the derivative is six, the estimate six less three
halves, and that is what is reported. -/
theorem truncation_is_error_sixth :
    ∃ e : Estimate ℚ,
      fivePointAt (fun y => (.ok ((X ^ 6 : ℚ[X]).eval y) : Except Unit ℚ)) 1 (1 / 2) = .ok e ∧
      e.step = 1 / 2 ∧ |e.derivative - (X ^ 6 : ℚ[X]).derivative.eval 1| = e.truncation :=
  have ⟨e, hrun, hstep, herror, _⟩ :=
    truncation_is_error (E := Unit) (natDegree_X_pow 6).le 1 (h := 1 / 2) (by norm_num)
  ⟨e, hrun, hstep, herror⟩

end Fluxion.Estimate
