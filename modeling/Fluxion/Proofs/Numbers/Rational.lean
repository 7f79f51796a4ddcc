import Mathlib.Algebra.Field.Rat
import Mathlib.Algebra.Order.Ring.Rat
import Mathlib.Tactic.NormNum
import Fluxion.Proofs.Numbers.Exact

/-!
The rational numbers as exact scalars. A float literal means the rational number that it is.
-/

namespace Fluxion

open Float.Model (UnpackedFloat)

/-- The sign of a float as a factor. -/
def signFactor : UnpackedFloat.Sign → ℚ
  | .positive => 1
  | .negative => -1

/-- The rational number that a float is; infinity and what is no number count as zero. -/
def rationalOf : UnpackedFloat → ℚ
  | .finite s m e _ => signFactor s * m * 2 ^ e
  | _ => 0

theorem rationalOf_positive {m : Nat} (e : Int) (hm : 0 < m) :
    rationalOf (.finite .positive m e hm) = m * 2 ^ e :=
  congrArg (· * (2 : ℚ) ^ e) (one_mul (m : ℚ))

theorem rationalOf_of_beq_zero {a b : UnpackedFloat} {s : UnpackedFloat.Sign} (hb : b = .zero s)
    (h : a.beq b = true) : rationalOf a = 0 := by
  subst hb
  rcases a with (_ | _) | _ | _ | ⟨(_ | _), _, _, _⟩ <;> first | rfl | cases h

theorem rationalOf_of_beq_finite {a b : UnpackedFloat} {m : Nat} {e : Int} {hm : 0 < m}
    (hb : b = .finite .positive m e hm) (h : a.beq b = true) : rationalOf a = m * 2 ^ e := by
  subst hb
  rcases a with (_ | _) | _ | _ | ⟨(_ | _), m', e', _⟩ <;> try cases h
  have heq : (compare e' e).then (compare m' m) = .eq := by
    change (some ((compare e' e).then (compare m' m)) == some .eq) = true at h
    simpa using h
  obtain ⟨he, hm⟩ := Ordering.then_eq_eq.mp heq
  obtain rfl := compare_eq_iff_eq.mp he
  obtain rfl := compare_eq_iff_eq.mp hm
  exact rationalOf_positive _ _

theorem zero_unpack : (0.0 : Float).toModel.unpack = .zero .positive := rfl

theorem one_unpack :
    (1.0 : Float).toModel.unpack = .finite .positive (2 ^ 52) (-52) (by decide) := rfl

instance : ExactField ℚ where
  ofFloat v := rationalOf v.toModel.unpack
  ofInt n := n.toInt
  toInt? q := if q.isInt then some (Int64.ofInt q.num) else none
  nan := 0
  lt a b := a < b
  le a b := a ≤ b
  eq a b := a = b
  abs := abs
  epsilon := 0
  stepSize _ := 1
  zero_div := zero_div
  div_one := div_one
  ofFloat_zero v h := rationalOf_of_beq_zero zero_unpack h
  ofFloat_one v h := by
    rw [rationalOf_of_beq_finite one_unpack h]
    norm_num
  ofInt_eq n := rfl

end Fluxion
