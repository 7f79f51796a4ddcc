import Mathlib.Algebra.Field.Basic
import Fluxion.Eval.Native
import Fluxion.Eval.Value

/-!
Exact arithmetic: scalars that form a commutative ring, or a field.
-/

namespace Fluxion

/-- Scalars whose operations are those of a commutative ring. Of the division no more is asked than
what folding zeros and ones takes for granted. -/
class ExactScalar (K : Type) extends Scalar K, CommRing K where
  zero_div : ∀ a : K, 0 / a = 0
  div_one : ∀ a : K, a / 1 = a
  ofFloat_zero : ∀ v : Float, (v == 0.0) = true → ofFloat v = 0
  ofFloat_one : ∀ v : Float, (v == 1.0) = true → ofFloat v = 1
  ofInt_eq : ∀ n : Int64, ofInt n = (n.toInt : K)

/-- Scalars whose operations are those of a field. -/
class ExactField (K : Type) extends ExactScalar K, Field K

end Fluxion
