import Fluxion.Eval.Scalar

/-!
Numerical derivatives from five points, with bounds for their errors. The truncation error is
estimated by comparison with the same formula at twice the step.
-/

namespace Fluxion

/-- A numerical derivative. -/
structure Estimate (K : Type) where
  derivative : K
  step : K
  truncation : K
  rounding : K
deriving Repr

namespace Estimate

variable {K : Type} [Scalar K]

/-- The bound for the whole error. -/
def error (e : Estimate K) : K := e.truncation + e.rounding

/-- A small number. -/
def lit (x : Float) : K := Scalar.ofFloat x

/-- The derivative from values at two steps before, one before, one after and two after. -/
def stencil (m2 m1 p1 p2 h : K) : K :=
  (m2 - lit 8.0 * m1 + lit 8.0 * p1 - p2) / (lit 12.0 * h)

/-- The derivative of `f` at `x` from points at distance `h`. -/
def fivePointAt {m : Type → Type} [Monad m] (f : K → m K) (x h : K) : m (Estimate K) := do
  let m2 ← f (x - lit 2.0 * h)
  let m1 ← f (x - h)
  let p1 ← f (x + h)
  let p2 ← f (x + lit 2.0 * h)
  let m4 ← f (x - lit 4.0 * h)
  let p4 ← f (x + lit 4.0 * h)
  let derivative := stencil m2 m1 p1 p2 h
  let coarse := stencil m4 m2 p2 p4 (lit 2.0 * h)
  let magnitude :=
    Scalar.abs m2 + lit 8.0 * Scalar.abs m1 + lit 8.0 * Scalar.abs p1 + Scalar.abs p2
  return {
    derivative
    step := h
    truncation := Scalar.abs (derivative - coarse) / lit 15.0
    rounding := Scalar.epsilon * magnitude / (lit 12.0 * h) }

/-- The derivative of `f` at `x`. -/
def fivePoint {m : Type → Type} [Monad m] (f : K → m K) (x : K) : m (Estimate K) :=
  fivePointAt f x (Scalar.stepSize x)

/-- The derivative of `f` at a point along coordinate `k`. -/
def partialAt {m : Type → Type} [Monad m] (f : List K → m K) (point : List K) (k : Nat) (x : K) :
    m (Estimate K) :=
  fivePoint (fun xk => f (point.set k xk)) x

/-- The derivatives along the coordinates from `k` on, which have the given values. -/
def gradientFrom {m : Type → Type} [Monad m] (f : List K → m K) (point : List K) (k : Nat) :
    List K → m (List (Estimate K))
  | [] => return []
  | x :: rest => do
    let e ← partialAt f point k x
    let es ← gradientFrom f point (k + 1) rest
    return e :: es

/-- The derivatives of `f` at a point along every coordinate. -/
def gradient {m : Type → Type} [Monad m] (f : List K → m K) (point : List K) :
    m (List (Estimate K)) :=
  gradientFrom f point 0 point

end Estimate

end Fluxion
