/-!
The numbers that `f64` stands for. Programs run on `Float`; the same evaluator runs on any numbers
with these operations, of which no laws are asked.
-/

namespace Fluxion

/-- Numbers a program can compute with. -/
class Scalar (K : Type) extends Add K, Sub K, Mul K, Div K, Neg K where
  /-- The number a float literal means. -/
  ofFloat : Float → K
  /-- The number an integer widens to. -/
  ofInt : Int64 → K
  /-- The integer that a whole number stands for. -/
  toInt? : K → Option Int64
  /-- What is read from storage that holds no number. -/
  nan : K
  lt : K → K → Bool
  le : K → K → Bool
  eq : K → K → Bool
  abs : K → K
  /-- The distance between one and the next number. -/
  epsilon : K
  /-- The distance of the points at which a slope is measured around a number. -/
  stepSize : K → K

/-- The distance between one and the next float. -/
def floatEpsilon : Float := 2.220446049250313e-16

/-- The step around `x`: relative to `x` beyond one, and such that `x` plus the step is exact. -/
def floatStepSize (x : Float) : Float :=
  let magnitude := if x.abs > 1.0 then x.abs else 1.0
  let h := floatEpsilon.pow 0.2 * magnitude
  let snapped := (x + h) - x
  if snapped > 0.0 then snapped else h

/-- The integer of a whole float; beyond the integers it is the nearest one. -/
def floatToInt? (x : Float) : Option Int64 :=
  if x - x.floor == 0.0 then some x.toInt64 else none

instance : Scalar Float where
  ofFloat x := x
  ofInt n := n.toFloat
  toInt? := floatToInt?
  nan := 0.0 / 0.0
  lt a b := a < b
  le a b := a ≤ b
  eq a b := a == b
  abs := Float.abs
  epsilon := floatEpsilon
  stepSize := floatStepSize

end Fluxion
