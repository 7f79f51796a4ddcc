import Fluxion.Eval.Scalar

/-!
Implementations of native functions. Those of the library compute with floats.
-/

namespace Fluxion

/-- A native function: a number from numbers, if there are enough of them. -/
abbrev Native (K : Type) := List K → Option K

/-- Native functions by name; of several entries for a name the first counts. -/
abbrev Natives (K : Type) := List (String × Native K)

namespace Natives

/-- A function of the first argument. -/
def unary {K : Type} (f : K → K) : Native K
  | x :: _ => some (f x)
  | [] => none

/-- A function of the first two arguments. -/
def binary {K : Type} (f : K → K → K) : Native K
  | x :: y :: _ => some (f x y)
  | _ => none

/-- The functions of the library. -/
def standard : Natives Float := [
  ("sin", unary Float.sin),
  ("cos", unary Float.cos),
  ("tan", unary Float.tan),
  ("exp", unary Float.exp),
  ("log", unary Float.log),
  ("sqrt", unary Float.sqrt),
  ("abs", unary Float.abs),
  ("tanh", unary Float.tanh),
  ("sinh", unary Float.sinh),
  ("cosh", unary Float.cosh),
  ("atan", unary Float.atan),
  ("floor", unary Float.floor),
  ("pow", binary Float.pow)]

end Natives

end Fluxion
