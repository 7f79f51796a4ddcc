import Fluxion.Decimal.Layout
import Fluxion.Eval.Scalar
import Fluxion.Lang.Ty

/-!
Values that programs compute with, and the arguments that enter and leave a call from outside.
-/

namespace Fluxion

/-- The value of a variable or expression. -/
inductive Value (K : Type) where
  | float (v : K)
  | int (v : Int64)
  | bool (v : Bool)
deriving Repr

namespace Value

variable {K : Type}

/-- The type of a value. -/
def ty : Value K → Ty
  | .float _ => .float
  | .int _ => .int
  | .bool _ => .bool

/-- The integer of an integer value. -/
def int? : Value K → Option Int64
  | .int v => some v
  | _ => none

/-- The truth value of a boolean value. -/
def bool? : Value K → Option Bool
  | .bool v => some v
  | _ => none

variable [Scalar K]

/-- What storage of a type holds at first. -/
def zeroOf? (t : Ty) : Option (Value K) :=
  match t.value with
  | .float => some (.float (Scalar.ofFloat 0.0))
  | .int => some (.int 0)
  | .bool => some (.bool false)
  | _ => none

/-- The number of a value. -/
def number? : Value K → Option K
  | .float v => some v
  | .int v => some (Scalar.ofInt v)
  | .bool _ => none

/-- The value in storage of a type; integers widen to floats. -/
def coerce (t : Ty) (v : Value K) : Value K :=
  match t.value, v with
  | .float, .int n => .float (Scalar.ofInt n)
  | _, v => v

end Value

/-- The value as shown to the user. -/
def Value.text : Value Float → String
  | .float v => Decimal.rounded v
  | .int v => toString v
  | .bool v => toString v

/-- An argument of a call from outside. References and arrays also carry values out. -/
inductive Arg (K : Type) where
  | scalar (v : K)
  | int (v : Int64)
  | bool (v : Bool)
  | ref (v : K)
  | array (values : List K)
deriving Repr

namespace Arg

variable {K : Type}

/-- An array of zeros. -/
def zeros [Scalar K] (len : Nat) : Arg K := .array (List.replicate len (Scalar.ofFloat 0.0))

/-- The number a reference holds. -/
def ref? : Arg K → Option K
  | .ref v => some v
  | _ => none

/-- The elements of an array. -/
def array? : Arg K → Option (List K)
  | .array values => some values
  | _ => none

end Arg

/-- The argument as shown to the user. -/
def Arg.text : Arg Float → String
  | .scalar v | .ref v => Decimal.rounded v
  | .int v => toString v
  | .bool v => toString v
  | .array values => "[" ++ ", ".intercalate (values.map Decimal.rounded) ++ "]"

end Fluxion
