/-!
Types of the language: three scalar types, `void`, references to scalars passed in and out, arrays
whose length may be part of the type, and tapes, the stacks that derived code keeps values on.
-/

namespace Fluxion

/-- A type of the language. -/
inductive Ty where
  | float
  | int
  | bool
  | void
  | ref (inner : Ty)
  | array (elem : Ty) (len : Option Nat)
  | tape (elem : Ty)
deriving DecidableEq, Repr, Inhabited

namespace Ty

/-- An array type that says nothing about the length. -/
def arrayOf (elem : Ty) : Ty := .array elem none

/-- Values of the type carry a derivative. -/
def isDifferentiable : Ty → Bool
  | .float => true
  | .ref t => t.isDifferentiable
  | .array t _ => t.isDifferentiable
  | .tape t => t.isDifferentiable
  | _ => false

/-- A type of single values. -/
def isScalar : Ty → Bool
  | .float | .int | .bool => true
  | _ => false

/-- A type of numbers. -/
def isNumeric : Ty → Bool
  | .float | .int => true
  | _ => false

/-- An array type. -/
def isArray : Ty → Bool
  | .array _ _ => true
  | _ => false

/-- A reference type. -/
def isRef : Ty → Bool
  | .ref _ => true
  | _ => false

/-- A parameter of the type gives access to the caller's storage. -/
def isShared : Ty → Bool
  | .ref _ | .array _ _ => true
  | _ => false

/-- The type without one level of reference. -/
def value : Ty → Ty
  | .ref t => t
  | t => t

/-- What an array or a tape holds. -/
def element? : Ty → Option Ty
  | .array t _ => some t
  | .tape t => some t
  | _ => none

/-- The type with all array lengths forgotten; two types match when these are equal. -/
def erased : Ty → Ty
  | .array t _ => .array t.erased none
  | .ref t => .ref t.erased
  | .tape t => .tape t.erased
  | t => t

/-- The tangent that forward mode carries beside a parameter of the type. -/
def tangent? (t : Ty) : Option Ty :=
  if t.isDifferentiable then
    match t with
    | .float => some .float
    | .ref _ => some (.ref .float)
    | .array _ _ => some (arrayOf .float)
    | _ => none
  else none

/-- The adjoint that reverse mode adds to for a parameter of the type. -/
def adjoint? (t : Ty) : Option Ty :=
  if t.isDifferentiable then
    match t with
    | .float | .ref _ => some (.ref .float)
    | .array _ _ => some (arrayOf .float)
    | _ => none
  else none

/-- The type as source text. -/
def text : Ty → String
  | .float => "f64"
  | .int => "i64"
  | .bool => "bool"
  | .void => "void"
  | .ref t => "&" ++ t.text
  | .array t (some n) => "[" ++ t.text ++ "; " ++ toString n ++ "]"
  | .array t none => "[" ++ t.text ++ "]"
  | .tape t => "tape<" ++ t.text ++ ">"

theorem erased_erased (t : Ty) : t.erased.erased = t.erased := by
  induction t with
  | float | int | bool | void => rfl
  | ref t ih => simp [erased, ih]
  | array t len ih => simp [erased, ih]
  | tape t ih => simp [erased, ih]

/-- Forgetting lengths keeps what is differentiable. -/
theorem isDifferentiable_erased (t : Ty) : t.erased.isDifferentiable = t.isDifferentiable := by
  induction t with
  | float | int | bool | void => rfl
  | ref t ih => simp [erased, isDifferentiable, ih]
  | array t len ih => simp [erased, isDifferentiable, ih]
  | tape t ih => simp [erased, isDifferentiable, ih]

end Ty

/-- Type texts separated by commas, as in argument lists. -/
def tyList (types : List Ty) : String := ", ".intercalate (types.map Ty.text)

end Fluxion
