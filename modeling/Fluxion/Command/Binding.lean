import Fluxion.Eval.Value
import Fluxion.Listing.Literals
import Fluxion.Request.Request

/-!
Arguments of a derived function from the literals of a command line: one for each parameter of the
function that was differentiated, and then zeros for the derivatives to go to.
-/

namespace Fluxion.Command

open Listing (Literal)
open Request (Independent)

/-- Why literals do not fit a function. -/
inductive BindingError where
  | arity (f : String) (expected got : Nat)
  | number (param : String) (got : Literal)
  | kind (param : String) (ty : Ty) (got : Literal)
deriving Repr

/-- The message of a failure. -/
def BindingError.message : BindingError → String
  | .arity f expected got =>
    "`" ++ f ++ "` takes " ++ toString expected ++ " arguments, got " ++ toString got
  | .number param got => "argument `" ++ param ++ "` expects a number, got " ++ got.text
  | .kind param ty got =>
    "argument `" ++ param ++ "` of type " ++ ty.text ++ " cannot take " ++ got.text

/-- The number of a literal. -/
def numberFor (p : Param) (l : Literal) : Except BindingError Float :=
  match l.toFloat? with
  | some v => .ok v
  | none => .error (.number p.name l)

/-- The argument for a parameter. -/
def argFor (p : Param) (l : Literal) : Except BindingError (Arg Float) :=
  match p.ty, l with
  | .int, .int v => .ok (.int v)
  | .bool, .bool v => .ok (.bool v)
  | .float, l => (numberFor p l).map .scalar
  | .ref _, l => (numberFor p l).map .ref
  | .array _ _, .array vs => .ok (.array vs)
  | ty, l => .error (.kind p.name ty l)

/-- The arguments for parameters. -/
def argsFor : List Param → List Literal → Except BindingError (List (Arg Float))
  | p :: ps, l :: ls => do
    let arg ← argFor p l
    return arg :: (← argsFor ps ls)
  | _, _ => .ok []

/-- The length of the array at a position. -/
def lengthAt (args : List (Arg Float)) (i : Nat) : Nat :=
  ((args[i]?.bind Arg.array?).map List.length).getD 0

/-- Where the derivative by an independent variable goes: an array for the elements of an array,
and a reference otherwise. -/
def adjointFor (f : Func) (args : List (Arg Float)) (v : Independent) : Arg Float :=
  if Request.isArrayAt f v.param then .zeros (v.count?.getD (lengthAt args v.param))
  else .ref 0.0

/-- Where the derivatives of a request go. -/
def outputsFor (h : Host) (r : Request) (args : List (Arg Float)) : List (Arg Float) :=
  let scalars := (r.scalarCount.toOption.bind id).getD 0
  match r.mode with
  | .forward => []
  | .reverse => r.independents.map (adjointFor r.target args)
  | .errorEstimate => r.independents.map (adjointFor r.target args) ++ [.ref 0.0]
  | .hessian => [.zeros (scalars * scalars)]
  | .jacobian =>
    ((Request.outputArrays h r.target).filter fun o =>
      r.independents.all fun v => v.param != o).map fun o => .zeros (lengthAt args o * scalars)

/-- The arguments of the function that is derived for a request. -/
def bindLiterals (h : Host) (r : Request) (ls : List Literal) :
    Except BindingError (List (Arg Float)) := do
  if ls.length ≠ r.target.params.length then
    throw (.arity r.target.name r.target.params.length ls.length)
  let args ← argsFor r.target.params ls
  return args ++ outputsFor h r args

end Fluxion.Command
