import Fluxion.Eval.Operator
import Fluxion.Eval.Stencil
import Fluxion.Eval.Store
import Fluxion.Typing.Intrinsic
import Fluxion.Typing.Overload

/-!
Evaluation of expressions. How a function is called is a parameter, so that evaluation follows the
expression alone.
-/

namespace Fluxion

/-- What expressions are evaluated in: the functions there are, and how one of them is called. -/
structure Context (K : Type) where
  funcs : Program
  call : Func → List (Bound K) → Exec K (Option (Value K))

namespace Eval

variable {K : Type}

open Exec

/-- What a variable stands for. -/
def lookup (env : Env) (x : String) : Exec K Binding := require (.unbound x) (env.lookup x)

/-- An operand that a variable gives. -/
def Binding.operand : Binding → Exec K (Operand K)
  | .scalar slot => return .place slot (← read slot)
  | .array id => return .array id
  | .tape id => return .tape id

/-- The slot of an element of the array called `x`. -/
def elementSlot (x : String) (id : Nat) (index : Int64) : Exec K Slot := do
  let len := ((← get).array id).data.size
  if index < 0 ∨ len ≤ index.toInt.toNat then fail (.indexOutOfBounds x index len)
  else return .element id index.toInt.toNat

/-- The array that a variable stands for. -/
def arrayOf (env : Env) (x : String) : Exec K Nat := do
  match ← lookup env x with
  | .array id => return id
  | _ => mistyped (.notArray x)

/-- The tape that an argument names. -/
def tapeOf (env : Env) : Option Expr → Exec K Nat
  | some (.var x) => do
    match ← lookup env x with
    | .tape id => return id
    | _ => mistyped (.notTape x)
  | _ => mistyped .tapeVariable

/-- The value of what `e` gave, if it is no void call. -/
def value? (e : Expr) : Option (Operand K) → Exec K (Option (Value K))
  | none => return none
  | some (.value v) => return some v
  | some (.place _ v) => return some v
  | some _ =>
    match e with
    | .var x => mistyped (.notScalar x)
    | _ => mistyped .void

/-- The value of what `e` gave. -/
def value (e : Expr) (given : Option (Operand K)) : Exec K (Value K) := do
  require (.type .void) (← value? e given)

/-- The integer that `e` gave. -/
def int (e : Expr) (given : Option (Operand K)) : Exec K Int64 := do
  require (.type .int) (← value e given).int?

/-- The truth value that `e` gave. -/
def bool (e : Expr) (given : Option (Operand K)) : Exec K Bool := do
  require (.type .condition) (← value e given).bool?

/-- The type by which an operand chooses among overloads. -/
def operandTy (s : Store K) : Operand K → Ty
  | .value v => v.ty
  | .place _ v => v.ty
  | .array id => .arrayOf (s.array id).elem
  | .tape id => .tape (s.tape id).elem

/-- The length of an array or tape. -/
def lengthOf : Option (Operand K) → Exec K (Option (Operand K))
  | some (.array id) => return some (.value (.int (.ofNat ((← get).array id).data.size)))
  | some (.tape id) => return some (.value (.int (.ofNat ((← get).tape id).data.size)))
  | _ => mistyped .len

/-- Takes the value on top of a tape. -/
def popFrom (x : String) (id : Nat) : Exec K (Value K) := do
  match ((← get).tape id).data.back? with
  | none => fail (.emptyTape x)
  | some v =>
    modify (·.drop id)
    return v

/-- The variable that an argument names. -/
def nameOf : Option Expr → String
  | some (.var x) => x
  | _ => ""

/-- What a call gave, as an operand. -/
def result (v : Option (Value K)) : Option (Operand K) := v.map .value

variable [Scalar K]

/-- The result of an operator on values. -/
def lift (r : Except RuntimeError (Value K)) : Exec K (Value K) :=
  match r with
  | .ok v => pure v
  | .error e => fail e

/-- Binds a parameter to an operand. References are bound to places, arrays to arrays. -/
def bindOperand (f : Func) (p : Param) (o : Operand K) : Exec K (Bound K) :=
  match p.ty, o with
  | .ref _, .place slot _ => return .slot slot
  | .ref _, _ => fail (.argumentKind f.name p.name .place)
  | .array _ _, .array id => return .array id
  | .array _ _, _ => fail (.argumentKind f.name p.name .arrayVariable)
  | .tape _, .tape id => return .tape id
  | t, .value v => return .value (v.coerce t)
  | t, .place _ v => return .value (v.coerce t)
  | _, _ => fail (.argumentKind f.name p.name .scalar)

/-- Binds parameters to operands one by one. -/
def bindOperands (f : Func) : List Param → List (Operand K) → Exec K (List (Bound K))
  | p :: ps, o :: os => do
    let b ← bindOperand f p o
    let bs ← bindOperands f ps os
    return b :: bs
  | _, _ => return []

/-- Calls the overload of `name` that the operands choose. -/
def callNamed (ctx : Context K) (name : String) (operands : List (Operand K)) :
    Exec K (Option (Value K)) := do
  let s ← get
  let types := operands.map (operandTy s)
  match ctx.funcs.resolve name types with
  | some f => do
    let bound ← bindOperands f f.params operands
    ctx.call f bound
  | none =>
    if (ctx.funcs.overloads name).isEmpty then fail (.unknownFunction name)
    else fail (.noOverload name types)

/-- Calls a function at a point at which coordinate `k` is `x`. -/
def callAtPoint (ctx : Context K) (f : Func) (point : List (Value K)) (k : Nat) (x : K) :
    Exec K K := do
  let v ← ctx.call f ((point.set k (.float x)).map .value)
  require (.missingReturn f.name) (v.bind Value.number?)

/-- The numerical derivative of the overload of `target` that the values choose. -/
def difference (ctx : Context K) (target : String) (k : Int64) (point : List (Value K)) :
    Exec K (Value K) := do
  if k < 0 ∨ point.length ≤ k.toInt.toNat then fail (.indexOutOfBounds target k point.length)
  else
    let k := k.toInt.toNat
    let f ← require (.unknownFunction target) (ctx.funcs.resolve target (point.map Value.ty))
    let x := (point[k]?.bind Value.number?).getD (Scalar.ofFloat 0.0)
    let estimate ← Estimate.fivePoint (callAtPoint ctx f point k) x
    return .float estimate.derivative

/-- The value, if it is a number. -/
def numeric (v : Value K) : Exec K (Value K) :=
  if v.number?.isSome then return v else mistyped .differenceNumber

mutual

/-- What an expression gives: a value, storage, or nothing if it is a void call. -/
def operand? (ctx : Context K) (env : Env) : Expr → Exec K (Option (Operand K))
  | .float v => return some (.value (.float (Scalar.ofFloat v)))
  | .int v => return some (.value (.int v))
  | .bool v => return some (.value (.bool v))
  | .var x => do
    let b ← lookup env x
    return some (← Binding.operand b)
  | .index x i => do
    let id ← arrayOf env x
    let index ← int i (← operand? ctx env i)
    let slot ← elementSlot x id index
    return some (.place slot (← read slot))
  | .unary .neg e => do
    let v ← value e (← operand? ctx env e)
    return some (.value (← lift v.negate))
  | .unary .not e => do
    let b ← bool e (← operand? ctx env e)
    return some (.value (.bool !b))
  | .binary .and l r => do
    let a ← bool l (← operand? ctx env l)
    if a then
      let b ← bool r (← operand? ctx env r)
      return some (.value (.bool b))
    else return some (.value (.bool false))
  | .binary .or l r => do
    let a ← bool l (← operand? ctx env l)
    if a then return some (.value (.bool true))
    else
      let b ← bool r (← operand? ctx env r)
      return some (.value (.bool b))
  | .binary op l r => do
    let a ← value l (← operand? ctx env l)
    let b ← value r (← operand? ctx env r)
    return some (.value (← lift (op.apply a b)))
  | .call f args =>
    match Intrinsic.ofName? f with
    | some .len => do lengthOf (← firstOperand? ctx env args)
    | some .push => do
      let id ← tapeOf env args.head?
      let v ← require (.type .push) (← secondValue? ctx env args)
      modify (·.push id v)
      return some (.value v)
    | some .pop => do
      let id ← tapeOf env args.head?
      return some (.value (← popFrom (nameOf args.head?) id))
    | some .centralDifference => do return some (.value (← differenceOf ctx env args))
    | none => do
      let os ← operands ctx env args
      return result (← callNamed ctx f os)
  | .funcRef f => mistyped (.funcRef f)

/-- What the arguments of a call give. -/
def operands (ctx : Context K) (env : Env) : List Expr → Exec K (List (Operand K))
  | [] => return []
  | e :: es => do
    let o ← require (.type .void) (← operand? ctx env e)
    let os ← operands ctx env es
    return o :: os

/-- What the first argument gives. -/
def firstOperand? (ctx : Context K) (env : Env) : List Expr → Exec K (Option (Operand K))
  | [] => return none
  | e :: _ => do return some (← require (.type .void) (← operand? ctx env e))

/-- The value of the second argument. -/
def secondValue? (ctx : Context K) (env : Env) : List Expr → Exec K (Option (Value K))
  | _ :: e :: _ => do return some (← value e (← operand? ctx env e))
  | _ => return none

/-- The values of arguments that have to be numbers. -/
def numbers (ctx : Context K) (env : Env) : List Expr → Exec K (List (Value K))
  | [] => return []
  | e :: es => do
    let v ← numeric (← value e (← operand? ctx env e))
    let vs ← numbers ctx env es
    return v :: vs

/-- The numerical derivative that the arguments ask for. -/
def differenceOf (ctx : Context K) (env : Env) : List Expr → Exec K (Value K)
  | .funcRef target :: k :: print :: rest => do
    let index ← int k (← operand? ctx env k)
    let _ ← bool print (← operand? ctx env print)
    let point ← numbers ctx env rest
    difference ctx target index point
  | _ => mistyped .difference

end

/-- The value of an expression, or none of a void call. -/
def eval? (ctx : Context K) (env : Env) (e : Expr) : Exec K (Option (Value K)) := do
  value? e (← operand? ctx env e)

/-- The value of an expression. -/
def eval (ctx : Context K) (env : Env) (e : Expr) : Exec K (Value K) := do
  value e (← operand? ctx env e)

/-- The integer value of an expression. -/
def evalInt (ctx : Context K) (env : Env) (e : Expr) : Exec K Int64 := do
  int e (← operand? ctx env e)

/-- The truth value of an expression. -/
def evalBool (ctx : Context K) (env : Env) (e : Expr) : Exec K Bool := do
  bool e (← operand? ctx env e)

/-- The slot of a storage location. -/
def slotOf (ctx : Context K) (env : Env) : Place → Exec K Slot
  | .var x => do
    match ← lookup env x with
    | .scalar slot => return slot
    | _ => mistyped (.notScalar x)
  | .index x i => do
    let id ← arrayOf env x
    elementSlot x id (← evalInt ctx env i)

end Eval

end Fluxion
