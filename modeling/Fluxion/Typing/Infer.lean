import Fluxion.Typing.Intrinsic
import Fluxion.Typing.Overload

/-!
Types of expressions, given the types of variables. Nothing is checked that the type does not
depend on; a program that passed the checker gets the checker's types.
-/

namespace Fluxion

/-- Types of variables; of several entries for a name the first counts. -/
abbrev TyEnv := List (String × Ty)

/-- The type of a variable when it is read. -/
def TyEnv.value? (env : TyEnv) (x : String) : Option Ty := (env.lookup x).map Ty.value

/-- The type of an array's or tape's elements. -/
def TyEnv.element? (env : TyEnv) (x : String) : Option Ty := (env.lookup x).bind Ty.element?

/-- The type of what a storage location holds. -/
def TyEnv.place? (env : TyEnv) : Place → Option Ty
  | .var x => env.value? x
  | .index x _ => env.element? x

mutual

/-- The type of an expression. -/
def Expr.type? (resolve : Resolver) (env : TyEnv) : Expr → Option Ty
  | .float _ => some .float
  | .int _ => some .int
  | .bool _ => some .bool
  | .var x => env.value? x
  | .index x _ => env.element? x
  | .unary op e => (e.type? resolve env).bind op.result?
  | .binary op l r => do
    let tl ← l.type? resolve env
    let tr ← r.type? resolve env
    op.result? tl tr
  | .call f args =>
    match Intrinsic.ofName? f with
    | some .len => some .int
    | some .push => secondType? resolve env args
    | some .pop =>
      match args.head? with
      | some (.var t) => env.element? t
      | _ => none
    | some .centralDifference => some .float
    | none => do
      let types ← types? resolve env args
      let callee ← resolve f types
      return callee.ret
  | .funcRef _ => none

/-- The types of all arguments. -/
def types? (resolve : Resolver) (env : TyEnv) : List Expr → Option (List Ty)
  | [] => some []
  | e :: es => do
    let t ← e.type? resolve env
    let ts ← types? resolve env es
    return t :: ts

/-- The type of the second argument. -/
def secondType? (resolve : Resolver) (env : TyEnv) : List Expr → Option Ty
  | [] => none
  | _ :: es => firstType? resolve env es

/-- The type of the first argument. -/
def firstType? (resolve : Resolver) (env : TyEnv) : List Expr → Option Ty
  | [] => none
  | e :: _ => e.type? resolve env

end

/-- The function a call in a body with the given variables reaches. -/
def Host.callee? (h : Host) (env : TyEnv) (name : String) (args : List Expr) : Option Func := do
  let types ← types? h.resolve env args
  h.resolve name types

end Fluxion
