import Fluxion.Eval.Expression

/-!
Execution of statements. A loop runs for at most the number of rounds that is granted; beyond it
the run stops, which no program can tell from running on.
-/

namespace Fluxion.Eval

variable {K : Type}

open Exec

/-- How a statement ends: control goes on, or the function returns. -/
inductive Flow (K : Type) where
  | next
  | ret (value : Option (Value K))
deriving Repr

/-- A loop of at most so many rounds. -/
def rounds (test : Exec K Bool) (body : Exec K (Flow K)) (step : Exec K Unit) :
    Nat → Exec K (Flow K)
  | 0 => throw .outOfRounds
  | n + 1 => do
    if ← test then
      match ← body with
      | .ret v => return .ret v
      | .next => do
        step
        rounds test body step n
    else return .next

variable [Scalar K]

/-- Declares a local. -/
def execLocal (ctx : Context K) (env : Env) (d : Local) : Exec K Env :=
  match d.ty with
  | .tape elem => do
    let id ← newTape ⟨elem, #[]⟩
    return (d.name, .tape id) :: env
  | .array _ _ =>
    match d.init with
    | some (.var source) => do
      let id ← arrayOf env source
      return (d.name, .array id) :: env
    | _ => mistyped (.arrayLocal d.name)
  | t => do
    let v ← match d.init with
      | some e => do pure ((← eval ctx env e).coerce t)
      | none => require (.type (.localType d.name t)) (Value.zeroOf? t)
    let slot ← newCell v
    return (d.name, .scalar slot) :: env

/-- Declares an array of zeros. -/
def execArray (ctx : Context K) (env : Env) (x : String) (elem : Ty) (len : Expr) :
    Exec K Env := do
  let n ← evalInt ctx env len
  let zero ← require (.type (.arrayElement elem)) (Value.zeroOf? elem)
  if n < 0 then fail (.indexOutOfBounds x n 0)
  else
    let id ← newArray ⟨elem, Array.replicate n.toInt.toNat zero⟩
    return (x, .array id) :: env

/-- Assigns. -/
def execAssignment (ctx : Context K) (env : Env) (a : Assignment) : Exec K Unit := do
  let slot ← slotOf ctx env a.place
  let v ← eval ctx env a.value
  match a.op.binOp? with
  | none => write slot v
  | some op => do
    let old ← read slot
    let v ← lift (op.apply old v)
    write slot v

/-- The first part of a loop header. -/
def execInit (ctx : Context K) (env : Env) : Option LoopInit → Exec K Env
  | none => return env
  | some (.decl d) => execLocal ctx env d
  | some (.assign a) => do
    execAssignment ctx env a
    return env

/-- The condition of a loop header, which holds if there is none. -/
def execTest (ctx : Context K) (env : Env) : Option Expr → Exec K Bool
  | none => return true
  | some e => evalBool ctx env e

/-- The last part of a loop header. -/
def execStep (ctx : Context K) (env : Env) : Option Assignment → Exec K Unit
  | none => return ()
  | some a => execAssignment ctx env a

mutual

/-- Executes a statement with so many rounds for each loop; gives the variables after it. -/
def execStmt (ctx : Context K) (limit : Nat) (env : Env) : Stmt → Exec K (Env × Flow K)
  | .decl d => return (← execLocal ctx env d, .next)
  | .arrayDecl x elem len => return (← execArray ctx env x elem len, .next)
  | .assign a => do
    execAssignment ctx env a
    return (env, .next)
  | .cond test yes no => do
    if ← evalBool ctx env test then return (env, ← inScope (execBody ctx limit env yes))
    else return (env, ← inScope (execBody ctx limit env no))
  | .for_ init test step body => do
    let flow ← inScope (do
      let inner ← execInit ctx env init
      rounds (execTest ctx inner test) (inScope (execBody ctx limit inner body))
        (execStep ctx inner step) limit)
    return (env, flow)
  | .while_ test body => do
    let flow ← rounds (evalBool ctx env test) (inScope (execBody ctx limit env body))
      (return ()) limit
    return (env, flow)
  | .ret none => return (env, .ret none)
  | .ret (some e) => return (env, .ret (← eval? ctx env e))
  | .expr e => do
    let _ ← eval? ctx env e
    return (env, .next)
  | .block body => return (env, ← inScope (execBody ctx limit env body))

/-- Executes statements one after another until one returns. -/
def execBody (ctx : Context K) (limit : Nat) (env : Env) : List Stmt → Exec K (Flow K)
  | [] => return .next
  | s :: rest => do
    match ← execStmt ctx limit env s with
    | (env, .next) => execBody ctx limit env rest
    | (_, .ret v) => return .ret v

end

end Fluxion.Eval
