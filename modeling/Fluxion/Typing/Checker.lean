import Fluxion.Diagnostic
import Fluxion.Typing.Infer

/-!
The type checker. Each function is checked by itself and reports its first error.
-/

namespace Fluxion.Typing

/-- What is wrong inside a function. -/
inductive Mismatch where
  | paramType (x : String) (t : Ty)
  | tapeInit (x : String)
  | localType (x : String) (t : Ty)
  | arrayElement (x : String)
  | arrayLength (x : String) (found : Ty)
  | nonNumeric (op : AssignOp) (x : String)
  | voidReturn
  | condition (found : Ty)
  | expects (what : String) (target found : Ty)
  | assignTarget (x : String) (t : Ty)
  | indexTarget (x : String) (t : Ty)
  | indexType (found : Ty)
  | operator (op : BinOp) (l r : Ty)
  | funcRef (f : String)
  | illTyped
  | illTypedArg
  | lenArgs
  | pushTape (found : Ty)
  | pushArgs
  | popTape (found : Ty)
  | popArgs
  | differenceArgs
  | differenceCall
  | refArg (param callee : String)
  | arrayArg (param callee : String)
deriving DecidableEq, Repr

/-- The message of a mismatch. -/
def Mismatch.message : Mismatch → String
  | .paramType x t => "parameter `" ++ x ++ "` cannot have type " ++ t.text
  | .tapeInit x => "tape `" ++ x ++ "` cannot be initialized"
  | .localType x t => "local `" ++ x ++ "` cannot have type " ++ t.text
  | .arrayElement x => "array `" ++ x ++ "` must hold scalars"
  | .arrayLength x found => "length of `" ++ x ++ "` must be i64, found " ++ found.text
  | .nonNumeric op x => "`" ++ op.symbol ++ "` on non-numeric `" ++ x ++ "`"
  | .voidReturn => "void function returns a value"
  | .condition found => "condition must be bool, found " ++ found.text
  | .expects what target found =>
    "`" ++ what ++ "` expects " ++ target.text ++ ", found " ++ found.text
  | .assignTarget x t => "cannot assign to `" ++ x ++ "` of type " ++ t.text
  | .indexTarget x t => "cannot index `" ++ x ++ "` of type " ++ t.text
  | .indexType found => "index must be i64, found " ++ found.text
  | .operator op l r =>
    "operator `" ++ op.symbol ++ "` does not apply to " ++ l.text ++ " and " ++ r.text
  | .funcRef f => "`&" ++ f ++ "` is only valid as the first argument of numerical differentiation"
  | .illTyped => "ill-typed expression"
  | .illTypedArg => "ill-typed argument"
  | .lenArgs => "`len` takes one array"
  | .pushTape found => "`push` needs a tape, found " ++ found.text
  | .pushArgs => "`push` takes a tape and a value"
  | .popTape found => "`pop` needs a tape, found " ++ found.text
  | .popArgs => "`pop` takes one tape"
  | .differenceArgs => "numerical differentiation takes (&fn, i64 index, bool print, args...)"
  | .differenceCall => "malformed numerical differentiation call"
  | .refArg param callee =>
    "argument for `&` parameter `" ++ param ++ "` of `" ++ callee
      ++ "` must be a variable or element"
  | .arrayArg param callee =>
    "argument for array parameter `" ++ param ++ "` of `" ++ callee
      ++ "` must be an array variable"

/-- An error inside a function. -/
inductive Fault where
  | unknown (x : String)
  | noOverload (callee : String) (args : List Ty)
  | mismatch (m : Mismatch)
deriving DecidableEq, Repr

/-- An error of a program. -/
inductive TypeError where
  | inside (function : String) (fault : Fault)
  | duplicate (function : String)
deriving DecidableEq, Repr

/-- The function an error is about. -/
def TypeError.function : TypeError → String
  | .inside f _ => f
  | .duplicate f => f

/-- The message of an error inside a function. -/
def Fault.message : Fault → String
  | .unknown x => "unknown identifier `" ++ x ++ "`"
  | .noOverload callee args => "no overload of `" ++ callee ++ "` accepts (" ++ tyList args ++ ")"
  | .mismatch m => m.message

/-- The message of an error. -/
def TypeError.message : TypeError → String
  | .inside f fault => "in `" ++ f ++ "`: " ++ fault.message
  | .duplicate f => "`" ++ f ++ "` is defined twice with the same parameter types"

/-- Checking either fails or gives a result. -/
abbrev Check := Except Fault

/-- Fails with a mismatch. -/
def refuse {α : Type} (m : Mismatch) : Check α := .error (.mismatch m)

/-- The declared type of a variable. -/
def lookup (env : TyEnv) (x : String) : Check Ty :=
  match env.lookup x with
  | some t => .ok t
  | none => .error (.unknown x)

/-- A place of type `target` has to take a value of type `found`. -/
def expectTakes (target found : Ty) (what : String) : Check Unit :=
  if target.takes found then .ok () else refuse (.expects what target found)

/-- The element type of an array variable of type `t`. -/
def elementOf (x : String) (t : Ty) : Check Ty :=
  match t with
  | .array elem _ => .ok elem
  | t => refuse (.indexTarget x t)

/-- The arguments have to be such that the parameters can bind them: variables or elements to
references, array variables to arrays. -/
def checkBinding (callee : String) : List Param → List Expr → Check Unit
  | p :: ps, a :: as =>
    match p.ty, a with
    | .ref _, a =>
      if a.place?.isNone then refuse (.refArg p.name callee) else checkBinding callee ps as
    | .array _ _, .var _ => checkBinding callee ps as
    | .array _ _, _ => refuse (.arrayArg p.name callee)
    | _, _ => checkBinding callee ps as
  | _, _ => .ok ()

mutual

/-- The type of an expression. -/
def checkExpr (resolve : Resolver) (env : TyEnv) : Expr → Check Ty
  | .float _ => .ok .float
  | .int _ => .ok .int
  | .bool _ => .ok .bool
  | .var x => do return (← lookup env x).value
  | .index x i => do
    let t ← checkExpr resolve env i
    if t = .int then elementOf x (← lookup env x) else refuse (.indexType t)
  | .unary op e => do
    let _ ← checkExpr resolve env e
    match (Expr.unary op e).type? resolve env with
    | some t => return t
    | none => refuse .illTyped
  | .binary op l r => do
    let tl ← checkExpr resolve env l
    let tr ← checkExpr resolve env r
    match op.result? tl tr with
    | some t => return t
    | none => refuse (.operator op tl tr)
  | .call f args =>
    match Intrinsic.ofName? f with
    | some .len =>
      match args with
      | [.var a] => do
        if (← lookup env a).isArray then return .int else refuse .lenArgs
      | _ => refuse .lenArgs
    | some .push => checkPush resolve env args
    | some .pop =>
      match args with
      | [.var t] => do
        match ← lookup env t with
        | .tape elem => return elem
        | other => refuse (.popTape other)
      | _ => refuse .popArgs
    | some .centralDifference => checkDifference resolve env args
    | none => do
      let types ← checkArgs resolve env args
      match resolve f types with
      | none => throw (.noOverload f types)
      | some callee =>
        checkBinding f callee.params args
        return callee.ret
  | .funcRef f => refuse (.funcRef f)

/-- The types of the arguments of a call. -/
def checkArgs (resolve : Resolver) (env : TyEnv) : List Expr → Check (List Ty)
  | [] => .ok []
  | e :: es => do
    let _ ← checkExpr resolve env e
    match e.type? resolve env with
    | none => refuse .illTypedArg
    | some t => return t :: (← checkArgs resolve env es)

/-- The types of expressions in a list. -/
def checkExprs (resolve : Resolver) (env : TyEnv) : List Expr → Check (List Ty)
  | [] => .ok []
  | e :: es => do
    let t ← checkExpr resolve env e
    return t :: (← checkExprs resolve env es)

/-- A value pushed on a tape. -/
def checkPush (resolve : Resolver) (env : TyEnv) : List Expr → Check Ty
  | [.var t, value] => do
    match ← lookup env t with
    | .tape elem =>
      let found ← checkExpr resolve env value
      expectTakes elem found t
      return found
    | other => refuse (.pushTape other)
  | _ => refuse .pushArgs

/-- A numerical derivative. -/
def checkDifference (resolve : Resolver) (env : TyEnv) : List Expr → Check Ty
  | .funcRef target :: k :: print :: rest => do
    let indexType ← checkExpr resolve env k
    if indexType ≠ .int then refuse .differenceArgs
    else
      let printType ← checkExpr resolve env print
      if printType ≠ .bool then refuse .differenceArgs
      else
        let types ← checkExprs resolve env rest
        match resolve target types with
        | some callee =>
          if callee.ret = .float then return .float else throw (.noOverload target types)
        | none => throw (.noOverload target types)
  | _ => refuse .differenceCall

end

theorem checkExpr_var (resolve : Resolver) (env : TyEnv) (x : String) :
    checkExpr resolve env (.var x) = do return (← lookup env x).value := by
  rw [checkExpr]

/-- A condition has to be a truth value. -/
def checkCondition (resolve : Resolver) (env : TyEnv) (e : Expr) : Check Unit := do
  let t ← checkExpr resolve env e
  if t = .bool then return () else refuse (.condition t)

/-- The type of what a storage location holds, if it can be assigned to. -/
def checkPlace (resolve : Resolver) (env : TyEnv) (place : Place) : Check Ty := do
  let t ← lookup env place.name
  match place with
  | .var x =>
    match t with
    | .float | .int | .bool => return t
    | .ref inner => return inner
    | other => refuse (.assignTarget x other)
  | .index x i =>
    let found ← checkExpr resolve env i
    if found = .int then elementOf x t else refuse (.indexType found)

/-- A local's type is a scalar's or that of a tape of scalars, which begins empty. -/
def checkLocalTy (d : Local) : Check Unit :=
  match d.ty with
  | .float | .int | .bool => .ok ()
  | .tape elem =>
    if !elem.isScalar then refuse (.localType d.name d.ty)
    else if d.init.isSome then refuse (.tapeInit d.name)
    else .ok ()
  | other => refuse (.localType d.name other)

/-- A declaration; gives the variables after it. -/
def checkLocal (resolve : Resolver) (env : TyEnv) (d : Local) : Check TyEnv := do
  checkLocalTy d
  match d.init with
  | some e =>
    let found ← checkExpr resolve env e
    expectTakes d.ty found d.name
  | none => pure ()
  return (d.name, d.ty) :: env

/-- An assignment. -/
def checkAssignment (resolve : Resolver) (env : TyEnv) (a : Assignment) : Check Unit := do
  let target ← checkPlace resolve env a.place
  let found ← checkExpr resolve env a.value
  if a.op ≠ .set ∧ target.isNumeric = false then refuse (.nonNumeric a.op a.place.name)
  else expectTakes target found a.place.name

/-- The first part of a loop header; gives the variables after it. -/
def checkLoopInit (resolve : Resolver) (env : TyEnv) : LoopInit → Check TyEnv
  | .decl d => checkLocal resolve env d
  | .assign a => do
    checkAssignment resolve env a
    return env

/-- What a function with result type `ret` returns. -/
def checkReturn (resolve : Resolver) (env : TyEnv) (ret : Ty) (value : Option Expr) :
    Check Unit := do
  let found ← match value with
    | some e => checkExpr resolve env e
    | none => pure .void
  if ret = .void ∧ found ≠ .void then refuse .voidReturn
  else expectTakes ret found "return value"

mutual

/-- A statement of a function with result type `ret`; gives the variables after it. -/
def checkStmt (resolve : Resolver) (ret : Ty) (env : TyEnv) : Stmt → Check TyEnv
  | .decl d => checkLocal resolve env d
  | .arrayDecl x elem len => do
    if elem.isScalar then
      let found ← checkExpr resolve env len
      if found = .int then return (x, .arrayOf elem) :: env else refuse (.arrayLength x found)
    else refuse (.arrayElement x)
  | .assign a => do
    checkAssignment resolve env a
    return env
  | .cond test yes no => do
    checkCondition resolve env test
    checkBody resolve ret env yes
    checkBody resolve ret env no
    return env
  | .for_ init test step body => do
    let inner ← match init with
      | some i => checkLoopInit resolve env i
      | none => pure env
    match test with
    | some e => checkCondition resolve inner e
    | none => pure ()
    match step with
    | some a => checkAssignment resolve inner a
    | none => pure ()
    checkBody resolve ret inner body
    return env
  | .while_ test body => do
    checkCondition resolve env test
    checkBody resolve ret env body
    return env
  | .ret value => do
    checkReturn resolve env ret value
    return env
  | .expr e => do
    let _ ← checkExpr resolve env e
    return env
  | .block body => do
    checkBody resolve ret env body
    return env

/-- A list of statements with a scope of its own. -/
def checkBody (resolve : Resolver) (ret : Ty) (env : TyEnv) : List Stmt → Check Unit
  | [] => .ok ()
  | s :: rest => do
    let env ← checkStmt resolve ret env s
    checkBody resolve ret env rest

end

/-- Parameters, none of which may be void or a tape; gives the variables of the body. -/
def checkParams : TyEnv → List Param → Check TyEnv
  | env, [] => .ok env
  | env, p :: ps =>
    match p.ty with
    | .void | .tape _ => refuse (.paramType p.name p.ty)
    | t => checkParams ((p.name, t) :: env) ps

/-- Checks a function. -/
def checkFunc (resolve : Resolver) (f : Func) : Check Unit := do
  let env ← checkParams [] f.params
  match f.body with
  | some body => checkBody resolve f.ret env body
  | none => return ()

/-- The errors of functions that follow those with the signatures `seen`. A second function with
the same signature is an error besides its own. -/
def checkFrom (resolve : Resolver) (seen : List Signature) : List Func → List TypeError
  | [] => []
  | f :: rest =>
    let repeated := if seen.contains f.signature then [.duplicate f.name] else []
    let own := match checkFunc resolve f with
      | .ok () => []
      | .error fault => [.inside f.name fault]
    repeated ++ own ++ checkFrom resolve (f.signature :: seen) rest

/-- All errors of a program, in the order of its functions. -/
def check (p : Program) : List TypeError := checkFrom p.resolve [] p

/-- The diagnostic of an error, at the first function of the name it is about. -/
def TypeError.diagnostic (source : String) (p : Program) (e : TypeError) : Diagnostic :=
  let span := ((List.find? (fun f => f.name == e.function) p).map Func.span).getD ⟨0, 0⟩
  .error source "type" "E2001" span e.message

end Fluxion.Typing
