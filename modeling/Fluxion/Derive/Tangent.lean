import Fluxion.Derive.Build
import Fluxion.Derive.Progress
import Fluxion.Derive.Rules

/-!
Forward mode. Beside every float stands its tangent; a statement is preceded by the statements
that keep the tangents up to date.
-/

namespace Fluxion.Derive

/-- The variables of a function that is being differentiated. -/
structure TangentScope where
  /-- The function, for messages. -/
  function : String
  env : TyEnv
  names : NameSupply
  /-- The variable that holds the tangent of each variable that has one. -/
  tangents : List (String × String)

namespace TangentScope

/-- The variables of a function, none of which has a tangent so far. -/
def ofFunc (f : Func) : TangentScope := ⟨f.name, f.env, NameSupply.ofFunc f, []⟩

/-- Gives a variable a tangent. -/
def declare (t : TangentScope) (x : String) : String × TangentScope :=
  let (d, names) := t.names.fresh ("_d_" ++ x)
  (d, { t with names, tangents := (x, d) :: t.tangents })

/-- The tangent of a variable. -/
def tangent? (t : TangentScope) (x : String) : Option String := t.tangents.lookup x

/-- The tangent of the tape that a call begins with. -/
def tapeTangent? (t : TangentScope) (args : List Expr) : Option String :=
  match args.head? with
  | some (.var x) => t.tangent? x
  | _ => none

end TangentScope

/-- What an effect in an expression that would be copied means. -/
def copiedEffect : Analysis.Effect → Obstacle
  | .tape f => .tapeInExpression f
  | .write f => .effectInExpression f

/-- An expression that is copied into a tangent, so that it is evaluated twice. -/
def primal (s : Setting) (t : TangentScope) (e : Expr) : Derivation Expr := do
  match Analysis.firstEffect? (← currentHost s) t.env e with
  | some effect => unsupported t.function (copiedEffect effect)
  | none => return e

/-- The function that a call reaches. -/
def calleeOf (s : Setting) (function : String) (env : TyEnv) (name : String) (args : List Expr) :
    Derivation Func := do
  match (← currentHost s).callee? env name args with
  | some f => return f
  | none => unsupported function (.noOverload name)

/-- The tangent of storage that an argument passes on for a parameter. -/
def sharedTangent (t : TangentScope) (p : Param) (arg : Expr) : Derivation Expr :=
  match arg.place? with
  | none => unsupported t.function (.argumentPlace p.name)
  | some place =>
    match t.tangent? place.name with
    | none => unsupported t.function (.noTangent place.name)
    | some d => return (place.renamed d).toExpr

/-- The tangent of a product or quotient copies its operands. -/
def operandCopies (s : Setting) (t : TangentScope) (op : BinOp) (l r : Expr) :
    Derivation (Expr × Expr) :=
  match op with
  | .mul | .div => do
    let l ← primal s t l
    let r ← primal s t r
    return (l, r)
  | _ => return (l, r)

mutual

/-- The tangent of an expression. -/
def tangent (s : Setting) (plan : Planner) (t : TangentScope) : Expr → Derivation Expr
  | .float _ | .int _ | .bool _ | .funcRef _ => return .zero
  | .var x => return ((t.tangent? x).map Expr.var).getD .zero
  | .index x i => return ((t.tangent? x).map fun d => Expr.index d i).getD .zero
  | .unary .neg e => do return (← tangent s plan t e).negate
  | .unary .not _ => return .zero
  | .binary op l r => do
    let dl ← tangent s plan t l
    let dr ← tangent s plan t r
    if dl.isZero && dr.isZero then return .zero
    else
      let (l, r) ← operandCopies s t op l r
      return (tangentOf? op l dl r dr).getD .zero
  | .call f args =>
    match Intrinsic.ofName? f with
    | some .len => return .zero
    | some .push =>
      match t.tapeTangent? args with
      | none => return .zero
      | some d => do return ((← secondTangent? s plan t args).map (pushTo d)).getD .zero
    | some .pop => return ((t.tapeTangent? args).map popFrom).getD .zero
    | some .centralDifference => unsupported t.function .estimateAgain
    | none => do
      let callee ← calleeOf s t.function t.env f args
      if (← currentHost s).hasEffects callee then unsupported t.function (.effectInExpression f)
      else
        match ← plan .pushforward callee t.function with
        | .inactive => return .zero
        | .custom derivative | .derived derivative => do
          let copies ← args.mapM (primal s t)
          let tangents ← tangentArgs s plan t callee.params args
          return .call derivative (copies ++ tangents)
        | .numerical => numericalTangent s plan t callee args .zero 0 callee.params args

/-- The tangent of the second argument. -/
def secondTangent? (s : Setting) (plan : Planner) (t : TangentScope) :
    List Expr → Derivation (Option Expr)
  | _ :: e :: _ => do return some (← tangent s plan t e)
  | _ => return none

/-- The tangents that go into a pushforward, in the order of the parameters. -/
def tangentArgs (s : Setting) (plan : Planner) (t : TangentScope) :
    List Param → List Expr → Derivation (List Expr)
  | p :: ps, e :: es => do
    match p.ty.tangent? with
    | none => tangentArgs s plan t ps es
    | some .float => do
      let d ← tangent s plan t e
      return d :: (← tangentArgs s plan t ps es)
    | some _ => do
      let d ← sharedTangent t p e
      return d :: (← tangentArgs s plan t ps es)
  | _, _ => return []

/-- The sum of numerical derivatives along the arguments from `k` on, each times the tangent of
its argument. -/
def numericalTangent (s : Setting) (plan : Planner) (t : TangentScope) (callee : Func)
    (args : List Expr) (sum : Expr) (k : Nat) : List Param → List Expr → Derivation Expr
  | p :: ps, e :: es => do
    if p.ty = .float then
      let d ← tangent s plan t e
      if d.isZero then numericalTangent s plan t callee args sum (k + 1) ps es
      else
        let copies ← args.mapM (primal s t)
        let rate := centralDifference callee.name k s.options.printNumericalErrors copies
        numericalTangent s plan t callee args (sum.plus (rate.times d)) (k + 1) ps es
    else numericalTangent s plan t callee args sum (k + 1) ps es
  | _, _ => return sum

end

/-- The statements that keep the tangent up to date before a local is declared. -/
def tangentLocal (s : Setting) (plan : Planner) (t : TangentScope) (d : Local) :
    Derivation (List Stmt × TangentScope) :=
  match d.ty with
  | .float => do
    let init ← match d.init with
      | some e => tangent s plan t e
      | none => pure .zero
    let (x, t) := t.declare d.name
    return ([.let_ x .float (some init)], t)
  | .tape .float =>
    let (x, t) := t.declare d.name
    return ([.let_ x d.ty none], t)
  | .array elem len =>
    if (Ty.array elem len).isDifferentiable then
      let source := match d.init with
        | some (.var y) => t.tangent? y
        | _ => none
      match source with
      | none => unsupported t.function (.arrayAlias d.name)
      | some y =>
        let (x, t) := t.declare d.name
        return ([.let_ x (.arrayOf .float) (some (.var y))], t)
    else return ([], t)
  | _ => return ([], t)

/-- The statements that keep the tangent up to date before an assignment. -/
def tangentAssignment (s : Setting) (plan : Planner) (t : TangentScope) (a : Assignment) :
    Derivation (List Stmt) :=
  match t.tangent? a.place.name with
  | none => return []
  | some d => do
    let place := a.place.renamed d
    let value ← tangent s plan t a.value
    match a.op with
    | .set => return [.update place .set value]
    | .add | .sub => return if value.isZero then [] else [.update place a.op value]
    | .mul | .div =>
      let copy ← primal s t a.value
      let op := a.op.binOp?.getD .mul
      let updated := (tangentOf? op a.place.toExpr place.toExpr copy value).getD .zero
      return [.update place .set updated]

/-- The statements that keep the tangent up to date before the first part of a loop header. -/
def tangentInit (s : Setting) (plan : Planner) (t : TangentScope) :
    Option LoopInit → Derivation (List Stmt × TangentScope)
  | none => return ([], t)
  | some (.decl d) => tangentLocal s plan t d
  | some (.assign a) => do return (← tangentAssignment s plan t a, t)

/-- The statements that keep the tangent up to date before the last part of a loop header. -/
def tangentStep (s : Setting) (plan : Planner) (t : TangentScope) :
    Option Assignment → Derivation (List Stmt)
  | none => return []
  | some a => tangentAssignment s plan t a

/-- A loop with tangents. What does not fit into its header goes before the loop and to the end of
the body. -/
def loopWith (init : Option LoopInit) (test : Option Expr) (step : Option Assignment)
    (dInit dStep body : List Stmt) : Stmt :=
  if dInit.isEmpty && dStep.isEmpty then .for_ init test step body
  else
    .block (dInit ++ (init.map LoopInit.toStmt).toList
      ++ [.for_ none test none (body ++ dStep ++ (step.map Stmt.assign).toList)])

/-- A call whose value is not used. A call with effects becomes a call of its pushforward, which
has the same effects. -/
def tangentCall (s : Setting) (plan : Planner) (t : TangentScope) (f : String)
    (args : List Expr) : Derivation (List Stmt) :=
  match Intrinsic.ofName? f with
  | some .push | some .pop => do
    let d ← tangent s plan t (.call f args)
    return (if d.isZero then [] else [.expr d]) ++ [.expr (.call f args)]
  | some _ => return [.expr (.call f args)]
  | none => do
    let callee ← calleeOf s t.function t.env f args
    if (← currentHost s).hasEffects callee then
      match ← plan .pushforward callee t.function with
      | .custom derivative | .derived derivative => do
        let copies ← args.mapM (primal s t)
        let tangents ← tangentArgs s plan t callee.params args
        return [.expr (.call derivative (copies ++ tangents))]
      | .inactive | .numerical => return [.expr (.call f args)]
    else return [.expr (.call f args)]

/-- What a return gives: the tangent of the result, if tangents are returned. -/
def tangentReturn (s : Setting) (plan : Planner) (t : TangentScope) (returns : Bool)
    (value : Option Expr) : Derivation (Option Expr) :=
  if returns then
    match value with
    | some e => do return some (← tangent s plan t e)
    | none => return some .zero
  else return none

mutual

/-- A statement with tangents; gives the tangents after it. -/
def tangentStmt (s : Setting) (plan : Planner) (returns : Bool) (t : TangentScope) :
    Stmt → Derivation (List Stmt × TangentScope)
  | .decl d => do
    let (before, t) ← tangentLocal s plan t d
    return (before ++ [.decl d], t)
  | .arrayDecl x elem len =>
    if elem = .float then
      let (d, t) := t.declare x
      return ([.arrayDecl d .float len, .arrayDecl x elem len], t)
    else return ([.arrayDecl x elem len], t)
  | .assign a => do
    let before ← tangentAssignment s plan t a
    return (before ++ [.assign a], t)
  | .cond test yes no => do
    let (yes, t) ← tangentBody s plan returns t yes
    let (no, t) ← tangentBody s plan returns t no
    return ([.cond test yes no], t)
  | .for_ init test step body => do
    let (dInit, t) ← tangentInit s plan t init
    let dStep ← tangentStep s plan t step
    let (body, t) ← tangentBody s plan returns t body
    return ([loopWith init test step dInit dStep body], t)
  | .while_ test body => do
    let (body, t) ← tangentBody s plan returns t body
    return ([.while_ test body], t)
  | .ret value => do return ([.ret (← tangentReturn s plan t returns value)], t)
  | .expr (.call f args) => do return (← tangentCall s plan t f args, t)
  | .expr e => return ([.expr e], t)
  | .block body => do
    let (body, t) ← tangentBody s plan returns t body
    return ([.block body], t)

/-- Statements with tangents; gives the tangents after them. -/
def tangentBody (s : Setting) (plan : Planner) (returns : Bool) (t : TangentScope) :
    List Stmt → Derivation (List Stmt × TangentScope)
  | [] => return ([], t)
  | stmt :: rest => do
    let (first, t) ← tangentStmt s plan returns t stmt
    let (rest, t) ← tangentBody s plan returns t rest
    return (first ++ rest, t)

end

end Fluxion.Derive
