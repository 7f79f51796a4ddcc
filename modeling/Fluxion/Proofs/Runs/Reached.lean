import Mathlib.Logic.Relation
import Fluxion.Eval.Machine
import Fluxion.Typing.Infer

/-!
The points that a run passes through. A call or a piece of code begins at a point, with the types of
the variables in scope, what they stand for, and storage; from it the calls and the code inside it
begin, in the order in which the evaluator comes to them.
-/

namespace Fluxion

variable {K : Type}

/-! ### Variables in scope -/

namespace TyEnv

/-- The variables after the first part of a loop header. -/
def afterInit (types : TyEnv) : Option LoopInit → TyEnv
  | some (.decl d) => (d.name, d.ty) :: types
  | _ => types

/-- The variables after a statement. -/
def after (types : TyEnv) : Stmt → TyEnv
  | .decl d => (d.name, d.ty) :: types
  | .arrayDecl x elem _ => (x, .arrayOf elem) :: types
  | _ => types

end TyEnv

/-- The variables of a function's body: its parameters, the last of them first. -/
def Func.scope (f : Func) : TyEnv := (f.params.map fun p => (p.name, p.ty)).reverse

/-! ### Points -/

/-- Code that runs with variables in scope. A loop stands before its next round. -/
inductive Code where
  | expr (e : Expr)
  | assignment (a : Assignment)
  | stmt (st : Stmt)
  | body (body : List Stmt)
  | loop (test : Option Expr) (step : Option Assignment) (body : List Stmt)

/-- Where a run is: a call begins, or code with variables in scope, when so many more calls may be
opened. -/
inductive Point (K : Type) where
  | call (depth : Nat) (f : Func) (bound : List (Bound K)) (s : Store K)
  | code (depth : Nat) (types : TyEnv) (env : Env) (code : Code) (s : Store K)

/-- The storage at a point. -/
def Point.store : Point K → Store K
  | .call _ _ _ s => s
  | .code _ _ _ _ s => s

/-- The operator needs its second operand when the first one is `v`. -/
def BinOp.goesOn : BinOp → Value K → Prop
  | .and, v => v = .bool true
  | .or, v => v = .bool false
  | _, _ => True

namespace Machine

open Eval

variable [Scalar K]

/-- What code is evaluated in when so many more calls may be opened. -/
def context (m : Machine K) (limit depth : Nat) : Context K := ⟨m.funcs, m.callAt limit depth⟩

/-- From the first point the run comes to the second one, which is inside of it. -/
inductive Begins (m : Machine K) (limit : Nat) : Point K → Point K → Prop where
  /- Calls. A native function runs no code. -/
  | enter {depth f bound body env s s'} : f.body = some body →
    enterAll [] f.params bound s = .ok env s' →
    Begins m limit (.call (depth + 1) f bound s) (.code depth f.scope env (.body body) s')
  /- Bodies. -/
  | first {depth types env st rest s} :
    Begins m limit (.code depth types env (.body (st :: rest)) s)
      (.code depth types env (.stmt st) s)
  | next {depth types env env' st rest s s'} :
    execStmt (m.context limit depth) limit env st s = .ok (env', .next) s' →
    Begins m limit (.code depth types env (.body (st :: rest)) s)
      (.code depth (types.after st) env' (.body rest) s')
  /- Statements. -/
  | decl {depth types env d e s} : d.init = some e → d.ty.element? = none →
    Begins m limit (.code depth types env (.stmt (.decl d)) s)
      (.code depth types env (.expr e) s)
  | length {depth types env x elem len s} :
    Begins m limit (.code depth types env (.stmt (.arrayDecl x elem len)) s)
      (.code depth types env (.expr len) s)
  | assign {depth types env a s} :
    Begins m limit (.code depth types env (.stmt (.assign a)) s)
      (.code depth types env (.assignment a) s)
  | test {depth types env test yes no s} :
    Begins m limit (.code depth types env (.stmt (.cond test yes no)) s)
      (.code depth types env (.expr test) s)
  | yes {depth types env test yes no s s'} :
    evalBool (m.context limit depth) env test s = .ok true s' →
    Begins m limit (.code depth types env (.stmt (.cond test yes no)) s)
      (.code depth types env (.body yes) s')
  | no {depth types env test yes no s s'} :
    evalBool (m.context limit depth) env test s = .ok false s' →
    Begins m limit (.code depth types env (.stmt (.cond test yes no)) s)
      (.code depth types env (.body no) s')
  | init {depth types env i test step body s} :
    Begins m limit (.code depth types env (.stmt (.for_ (some i) test step body)) s)
      (.code depth types env (.stmt i.toStmt) s)
  | for_ {depth types env env' init test step body s s'} :
    execInit (m.context limit depth) env init s = .ok env' s' →
    Begins m limit (.code depth types env (.stmt (.for_ init test step body)) s)
      (.code depth (types.afterInit init) env' (.loop test step body) s')
  | while_ {depth types env test body s} :
    Begins m limit (.code depth types env (.stmt (.while_ test body)) s)
      (.code depth types env (.loop (some test) none body) s)
  | ret {depth types env e s} :
    Begins m limit (.code depth types env (.stmt (.ret (some e))) s)
      (.code depth types env (.expr e) s)
  | expr {depth types env e s} :
    Begins m limit (.code depth types env (.stmt (.expr e)) s) (.code depth types env (.expr e) s)
  | block {depth types env body s} :
    Begins m limit (.code depth types env (.stmt (.block body)) s)
      (.code depth types env (.body body) s)
  /- Loops, round by round. -/
  | loopTest {depth types env e step body s} :
    Begins m limit (.code depth types env (.loop (some e) step body) s)
      (.code depth types env (.expr e) s)
  | loopBody {depth types env test step body s s'} :
    execTest (m.context limit depth) env test s = .ok true s' →
    Begins m limit (.code depth types env (.loop test step body) s)
      (.code depth types env (.body body) s')
  | loopStep {depth types env test a body s s' s''} :
    execTest (m.context limit depth) env test s = .ok true s' →
    Exec.inScope (execBody (m.context limit depth) limit env body) s' = .ok .next s'' →
    Begins m limit (.code depth types env (.loop test (some a) body) s)
      (.code depth types env (.assignment a) s'')
  | again {depth types env test step body s s' s'' s₃} :
    execTest (m.context limit depth) env test s = .ok true s' →
    Exec.inScope (execBody (m.context limit depth) limit env body) s' = .ok .next s'' →
    execStep (m.context limit depth) env step s'' = .ok () s₃ →
    Begins m limit (.code depth types env (.loop test step body) s)
      (.code depth types env (.loop test step body) s₃)
  /- Assignments. -/
  | position {depth types env a x i s} : a.place = .index x i →
    Begins m limit (.code depth types env (.assignment a) s) (.code depth types env (.expr i) s)
  | value {depth types env a slot s s'} :
    slotOf (m.context limit depth) env a.place s = .ok slot s' →
    Begins m limit (.code depth types env (.assignment a) s)
      (.code depth types env (.expr a.value) s')
  /- Expressions. -/
  | index {depth types env x i s} :
    Begins m limit (.code depth types env (.expr (.index x i)) s)
      (.code depth types env (.expr i) s)
  | unary {depth types env op e s} :
    Begins m limit (.code depth types env (.expr (.unary op e)) s)
      (.code depth types env (.expr e) s)
  | left {depth types env op l r s} :
    Begins m limit (.code depth types env (.expr (.binary op l r)) s)
      (.code depth types env (.expr l) s)
  | right {depth types env op l r v s s'} :
    eval (m.context limit depth) env l s = .ok v s' → op.goesOn v →
    Begins m limit (.code depth types env (.expr (.binary op l r)) s)
      (.code depth types env (.expr r) s')
  | len {depth types env f e es s} : Intrinsic.ofName? f = some .len →
    Begins m limit (.code depth types env (.expr (.call f (e :: es))) s)
      (.code depth types env (.expr e) s)
  | push {depth types env f t e es s} : Intrinsic.ofName? f = some .push →
    Begins m limit (.code depth types env (.expr (.call f (t :: e :: es))) s)
      (.code depth types env (.expr e) s)
  | arg {depth types env f args i e os s s'} : Intrinsic.ofName? f = none →
    operands (m.context limit depth) env (args.take i) s = .ok os s' → args[i]? = some e →
    Begins m limit (.code depth types env (.expr (.call f args)) s)
      (.code depth types env (.expr e) s')
  | call {depth types env f args os g bound s s' s''} : Intrinsic.ofName? f = none →
    operands (m.context limit depth) env args s = .ok os s' →
    m.funcs.resolve f (os.map (operandTy s')) = some g →
    bindOperands g g.params os s' = .ok bound s'' →
    Begins m limit (.code depth types env (.expr (.call f args)) s) (.call depth g bound s'')
  /- Numerical derivatives. The function is called at one point after another. -/
  | coordinate {depth types env f target k print rest s} :
    Intrinsic.ofName? f = some .centralDifference →
    Begins m limit (.code depth types env (.expr (.call f (.funcRef target :: k :: print :: rest))) s)
      (.code depth types env (.expr k) s)
  | print {depth types env f target k print rest n s s'} :
    Intrinsic.ofName? f = some .centralDifference →
    evalInt (m.context limit depth) env k s = .ok n s' →
    Begins m limit (.code depth types env (.expr (.call f (.funcRef target :: k :: print :: rest))) s)
      (.code depth types env (.expr print) s')
  | number {depth types env f target k print rest n b i e vs s s' s'' s₃} :
    Intrinsic.ofName? f = some .centralDifference →
    evalInt (m.context limit depth) env k s = .ok n s' →
    evalBool (m.context limit depth) env print s' = .ok b s'' →
    numbers (m.context limit depth) env (rest.take i) s'' = .ok vs s₃ → rest[i]? = some e →
    Begins m limit (.code depth types env (.expr (.call f (.funcRef target :: k :: print :: rest))) s)
      (.code depth types env (.expr e) s₃)
  | probe {depth types env f target k print rest n b point g xs ys x s s' s'' s₃ s₄} :
    Intrinsic.ofName? f = some .centralDifference →
    evalInt (m.context limit depth) env k s = .ok n s' →
    evalBool (m.context limit depth) env print s' = .ok b s'' →
    numbers (m.context limit depth) env rest s'' = .ok point s₃ →
    m.funcs.resolve target (point.map Value.ty) = some g →
    List.mapM (callAtPoint (m.context limit depth) g point n.toInt.toNat) xs s₃ = .ok ys s₄ →
    Begins m limit (.code depth types env (.expr (.call f (.funcRef target :: k :: print :: rest))) s)
      (.call depth g ((point.set n.toInt.toNat (.float x)).map .value) s₄)

/-- From the first point the run comes to the second one, at any depth. -/
def Reaches (m : Machine K) (limit : Nat) : Point K → Point K → Prop :=
  Relation.ReflTransGen (m.Begins limit)

end Machine

end Fluxion
