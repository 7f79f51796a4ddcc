import Fluxion.Derive.Tangent

/-!
Reverse mode. A body becomes two sweeps: the primal sweep runs it and saves what is overwritten,
and the adjoint sweep goes backwards, restores what was saved, and moves the adjoint of each
assigned place onto the operands of what was assigned.
-/

namespace Fluxion.Derive

/-- Several adjoints of every variable, one for each lane. -/
structure Lanes where
  /-- The variable that holds their number. -/
  count : String
  /-- The variable that counts them. -/
  index : String
deriving DecidableEq, Repr

/-- Where rounding errors are added up. -/
structure ErrorSink where
  accumulator : String
  epsilon : Float
  /-- The error of a returned value is counted; a pullback leaves that to its caller. -/
  countsReturns : Bool
deriving Repr

/-- The statement that adds the error of a value with the given adjoint. -/
def ErrorSink.term (e : ErrorSink) (adjoint value : Expr) : Stmt :=
  .update (.var e.accumulator) .add
    (.call "abs" [(adjoint.times value).times (.float e.epsilon)])

/-- What is fixed while a body is swept. -/
structure Sweep where
  setting : Setting
  plan : Planner
  /-- The function, for messages. -/
  function : String
  env : TyEnv
  /-- Variables that the body reads. -/
  reads : List String
  /-- Variables that are saved before every overwrite, read or not. -/
  alwaysSave : List String
  /-- The adjoint of the result; without one, returns are passed over. -/
  seed : Option Expr
  lanes : Option Lanes
  error : Option ErrorSink

/-- Storage of the derived function. -/
structure Storage where
  names : NameSupply
  /-- The variable that holds the adjoint of each variable that has one. -/
  adjoints : List (String × String)
  /-- Declarations that go before both sweeps. -/
  hoisted : List Stmt

/-- Steps that add to the storage. -/
abbrev Sweeping := StateT Storage Derivation

/-- The two sweeps. -/
structure Sweeps where
  primal : List Stmt
  adjoint : List Stmt

/-- Where a statement stands. -/
structure Nesting where
  inLoop : Bool
  /-- In a branch or loop. -/
  inControl : Bool
deriving DecidableEq, Repr

namespace Storage

/-- Storage of a function without adjoints. -/
def ofFunc (f : Func) : Storage := ⟨NameSupply.ofFunc f, [], []⟩

/-- The adjoint of a variable. -/
def adjoint? (s : Storage) (x : String) : Option String := s.adjoints.lookup x

end Storage

namespace Sweeping

/-- Takes `base` or a variant of it. -/
def fresh (base : String) : Sweeping String :=
  modifyGet fun s =>
    let (name, names) := s.names.fresh base
    (name, { s with names })

/-- Takes the next name of a numbered series. -/
def numbered (stem : String) : Sweeping String :=
  modifyGet fun s =>
    let (name, names) := s.names.numbered stem
    (name, { s with names })

/-- Gives a variable an adjoint. -/
def bind (x adjoint : String) : Sweeping Unit :=
  modify fun s => { s with adjoints := (x, adjoint) :: s.adjoints }

/-- Puts a declaration before both sweeps. -/
def hoist (stmt : Stmt) : Sweeping Unit :=
  modify fun s => { s with hoisted := s.hoisted ++ [stmt] }

/-- A new variable that is declared before both sweeps. -/
def hoistNew (stem : String) (ty : Ty) : Sweeping String := do
  let name ← numbered stem
  hoist (.let_ name ty none)
  return name

end Sweeping

open Sweeping

/-- The declaration of an adjoint: a scalar, or an array of a length, once for each lane. -/
def adjointDecl (lanes : Option Lanes) (d : String) (len : Option Expr) : Stmt :=
  match len, lanes with
  | none, none => .let_ d .float (some .zero)
  | none, some l => .arrayDecl d .float (.var l.count)
  | some n, none => .arrayDecl d .float n
  | some n, some l => .arrayDecl d .float (n.indexProduct (.var l.count))

/-- The place of an adjoint that belongs to a lane, if there are lanes. -/
def lanePlace (lanes : Option Lanes) (d : String) : Place → Place
  | .var x =>
    match lanes with
    | none => (Place.var x).renamed d
    | some l => .index d (.var l.index)
  | .index x i =>
    match lanes with
    | none => (Place.index x i).renamed d
    | some l => .index d ((i.indexProduct (.var l.count)).indexSum (.var l.index))

namespace Sweep

/-- Fails because of something that no rule covers. -/
def fail {α : Type} (c : Sweep) (o : Obstacle) : Sweeping α := unsupported c.function o

/-- The place of the adjoint of a place. -/
def adjointPlace? (c : Sweep) (s : Storage) (p : Place) : Option Place :=
  (s.adjoint? p.name).map fun d => lanePlace c.lanes d p

/-- The place of the adjoint of what an argument names. -/
def argPlace? (c : Sweep) (s : Storage) (arg : Expr) : Option Place :=
  arg.place?.bind (c.adjointPlace? s)

/-- The functions that calls reach by now. -/
def host (c : Sweep) : Sweeping Host := currentHost c.setting

/-- What an effect in an expression of the adjoint sweep means. -/
def sweptEffect : Analysis.Effect → Obstacle
  | .tape f => .tapeReversed f
  | .write f => .effectInExpression f

/-- An expression that the adjoint sweep evaluates may have no effects. -/
def checkPure (c : Sweep) (e : Expr) : Sweeping Unit := do
  match Analysis.firstEffect? (← c.host) c.env e with
  | some effect => c.fail (sweptEffect effect)
  | none => return ()

/-- The function that a call reaches. -/
def callee (c : Sweep) (name : String) (args : List Expr) : Sweeping Func :=
  calleeOf c.setting c.function c.env name args

/-- A group of adjoint statements, run for each lane. -/
def perLane (c : Sweep) (group : List Stmt) : List Stmt :=
  match c.lanes with
  | some l => if group.isEmpty then [] else [countedLoop l.index (.var l.count) group]
  | none => group

/-- What a pullback gets for one argument: statements before the call, the adjoint, and statements
after the call. -/
structure PullbackArg where
  before : List Stmt
  adjoint : Expr
  after : List Stmt

/-- An array for a pullback. With lanes it sees a copy of one lane. -/
def arrayArg (c : Sweep) (callee : Func) (arg : Expr) : Sweeping PullbackArg := do
  let storage ← get
  let found := match arg with
    | .var a => (storage.adjoint? a).map fun d => (a, d)
    | _ => none
  match found with
  | none => c.fail (.arrayNoAdjoint callee.name)
  | some (array, d) =>
    match c.lanes with
    | none => return ⟨[], .var d, []⟩
    | some l => do
      let scratch ← numbered "_r"
      let i ← numbered "_i"
      let slot := ((Expr.var i).indexProduct (.var l.count)).indexSum (.var l.index)
      let load : Stmt := .update (.index scratch (.var i)) .set (.index d slot)
      let store : Stmt := .update (.index d slot) .set (.index scratch (.var i))
      return ⟨[.arrayDecl scratch .float (lenOf array), countedLoop i (lenOf array) [load]],
        .var scratch, [countedLoop i (lenOf array) [store]]⟩

/-- A reference for a pullback. -/
def refArg (c : Sweep) (callee : Func) (arg : Expr) : Sweeping PullbackArg := do
  match c.argPlace? (← get) arg with
  | some place => return ⟨[], place.toExpr, []⟩
  | none => c.fail (.refNoAdjoint callee.name)

/-- The arguments of a pullback: those of the function, the adjoint of its result, the adjoints of
its parameters, and where errors are added up if it was derived. -/
def pullbackArgs (c : Sweep) (callee : Func) (args : List Expr) (seed : Expr) (derived : Bool)
    (adjoints : List Expr) : List Expr :=
  args ++ (if callee.ret = .float then [seed] else []) ++ adjoints
    ++ (if derived then (c.error.map fun e => Expr.var e.accumulator).toList else [])

/-- The call of a pullback with what goes before and after it. -/
def pullbackCall (c : Sweep) (callee : Func) (derivative : String) (args : List Expr)
    (seed : Expr) (derived : Bool) (pieces : List PullbackArg) : List Stmt :=
  let call := Expr.call derivative
    (c.pullbackArgs callee args seed derived (pieces.map (·.adjoint)))
  (pieces.map (·.before)).flatten ++ [.expr call] ++ (pieces.map (·.after)).flatten

mutual

/-- Statements that add `seed` times the derivative of the expression along each variable to the
adjoint of the variable. -/
def accumulate (c : Sweep) (seed : Expr) (e : Expr) : Sweeping (List Stmt) :=
  if seed.isZero then return []
  else
    match e with
    | .float _ | .int _ | .bool _ | .funcRef _ => return []
    | .var x => do
      return ((c.adjointPlace? (← get) (.var x)).map fun p => Stmt.update p .add seed).toList
    | .index x i => do
      return ((c.adjointPlace? (← get) (.index x i)).map fun p => Stmt.update p .add seed).toList
    | .unary .neg inner => c.accumulate seed.negate inner
    | .unary .not _ => return []
    | .binary op l r =>
      match seedsOf? op l r seed with
      | some (toL, toR) => do
        let ls ← c.accumulate toL l
        let rs ← c.accumulate toR r
        return ls ++ rs
      | none => return []
    | .call f args =>
      match Intrinsic.ofName? f with
      | some .len => return []
      | some _ => c.fail (.intrinsicReversed f)
      | none => do
        let callee ← c.callee f args
        match ← c.plan .pullback callee c.function with
        | .inactive => return []
        | .custom derivative => do
          let pieces ← c.adjointArgs callee callee.params args
          return c.pullbackCall callee derivative args seed false pieces
        | .derived derivative => do
          let pieces ← c.adjointArgs callee callee.params args
          return c.pullbackCall callee derivative args seed true pieces
        | .numerical => c.accumulateNumerical callee args seed 0 callee.params args

/-- The adjoints that go into a pullback, in the order of the parameters. What is no place
collects its adjoint in a new variable first. -/
def adjointArgs (c : Sweep) (callee : Func) :
    List Param → List Expr → Sweeping (List PullbackArg)
  | p :: ps, e :: es => do
    if p.ty.adjoint?.isNone then c.adjointArgs callee ps es
    else
      match p.ty with
      | .array _ _ => do
        let piece ← c.arrayArg callee e
        return piece :: (← c.adjointArgs callee ps es)
      | .ref _ => do
        let piece ← c.refArg callee e
        return piece :: (← c.adjointArgs callee ps es)
      | _ => do
        match c.argPlace? (← get) e with
        | some place => return ⟨[], place.toExpr, []⟩ :: (← c.adjointArgs callee ps es)
        | none => do
          let temp ← hoistNew "_r" .float
          let after ← c.accumulate (.var temp) e
          return ⟨[.set temp .zero], .var temp, after⟩ :: (← c.adjointArgs callee ps es)
  | _, _ => return []

/-- Adds what numerical derivatives along the arguments from `k` on contribute. -/
def accumulateNumerical (c : Sweep) (callee : Func) (args : List Expr) (seed : Expr) (k : Nat) :
    List Param → List Expr → Sweeping (List Stmt)
  | p :: ps, e :: es => do
    if p.ty = .float then
      let rate := centralDifference callee.name k c.setting.options.printNumericalErrors args
      let own ← c.accumulate (seed.times rate) e
      return own ++ (← c.accumulateNumerical callee args seed (k + 1) ps es)
    else c.accumulateNumerical callee args seed (k + 1) ps es
  | _, _ => return []

end

/-- Saves the value of a place, and restores it: in a variable, or inside a loop on a tape. -/
def save (inLoop : Bool) (place : Place) (ty : Ty) : Sweeping (Stmt × Stmt) :=
  if inLoop then do
    let tape ← hoistNew "_t" (.tape ty)
    return (.expr (pushTo tape place.toExpr), .update place .set (popFrom tape))
  else do
    let slot ← hoistNew "_t" ty
    return (.set slot place.toExpr, .update place .set (.var slot))

/-- Moves the adjoint of an assigned place onto the operands of what was assigned. An assignment
that forgets the old value resets the adjoint. -/
def moveAdjoint (c : Sweep) (place adjoint : Place) (op : AssignOp) (value : Expr) :
    Sweeping (List Stmt) := do
  let r ← numbered "_r_d"
  let seed := Expr.var r
  let resets := op == .set || op == .mul || op == .div
  let accumulated ← match op with
    | .set | .add => c.accumulate seed value
    | .sub => c.accumulate seed.negate value
    | .mul => c.accumulate seed (.binary .mul place.toExpr value)
    | .div => c.accumulate seed (.binary .div place.toExpr value)
  let reset : List Stmt := if resets then [.update adjoint .set .zero] else []
  if accumulated.isEmpty then return reset
  else
    hoist (.let_ r .float none)
    return .set r adjoint.toExpr :: (reset ++ accumulated)

/-- An integer that is moved by a constant is moved back. -/
def inverse? (ty : Ty) (a : Assignment) : Option Stmt :=
  if ty = .int && a.value.isInt then
    match a.op with
    | .add => some (.update a.place .sub a.value)
    | .sub => some (.update a.place .add a.value)
    | _ => none
  else none

/-- The sweeps of an assignment. The first assignment to a local has nothing to save. -/
def assignment (c : Sweep) (inLoop : Bool) (a : Assignment) (first : Bool) : Sweeping Sweeps := do
  c.checkPure a.value
  match c.env.place? a.place with
  | none => c.fail (.unknownVariable a.place.name)
  | some ty =>
    match inverse? ty a with
    | some back => return ⟨[.assign a], [back]⟩
    | none => do
      let name := a.place.name
      let saved ←
        if !first && (c.reads.contains name || c.alwaysSave.contains name) then do
          pure (some (← save inLoop a.place ty))
        else pure none
      let storage ← get
      let adjoint := if ty = .float then c.adjointPlace? storage a.place else none
      let errors := match adjoint, c.error with
        | some p, some sink => [sink.term p.toExpr a.place.toExpr]
        | _, _ => []
      let moved ← match adjoint with
        | some p => c.moveAdjoint a.place p a.op a.value
        | none => pure []
      return ⟨(saved.map (·.1)).toList ++ [.assign a],
        errors ++ (saved.map (·.2)).toList ++ c.perLane moved⟩

/-- The literal that storage of a type holds at first. -/
def zeroLiteral : Ty → Expr
  | .int => .int 0
  | .bool => .bool false
  | _ => .zero

/-- The sweeps of a declaration, which moves before both sweeps and leaves an assignment. -/
def declaration (c : Sweep) (inLoop : Bool) (d : Local) : Sweeping Sweeps := do
  if d.ty.isScalar then
    hoist (.let_ d.name d.ty none)
    if d.ty = .float then
      let x ← fresh ("_d_" ++ d.name)
      hoist (adjointDecl c.lanes x none)
      bind d.name x
    c.assignment inLoop ⟨.var d.name, .set, d.init.getD (zeroLiteral d.ty)⟩ !inLoop
  else c.fail (.localType d.name d.ty)

/-- The sweeps of the declaration of an array. -/
def arrayDeclaration (c : Sweep) (inControl : Bool) (x : String) (elem : Ty) (len : Expr) :
    Sweeping Sweeps := do
  if inControl then c.fail (.arrayDeclared x)
  else if elem = .float then
    let d ← fresh ("_d_" ++ x)
    bind x d
    return ⟨[.arrayDecl x elem len, adjointDecl c.lanes d (some len)], []⟩
  else return ⟨[.arrayDecl x elem len], []⟩

/-- Saves an argument that a call writes, and restores it. -/
def saveArg (c : Sweep) (at_ : Nesting) (f : String) (p : Param) (arg : Expr) :
    Sweeping Sweeps :=
  match p.ty with
  | .ref _ =>
    match arg.place? with
    | none => c.fail (.refPlace f)
    | some place =>
      match c.env.place? place with
      | none => c.fail (.unknownVariable place.name)
      | some ty => do
        let (saved, restored) ← save at_.inLoop place ty
        return ⟨[saved], [restored]⟩
  | .array _ _ =>
    if at_.inControl then c.fail (.arrayWritten f)
    else
      match arg with
      | .var array => do
        let elem := (c.env.element? array).getD .float
        let copy ← numbered "_t"
        let i ← numbered "_i"
        let j ← numbered "_i"
        return ⟨[.arrayDecl copy elem (lenOf array), copyLoop i copy array], [copyLoop j array copy]⟩
      | _ => c.fail (.arrayPlace f)
  | _ => return ⟨[], []⟩

/-- Saves the arguments from position `i` on that a call writes. -/
def saveArgs (c : Sweep) (at_ : Nesting) (f : String) (written : List Nat) (i : Nat) :
    List Param → List Expr → Sweeping Sweeps
  | p :: ps, e :: es => do
    let own ← if written.contains i then c.saveArg at_ f p e else pure ⟨[], []⟩
    let rest ← c.saveArgs at_ f written (i + 1) ps es
    return ⟨own.primal ++ rest.primal, own.adjoint ++ rest.adjoint⟩
  | _, _ => return ⟨[], []⟩

/-- The pullback of a call whose value is not used. -/
def effectPullback (c : Sweep) (callee : Func) (args : List Expr) : Sweeping (List Stmt) := do
  match ← c.plan .pullback callee c.function with
  | .custom derivative => do
    let pieces ← c.adjointArgs callee callee.params args
    return c.perLane (c.pullbackCall callee derivative args .zero false pieces)
  | .derived derivative => do
    let pieces ← c.adjointArgs callee callee.params args
    return c.perLane (c.pullbackCall callee derivative args .zero true pieces)
  | .inactive | .numerical => return []

/-- The sweeps of a call whose value is not used. What it writes is saved before, and restored
before its pullback. -/
def callStmt (c : Sweep) (at_ : Nesting) (f : String) (args : List Expr) : Sweeping Sweeps := do
  match Intrinsic.ofName? f with
  | some .push | some .pop => c.fail (.tapeReversed f)
  | some _ => return ⟨[.expr (.call f args)], []⟩
  | none => do
    let callee ← c.callee f args
    let written := (← c.host).writtenParams callee
    let saved ← c.saveArgs at_ f written 0 callee.params args
    let pulled ← if (← c.host).hasEffects callee then c.effectPullback callee args else pure []
    return ⟨saved.primal ++ [.expr (.call f args)], saved.adjoint ++ pulled⟩

/-- The sweeps of a branch: the adjoint sweep takes the branch that the primal sweep took, which
is kept in a variable, or inside a loop on a tape. -/
def branch (inLoop : Bool) (test : Expr) (yes no : Sweeps) : Sweeping Sweeps := do
  if yes.adjoint.isEmpty && no.adjoint.isEmpty then
    return ⟨[.cond test yes.primal no.primal], []⟩
  else if inLoop then
    let tape ← hoistNew "_cond" (.tape .bool)
    return ⟨[.cond (pushTo tape test) yes.primal no.primal],
      [.cond (popFrom tape) yes.adjoint no.adjoint]⟩
  else
    let slot ← hoistNew "_cond" .bool
    return ⟨[.set slot test, .cond (.var slot) yes.primal no.primal],
      [.cond (.var slot) yes.adjoint no.adjoint]⟩

/-- The sweeps of a loop: the primal sweep counts its rounds, and the adjoint sweep goes backwards
as many times. Inside another loop the counts are kept on a tape. -/
def loop (inLoop : Bool) (init : Sweeps) (test : Option Expr) (step body : Sweeps) :
    Sweeping Sweeps := do
  let test := test.getD (.bool true)
  if step.adjoint.isEmpty && body.adjoint.isEmpty then
    return ⟨init.primal ++ [.while_ test (body.primal ++ step.primal)], init.adjoint⟩
  else
    let counter ← hoistNew "_loop" .int
    let counted : Stmt := .update (.var counter) .add (.int 1)
    let primal := init.primal ++
      [.set counter (.int 0), .while_ test (counted :: (body.primal ++ step.primal))]
    let replay : Stmt := .for_ none (some (.greater (.var counter) (.int 0)))
      (some ⟨.var counter, .sub, .int 1⟩) (step.adjoint ++ body.adjoint)
    if inLoop then
      let trips ← hoistNew "_trips" (.tape .int)
      return ⟨primal ++ [.expr (pushTo trips (.var counter))],
        [.set counter (popFrom trips), replay] ++ init.adjoint⟩
    else return ⟨primal, replay :: init.adjoint⟩

/-- The sweeps of a return. -/
def returned (c : Sweep) (value : Option Expr) : Sweeping Sweeps := do
  match value, c.seed with
  | some value, some seed => do
    c.checkPure value
    if value.type? (← c.host).resolve c.env = some .float then
      let errors := match c.error with
        | some sink => if sink.countsReturns then [sink.term seed value] else []
        | none => []
      return ⟨[], errors ++ (← c.accumulate seed value)⟩
    else return ⟨[], []⟩
  | _, _ => return ⟨[], []⟩

/-- The sweeps of the first part of a loop header. -/
def loopInit (c : Sweep) (inLoop : Bool) : Option LoopInit → Sweeping Sweeps
  | none => return ⟨[], []⟩
  | some (.decl d) => c.declaration inLoop d
  | some (.assign a) => c.assignment inLoop a false

/-- The sweeps of the last part of a loop header. -/
def loopStep (c : Sweep) : Option Assignment → Sweeping Sweeps
  | none => return ⟨[], []⟩
  | some a => c.assignment true a false

/-- A condition of a loop may have no effects. -/
def checkTest (c : Sweep) : Option Expr → Sweeping Unit
  | none => return ()
  | some e => c.checkPure e

mutual

/-- The sweeps of a statement. -/
def stmt (c : Sweep) (at_ : Nesting) : Stmt → Sweeping Sweeps
  | .decl d => c.declaration at_.inLoop d
  | .arrayDecl x elem len => c.arrayDeclaration at_.inControl x elem len
  | .assign a => c.assignment at_.inLoop a false
  | .cond test yes no => do
    c.checkPure test
    let yes ← c.body { at_ with inControl := true } yes
    let no ← c.body { at_ with inControl := true } no
    branch at_.inLoop test yes no
  | .for_ init test step body => do
    c.checkTest test
    let init ← c.loopInit at_.inLoop init
    let step ← c.loopStep step
    let body ← c.body ⟨true, true⟩ body
    loop at_.inLoop init test step body
  | .while_ test body => do
    c.checkPure test
    let body ← c.body ⟨true, true⟩ body
    loop at_.inLoop ⟨[], []⟩ (some test) ⟨[], []⟩ body
  | .ret value => c.returned value
  | .expr (.call f args) => c.callStmt at_ f args
  | .expr e => do
    c.checkPure e
    return ⟨[.expr e], []⟩
  | .block body => c.body at_ body

/-- The sweeps of statements; the adjoint sweep goes through them backwards. -/
def body (c : Sweep) (at_ : Nesting) : List Stmt → Sweeping Sweeps
  | [] => return ⟨[], []⟩
  | s :: rest => do
    let first ← c.stmt at_ s
    let rest ← c.body at_ rest
    return ⟨first.primal ++ rest.primal, rest.adjoint ++ first.adjoint⟩

end

/-- The sweeps of the body of a function. -/
def run (c : Sweep) (body : List Stmt) : Sweeping Sweeps := c.body ⟨false, false⟩ body

end Sweep

end Fluxion.Derive
