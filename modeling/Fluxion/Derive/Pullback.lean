import Fluxion.Canonical.Form
import Fluxion.Derive.Adjoint

/-!
Functions of reverse mode: the pullback of a function, which takes the adjoint of its result and
adds to the adjoints of its parameters, and the gradient of a function.
-/

namespace Fluxion.Derive

open Sweeping

/-- The canonical form that both sweeps are made from. -/
def prepare (f : Func) : Derivation Func :=
  match Canonical.canonicalize f with
  | .ok f => return f
  | .error _ => unsupported f.name .returnInLoop

/-- The sweep of a function with result adjoint one, without lanes and errors. -/
def Sweep.ofFunc (s : Setting) (plan : Planner) (f : Func) : Sweep where
  setting := s
  plan := plan
  function := f.name
  env := f.env
  reads := Analysis.reads f.stmts
  alwaysSave := []
  seed := some .one
  lanes := none
  error := none

/-- Parameters that a derived function takes for adjoints, with statements before and after the
sweeps. -/
structure AdjointParams where
  params : List Param
  before : List Stmt
  after : List Stmt

/-- Nothing. -/
def AdjointParams.none : AdjointParams := ⟨[], [], []⟩

/-- One after the other. -/
def AdjointParams.append (a b : AdjointParams) : AdjointParams :=
  ⟨a.params ++ b.params, a.before ++ b.before, a.after ++ b.after⟩

/-- A local adjoint that starts from zero and is added to the adjoint `out` at the end. -/
def localAdjoint (p : Param) (out : String) : Sweeping (String × AdjointParams) := do
  let x ← fresh ("_d_" ++ p.name ++ "_local")
  return (x, ⟨[], [.let_ x .float (some .zero)], [.update (.var out) .add (.var x)]⟩)

/-- The adjoint of a parameter of a pullback. That of a float which the function assigns is kept
apart, because assignments reset it. -/
def pullbackParam (modified : List String) (p : Param) : Sweeping AdjointParams :=
  match p.ty.adjoint? with
  | none => return .none
  | some ty => do
    let d ← fresh ("_d_" ++ p.name)
    if p.ty = .float && modified.contains p.name then
      let (x, own) ← localAdjoint p d
      bind p.name x
      return { own with params := [⟨d, ty⟩] }
    else
      bind p.name d
      return ⟨[⟨d, ty⟩], [], []⟩

/-- The adjoints of all parameters of a pullback. -/
def pullbackParams (modified : List String) : List Param → Sweeping AdjointParams
  | [] => return .none
  | p :: ps => do
    let own ← pullbackParam modified p
    let rest ← pullbackParams modified ps
    return own.append rest

/-- The parameter for the adjoint of the result, if that is a float. -/
def resultAdjoint (f : Func) : Sweeping (Option String) :=
  if f.ret = .float then do return some (← fresh "_d_y") else return none

/-- Where a derived function adds up errors, if it does. -/
def errorSink (epsilon : Option Float) (countsReturns : Bool) : Sweeping (Option ErrorSink) :=
  match epsilon with
  | none => return none
  | some epsilon => do return some ⟨← fresh "_final_error", epsilon, countsReturns⟩

/-- The parameter where errors are added up. -/
def sinkParam (sink : Option ErrorSink) : List Param :=
  (sink.map fun e => (⟨e.accumulator, .ref .float⟩ : Param)).toList

/-- The pullback of a function. -/
def pullback (s : Setting) (plan : Planner) (callee : Func) (name : String) : Derivation Func := do
  let source ← prepare callee
  let modified := (← currentHost s).modifiedParams callee
  let steps : Sweeping Func := do
    let dy ← resultAdjoint callee
    let adjoints ← pullbackParams modified callee.params
    let sink ← errorSink s.errorEpsilon false
    let c : Sweep := { Sweep.ofFunc s plan source with
      alwaysSave := callee.params.map (·.name)
      seed := dy.map Expr.var
      error := sink }
    let sweeps ← c.run source.stmts
    let params := callee.params ++ (dy.map fun d => (⟨d, .float⟩ : Param)).toList
      ++ adjoints.params ++ sinkParam sink
    let body := adjoints.before ++ (← get).hoisted ++ sweeps.primal ++ sweeps.adjoint
      ++ adjoints.after
    return ⟨name, params, .void, some body, callee.span⟩
  steps.run' (.ofFunc source)

/-! ### Gradients -/

/-- The adjoint of an independent array. An array that the function writes, or of which a range is
asked for, gets an adjoint of its own that is added to the output at the end. -/
def independentArray (modified : List String) (p : Param) (range : Option (Nat × Nat))
    (out : String) : Sweeping AdjointParams := do
  let param : Param := ⟨out, .arrayOf .float⟩
  if range.isNone && !modified.contains p.name then
    bind p.name out
    return ⟨[param], [], []⟩
  else
    let x ← fresh ("_d_" ++ p.name ++ "_local")
    let (lo, count) := match range with
      | some (lo, hi) => (lo, Expr.ofNat (hi - lo + 1))
      | none => (0, lenOf p.name)
    let i ← numbered "_i"
    let flush : Stmt := .update (.index out (.var i)) .add
      (.index x ((Expr.var i).indexSum (.ofNat lo)))
    bind p.name x
    return ⟨[param], [.arrayDecl x .float (lenOf p.name)], [countedLoop i count [flush]]⟩

/-- The adjoint of an independent scalar, and the variable that holds it during the sweeps. -/
def independentScalar (modified : List String) (p : Param) (out : String) :
    Sweeping (String × AdjointParams) := do
  let param : Param := ⟨out, .ref .float⟩
  if modified.contains p.name then
    let (x, own) ← localAdjoint p out
    bind p.name x
    return (x, { own with params := [param] })
  else
    bind p.name out
    return (out, ⟨[param], [], []⟩)

/-- The adjoints of the independent variables, and of the scalars among them each with the
variable that holds its adjoint. -/
def independents (modified : List String) (params : List Param) :
    List Request.Independent → Sweeping (AdjointParams × List (String × String))
  | [] => return (.none, [])
  | v :: vs => do
    let p := params[v.param]?.getD default
    let out ← fresh ("_d_" ++ p.name)
    let (own, scalars) ←
      if p.ty.isArray then do pure (← independentArray modified p v.range out, [])
      else do
        let (x, own) ← independentScalar modified p out
        pure (own, [(p.name, x)])
    let (rest, more) ← independents modified params vs
    return (own.append rest, scalars ++ more)

/-- Adjoints of the parameters that are not independent, which nobody reads in the end. -/
def otherAdjoints : List Param → Sweeping (List Stmt)
  | [] => return []
  | p :: ps => do
    if p.ty.isDifferentiable && ((← get).adjoint? p.name).isNone then
      let d ← fresh ("_d_" ++ p.name)
      bind p.name d
      let len := if p.ty.isArray then some (lenOf p.name) else none
      return adjointDecl none d len :: (← otherAdjoints ps)
    else otherAdjoints ps

/-- The call of a pullback that the source gives. -/
def customSweeps (target custom : Func) : Sweeping (List Stmt) := do
  let storage ← get
  let args := (target.params.map fun p => Expr.var p.name)
    ++ (if target.ret = .float then [.one] else [])
    ++ target.params.filterMap fun p => (storage.adjoint? p.name).map Expr.var
  return [.expr (.call custom.name args)]

/-- The name of a gradient tells the independent variables, unless they are all there are. -/
def gradientName (r : Request) (withErrors : Bool) : String :=
  let target := r.target
  if withErrors then target.name ++ "_grad_err"
  else
    let differentiable := (target.params.filter (·.ty.isDifferentiable)).length
    if r.independents.length = differentiable && r.independents.all (·.range.isNone) then
      target.name ++ "_grad"
    else target.name ++ "_grad_" ++ "_".intercalate (r.independents.map (·.name))

/-- What the sweeps of a gradient are made from. -/
def gradientSource (target : Func) (custom : Option Func) : Derivation Func :=
  match custom, target.body with
  | some _, _ => return target
  | none, some _ => prepare target
  | none, none => unsupported target.name .noPullback

/-- The gradient of a function, with an estimate of its rounding error if `epsilon` is given. -/
def gradientWith (s : Setting) (plan : Planner) (r : Request) (epsilon : Option Float) :
    Derivation Func := do
  let target := r.target
  let name ← functionName (gradientName r epsilon.isSome)
  let custom := s.registry.get? .pullback target.signature
  let source ← gradientSource target custom
  let modified := (← currentHost s).modifiedParams target
  let steps : Sweeping Func := do
    let (adjoints, scalars) ← independents modified target.params r.independents
    let others ← otherAdjoints target.params
    let sink ← errorSink epsilon true
    let c : Sweep := { Sweep.ofFunc s plan source with
      alwaysSave := if epsilon.isSome then modified else []
      error := sink }
    let sweeps ← match custom with
      | some custom => customSweeps target custom
      | none => do
        let sweeps ← c.run source.stmts
        pure (sweeps.primal ++ sweeps.adjoint)
    let errors := match sink with
      | some sink => scalars.map fun (x, d) => sink.term (.var d) (.var x)
      | none => []
    let body := adjoints.before ++ others ++ (← get).hoisted ++ sweeps ++ adjoints.after ++ errors
    return ⟨name, target.params ++ adjoints.params ++ sinkParam sink, .void, some body, target.span⟩
  steps.run' (.ofFunc source)

/-- The gradient of a function. -/
def gradient (s : Setting) (plan : Planner) (r : Request) : Derivation Func :=
  gradientWith s plan r none

end Fluxion.Derive
