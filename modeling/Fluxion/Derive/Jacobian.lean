import Fluxion.Derive.Plan

/-!
Jacobians: one adjoint sweep with a lane for each element of the outputs.
-/

namespace Fluxion.Derive

open Sweeping

/-- Adjoints of the differentiable parameters, with all lanes. -/
def laneAdjoints (lanes : Lanes) : List Param → Sweeping (List Stmt)
  | [] => return []
  | p :: ps => do
    if p.ty.isDifferentiable then
      let d ← fresh ("_d_" ++ p.name)
      bind p.name d
      let len := if p.ty.isArray then some (lenOf p.name) else none
      return adjointDecl (some lanes) d len :: (← laneAdjoints lanes ps)
    else laneAdjoints lanes ps

/-- The number of lanes: all elements of the outputs. -/
def laneCount : List String → Expr
  | [] => .int 0
  | o :: os => os.foldl (fun total x => total.indexSum (lenOf x)) (lenOf o)

/-- Parameters for the matrices of the outputs. -/
def matrixParams : List String → Sweeping (List String)
  | [] => return []
  | o :: os => do
    let m ← fresh (o ++ "_jac")
    return m :: (← matrixParams os)

/-- The elements of an independent variable; a scalar has none. -/
def elementsOf (v : Request.Independent) : List (Option Nat) :=
  match v.range with
  | some (lo, hi) => (List.range (hi + 1 - lo)).map fun k => some (lo + k)
  | none => [none]

/-- Entries of a row: the adjoint of each independent scalar in the lane of the row. -/
def rowEntries (target : Func) (lanes : Lanes) (lane : Expr) :
    List Request.Independent → Sweeping (List Expr)
  | [] => return []
  | v :: vs => do
    let p := target.params[v.param]?.getD default
    match (← get).adjoint? p.name with
    | none => unsupported target.name (.noAdjoint p.name)
    | some d =>
      let own := (elementsOf v).map fun
        | none => Expr.index d lane
        | some e => .index d (((Expr.ofNat e).indexProduct (.var lanes.count)).indexSum lane)
      return own ++ (← rowEntries target lanes lane vs)

/-- Statements around the adjoint sweep. -/
structure JacobianEnds where
  /-- Before it, each element of each output gets a one in its own lane. -/
  seeds : List Stmt
  /-- After it, each lane is a row. -/
  writes : List Stmt

/-- Seeds and rows of the outputs whose lanes begin at `offset`. -/
def jacobianEnds (target : Func) (lanes : Lanes) (vars : List Request.Independent) (width : Nat)
    (offset : Expr) : List (String × String) → Sweeping JacobianEnds
  | [] => return ⟨[], []⟩
  | (o, matrix) :: rest => do
    match (← get).adjoint? o with
    | none => unsupported target.name (.outputType o)
    | some d => do
      let i ← numbered "_i"
      let slot := ((Expr.var i).indexProduct (.var lanes.count)).indexSum
        (offset.indexSum (.var i))
      let seed := countedLoop i (lenOf o) [.update (.index d slot) .set .one]
      let r ← numbered "_r"
      let entries ← rowEntries target lanes (offset.indexSum (.var r)) vars
      let row : List Stmt := entries.zipIdx.map fun (e, column) =>
        .update (.index matrix (((Expr.var r).indexProduct (.ofNat width)).indexSum
          (.ofNat column))) .set e
      let write := countedLoop r (lenOf o) row
      let more ← jacobianEnds target lanes vars width (offset.indexSum (lenOf o)) rest
      return ⟨seed :: more.seeds, write :: more.writes⟩

/-- The jacobian of a function with the given outputs and so many independent scalars. -/
def jacobianSteps (s : Setting) (source : Func) (r : Request) (outputs : List String)
    (width : Nat) (name : String) : Sweeping Func := do
  let target := r.target
  let count ← fresh "_lanes"
  let index ← fresh "_k"
  let lanes : Lanes := ⟨count, index⟩
  let adjoints ← laneAdjoints lanes target.params
  let matrices ← matrixParams outputs
  let c : Sweep := { Sweep.ofFunc s (planner s) source with
    seed := none
    lanes := some lanes }
  let sweeps ← c.run source.stmts
  let ends ← jacobianEnds target lanes r.independents width (.int 0) (outputs.zip matrices)
  let body := .let_ count .int (some (laneCount outputs)) :: (adjoints ++ (← get).hoisted
    ++ sweeps.primal ++ ends.seeds ++ sweeps.adjoint ++ ends.writes)
  let params := target.params ++ matrices.map fun m => (⟨m, .arrayOf .float⟩ : Param)
  return ⟨name, params, .void, some body, target.span⟩

/-- The jacobian of a function. -/
def jacobian (s : Setting) (r : Request) : Derivation Func := do
  let target := r.target
  match r.scalarCount with
  | .error e => throw (.request e)
  | .ok none => unsupported target.name .missingRange
  | .ok (some width) => do
    let outputs := (Request.outputArrays (← currentHost s) target).filter fun o =>
      r.independents.all (·.param != o)
    if outputs.isEmpty then unsupported target.name .noOutputs
    else if target.body.isNone then unsupported target.name .noBody
    else
      let source ← prepare target
      let name ← functionName (target.name ++ "_jac")
      let names := outputs.filterMap fun o => target.params[o]?.map (·.name)
      (jacobianSteps s source r names width name).run' (.ofFunc source)

end Fluxion.Derive
