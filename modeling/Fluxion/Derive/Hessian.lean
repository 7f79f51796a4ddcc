import Fluxion.Derive.Plan

/-!
Hessians: the gradient pushed forward along each independent scalar gives one column.
-/

namespace Fluxion.Derive

/-- The independent scalars of a request, in the order of rows and columns. -/
def scalarsOf (r : Request) : List Direction :=
  r.independents.flatMap fun v =>
    match v.range with
    | some (lo, hi) => (List.range (hi + 1 - lo)).map fun k => ⟨v.param, some (lo + k)⟩
    | none => [⟨v.param, none⟩]

/-- Variables of the columns, which each column declares for itself. -/
structure HessianNames where
  /-- Copies of the parameters. -/
  copies : List String
  /-- Tangents of the parameters. -/
  seeds : List String
  /-- Outputs of the gradient, each with its tangent. -/
  gradients : List (String × String)
  counter : String

/-- Takes a name for each of a list of bases. -/
def freshAll (names : NameSupply) : List String → List String × NameSupply
  | [] => ([], names)
  | base :: rest =>
    let (x, names) := names.fresh base
    let (xs, names) := freshAll names rest
    (x :: xs, names)

/-- Takes two names for each number from `j` on. -/
def freshPairs (names : NameSupply) (j : Nat) : Nat → List (String × String) × NameSupply
  | 0 => ([], names)
  | n + 1 =>
    let (d, names) := names.fresh ("_h_d" ++ toString j)
    let (dd, names) := names.fresh ("_h_dd" ++ toString j)
    let (rest, names) := freshPairs names (j + 1) n
    ((d, dd) :: rest, names)

/-- The variables of the columns of a function with so many independent variables. -/
def HessianNames.take (names : NameSupply) (params : List Param) (count : Nat) : HessianNames :=
  let (copies, names) := freshAll names (params.map fun p => "_h_" ++ p.name)
  let (seeds, names) := freshAll names (params.map fun p => "_h_t_" ++ p.name)
  let (gradients, names) := freshPairs names 0 count
  ⟨copies, seeds, gradients, (names.fresh "_h_i").1⟩

/-- One parameter in a column: declarations, the argument, and its tangent if it has one. -/
structure HessianArg where
  before : List Stmt
  primal : Expr
  tangent : Option Expr

/-- What is passed for a parameter. Storage that the function writes is copied first. -/
def primalArg (p : Param) (copy counter : String) (written : Bool) : List Stmt × Expr :=
  match p.ty with
  | .ref inner => ([.let_ copy inner (some (.var p.name))], .var copy)
  | .array elem _ =>
    if written then
      ([.arrayDecl copy elem (lenOf p.name), copyLoop counter copy p.name], .var copy)
    else ([], .var p.name)
  | _ => ([], .var p.name)

/-- The tangent of a parameter: one along the direction and zero else. -/
def tangentArg (p : Param) (seed : String) (here : Bool) (element : Option Nat) :
    List Stmt × Option Expr :=
  if p.ty.tangent?.isNone then ([], none)
  else
    let start : Expr := if here then .one else .zero
    match p.ty with
    | .float => ([], some start)
    | .ref _ => ([.let_ seed .float (some start)], some (.var seed))
    | _ =>
      let mark : List Stmt := match here, element with
        | true, some e => [.update (.index seed (.ofNat e)) .set .one]
        | _, _ => []
      (.arrayDecl seed .float (lenOf p.name) :: mark, some (.var seed))

/-- The parameters from position `i` on in the column of a direction. -/
def hessianArgs (names : HessianNames) (written : List Nat) (along : Direction) (i : Nat) :
    List Param → List HessianArg
  | [] => []
  | p :: ps =>
    let (before, primal) :=
      primalArg p (names.copies[i]?.getD "") names.counter (written.contains i)
    let (seeding, tangent) :=
      tangentArg p (names.seeds[i]?.getD "") (along.param == i) along.element
    ⟨before ++ seeding, primal, tangent⟩ :: hessianArgs names written along (i + 1) ps

/-- The declaration of an output of the gradient: a scalar, or as many elements as its range. -/
def outputDecl (shape : Option Nat) (x : String) : Stmt :=
  match shape with
  | none => .let_ x .float (some .zero)
  | some n => .arrayDecl x .float (.ofNat n)

/-- The entries of a column that an output of the gradient holds. -/
def columnEntries (shape : Option Nat) (dd : String) : List Expr :=
  match shape with
  | none => [.var dd]
  | some n => (List.range n).map fun k => .index dd (.ofNat k)

/-- Column `c` of a matrix with `n` columns. -/
def hessianColumn (target : Func) (shapes : List (Option Nat)) (written : List Nat)
    (names : HessianNames) (pushed matrix : String) (n c : Nat) (along : Direction) : Stmt :=
  let args := hessianArgs names written along 0 target.params
  let outputs := names.gradients.zip shapes
  let decls := outputs.flatMap fun ((d, dd), shape) => [outputDecl shape d, outputDecl shape dd]
  let call : Expr := .call pushed
    (args.map (·.primal) ++ outputs.map (fun o => .var o.1.1) ++ args.filterMap (·.tangent)
      ++ outputs.map fun o => .var o.1.2)
  let entries := outputs.flatMap fun ((_, dd), shape) => columnEntries shape dd
  let writes : List Stmt := entries.zipIdx.map fun (e, row) =>
    .update (.index matrix (.ofNat (row * n + c))) .set e
  .block (args.flatMap (·.before) ++ decls ++ [.expr call] ++ writes)

/-- The hessian of a function. -/
def hessian (s : Setting) (r : Request) : Derivation Func := do
  let target := r.target
  match r.scalarCount with
  | .error e => throw (.request e)
  | .ok none => unsupported target.name .missingRange
  | .ok (some n) => do
    let grad ← gradient s (planner s) r
    modify (·.addSupport grad)
    let pushed ← derive s .pushforward grad
    let written := (← currentHost s).writtenParams target
    let (matrix, supply) := (NameSupply.ofFunc target).fresh "hessian"
    let names := HessianNames.take supply target.params r.independents.length
    let shapes := r.independents.map (·.count?)
    let body := (scalarsOf r).zipIdx.map fun (along, c) =>
      hessianColumn target shapes written names pushed matrix n c along
    let name ← functionName (target.name ++ "_hessian")
    return ⟨name, target.params ++ [⟨matrix, .arrayOf .float⟩], .void, some body, target.span⟩

end Fluxion.Derive
