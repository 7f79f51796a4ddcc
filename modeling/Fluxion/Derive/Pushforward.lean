import Fluxion.Canonical.Renaming
import Fluxion.Derive.Tangent

/-!
Functions of forward mode: the pushforward of a function, which takes the tangents of its
parameters, and the derivative of a function along one independent scalar.
-/

namespace Fluxion.Derive

/-- Gives each differentiable parameter a tangent, which is a parameter too. -/
def tangentParams (t : TangentScope) : List Param → List Param × TangentScope
  | [] => ([], t)
  | p :: ps =>
    match p.ty.tangent? with
    | none => tangentParams t ps
    | some ty =>
      let (d, t) := t.declare p.name
      let (rest, t) := tangentParams t ps
      (⟨d, ty⟩ :: rest, t)

/-- The pushforward of a function: beside a result that is a float it has the tangent as result,
and it has the effects of the function. -/
def pushforward (s : Setting) (plan : Planner) (callee : Func) (name : String) : Derivation Func := do
  let f := Canonical.uniqueLocals callee
  match f.body with
  | none => unsupported f.name .noBody
  | some body =>
    let returns := f.ret == .float
    let (tangents, t) := tangentParams (.ofFunc f) f.params
    let (body, _) ← tangentBody s plan returns t body
    return ⟨name, f.params ++ tangents, if returns then .float else .void, some body, f.span⟩

/-- What is differentiated along: a parameter, or one of its elements. -/
structure Direction where
  param : Nat
  element : Option Nat
deriving DecidableEq, Repr

/-- Tangents of the parameters from position `i` on, set up such that the direction has one and
all else has zero. -/
def seedParams (t : TangentScope) (along : Direction) (i : Nat) :
    List Param → List Stmt × List Expr × TangentScope
  | [] => ([], [], t)
  | p :: ps =>
    match p.ty.tangent? with
    | none => seedParams t along (i + 1) ps
    | some ty =>
      let (d, t) := t.declare p.name
      let here := i == along.param
      let own : List Stmt :=
        if ty.isArray then
          .arrayDecl d .float (lenOf p.name)
            :: (match here, along.element with
              | true, some e => [.update (.index d (.ofNat e)) .set .one]
              | _, _ => [])
        else [.let_ d .float (some (if here && along.element.isNone then .one else .zero))]
      let (rest, args, t) := seedParams t along (i + 1) ps
      (own ++ rest, .var d :: args, t)

/-- The derivative of a function along a direction. -/
def seeded (s : Setting) (plan : Planner) (f : Func) (along : Direction) (name : String) :
    Derivation Func := do
  let custom := s.registry.get? .pushforward f.signature
  let f := Canonical.uniqueLocals f
  let (seeds, tangents, t) := seedParams (.ofFunc f) along 0 f.params
  let body ← match custom, f.body with
    | some custom, _ =>
      let args := (f.params.map fun p => Expr.var p.name) ++ tangents
      pure [Stmt.ret (some (.call custom.name args))]
    | none, some body => do
      let (body, _) ← tangentBody s plan true t body
      pure body
    | none, none => unsupported f.name .noPushforward
  return ⟨name, f.params, .float, some (seeds ++ body), f.span⟩

/-- The part of a derivative's name that tells its direction. -/
def Direction.text (d : Direction) : String :=
  "arg" ++ toString d.param ++ (d.element.map fun e => "_" ++ toString e).getD ""

/-- Differentiates `rest` more times, where `f` is the derivative of order `k - 1`. -/
def seededFrom (s : Setting) (plan : Planner) (target : String) (along : Direction) (f : Func)
    (k : Nat) : Nat → Derivation Func
  | 0 => return f
  | rest + 1 => do
    let order := if k = 1 then "" else toString k
    let name ← functionName (target ++ "_d" ++ order ++ along.text)
    let f ← seeded s plan f along name
    seededFrom s plan target along f (k + 1) rest

/-- The derivative that a request in forward mode asks for. -/
def directional (s : Setting) (plan : Planner) (r : Request) : Derivation Func := do
  let target := r.target
  if target.ret ≠ .float then unsupported target.name (.forwardResult target.ret)
  else
    match r.independents with
    | [] => unsupported target.name .noIndependent
    | v :: _ =>
      let along : Direction := ⟨v.param, v.range.map (·.1)⟩
      seededFrom s plan target.name along target 1 r.order

end Fluxion.Derive
