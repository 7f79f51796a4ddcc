import Fluxion.Analysis.Effects
import Fluxion.Derive.Error
import Fluxion.Derive.Options
import Fluxion.Library.Registry
import Fluxion.Names

/-!
The state of a differentiation: the functions derived so far, and what was decided about calls.
It outlives a failure, because a caller may fall back on numerical differentiation.
-/

namespace Fluxion.Derive

open Library (DerivativeKind Registry)

/-- How calls of a function are differentiated. -/
inductive CallPlan where
  /-- Nothing differentiable goes in. -/
  | inactive
  /-- By a derivative that the source gives. -/
  | custom (derivative : String)
  /-- By a derivative that was derived. -/
  | derived (derivative : String)
  /-- By finite differences. -/
  | numerical
deriving DecidableEq, Repr

/-- The plan is to call one of the functions. -/
def CallPlan.usesAny (plan : CallPlan) (names : List String) : Bool :=
  match plan with
  | .derived name => names.contains name
  | _ => false

/-- A derivative that may be asked for. -/
structure Key where
  kind : DerivativeKind
  primal : Signature
deriving DecidableEq, Repr

/-- What a differentiation works with. -/
structure Setting where
  program : Program
  registry : Registry
  options : Options
  /-- The relative error of one operation, if derived pullbacks add up errors. -/
  errorEpsilon : Option Float

/-- What a differentiation has come to. -/
structure Progress where
  /-- Derived functions, in the order in which they were finished. -/
  support : List Func
  memo : List (Key × String)
  plans : List (Key × CallPlan)
  warnings : List Warning
  /-- Names of functions. -/
  names : NameSupply
deriving Repr

/-- Steps of a differentiation. -/
abbrev Derivation := EStateM DeriveError Progress

/-- Decides how calls of a function from a caller are differentiated. -/
abbrev Planner := DerivativeKind → Func → String → Derivation CallPlan

namespace Progress

/-- Nothing is derived, and the functions of the program have their names. -/
def start (p : Program) : Progress :=
  ⟨[], [], [], [], NameSupply.empty.reserveAll (p.map (·.name))⟩

/-- Records a decision, in place of an earlier one. -/
def setPlan (s : Progress) (key : Key) (plan : CallPlan) : Progress :=
  { s with plans := (key, plan) :: s.plans.filter (·.1 != key) }

/-- Records the name of a derivative. -/
def setMemo (s : Progress) (key : Key) (name : String) : Progress :=
  { s with memo := (key, name) :: s.memo.filter (·.1 != key) }

/-- Adds a derived function. -/
def addSupport (s : Progress) (f : Func) : Progress :=
  { s with support := s.support ++ [f], names := s.names.reserve f.name }

/-- Adds a warning, once. -/
def warn (s : Progress) (w : Warning) : Progress :=
  if s.warnings.contains w then s else { s with warnings := s.warnings ++ [w] }

/-- How much is derived. -/
structure Mark where
  support : Nat
  warnings : Nat
deriving DecidableEq, Repr

/-- How much is derived. -/
def mark (s : Progress) : Mark := ⟨s.support.length, s.warnings.length⟩

/-- Drops what was derived since a mark, and every decision to use it. Names stay taken. -/
def discard (s : Progress) (m : Mark) : Progress :=
  let dropped := (s.support.drop m.support).map (·.name)
  { s with
    support := s.support.take m.support
    warnings := s.warnings.take m.warnings
    memo := s.memo.filter fun (_, name) => !dropped.contains name
    plans := s.plans.filter fun (_, plan) => !plan.usesAny dropped }

end Progress

/-- Fails because `function` holds something that no rule covers. -/
def unsupported {α : Type} (function : String) (obstacle : Obstacle) : Derivation α :=
  throw (.unsupported function obstacle)

/-- A name with `_` for every `::`. -/
def plainName (name : String) : String := "_".intercalate (nameParts name)

/-- A name for a new function. -/
def functionName (base : String) : Derivation String :=
  modifyGet fun s =>
    let (name, names) := s.names.fresh (plainName base)
    (name, { s with names })

/-- The functions that calls reach: derived ones first, then those of the program. -/
def Setting.host (s : Setting) (p : Progress) : Host := ⟨s.program, p.support⟩

/-- The functions that calls reach by now. -/
def currentHost (s : Setting) : Derivation Host := return s.host (← get)

/-- Runs a derivation; what it derived is dropped if it fails. -/
def orDiscard {α : Type} (m : Derivation α) : Derivation α := fun s =>
  let mark := s.mark
  match m s with
  | .ok a s => .ok a s
  | .error e s => .error e (s.discard mark)

end Fluxion.Derive
