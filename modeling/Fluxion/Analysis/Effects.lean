import Fluxion.Analysis.Writes

/-!
Effects of calls on differentiable storage, and expressions that may be evaluated twice.
-/

namespace Fluxion.Host

/-- A call of the function can change floats of its caller. -/
def hasEffects (h : Host) (f : Func) : Bool :=
  (h.writtenParams f).any fun i => f.params[i]?.any (·.ty.isDifferentiable)

/-- Parameters that a function assigns, itself or through calls. -/
def modifiedParams (h : Host) (f : Func) : List String :=
  Analysis.paramsWritten f ++ (h.writtenParams f).filterMap fun i => f.params[i]?.map (·.name)

end Fluxion.Host

namespace Fluxion.Analysis

/-- What keeps an expression from being evaluated twice: a tape, or a call with effects. -/
inductive Effect where
  | tape (f : String)
  | write (f : String)
deriving DecidableEq, Repr

/-- The effect of a single expression, its parts apart. -/
def effectOf? (h : Host) (env : TyEnv) : Expr → Option Effect
  | .call f args =>
    match Intrinsic.ofName? f with
    | some .push | some .pop => some (.tape f)
    | some _ => none
    | none =>
      match h.callee? env f args with
      | some callee => if h.hasEffects callee then some (.write f) else none
      | none => none
  | _ => none

/-- The first effect in an expression. -/
def firstEffect? (h : Host) (env : TyEnv) (e : Expr) : Option Effect :=
  e.parts.findSome? (effectOf? h env)

end Fluxion.Analysis
