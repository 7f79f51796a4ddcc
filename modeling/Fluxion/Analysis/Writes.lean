import Fluxion.Analysis.Usage
import Fluxion.Typing.Infer

/-!
Which parameters a function may write, itself or through the functions it calls. A function is
looked into once; a native function writes its references.
-/

namespace Fluxion.Analysis

/-- The parameter of `f` whose storage an argument passes on. -/
def passedOn (f : Func) (arg : Expr) : Option Nat := do
  let place ← arg.place?
  let (i, p) ← f.param? place.name
  if p.ty.isShared then some i else none

/-- Positions of the parameters of a type that `p` holds of. -/
def positions (f : Func) (p : Param → Bool) : List Nat :=
  (f.params.zipIdx.filter fun (q, _) => p q).map (·.2)

/-- Positions that may be written, and the functions looked into by then. -/
abbrev Written := List Nat × List Signature

/-- Parameters of `f` that the given calls in its body may write, where `visit` looks into a
callee. -/
def writtenByCalls (resolve : Resolver) (visit : List Signature → Func → Written) (f : Func)
    (seen : List Signature) : List (String × List Expr) → Written
  | [] => ([], seen)
  | (name, args) :: rest =>
    if (Intrinsic.ofName? name).isSome then writtenByCalls resolve visit f seen rest
    else
      match (types? resolve f.env args).bind (resolve name) with
      | none => writtenByCalls resolve visit f seen rest
      | some callee =>
        let (positions, seen) := visit seen callee
        let passed := positions.filterMap fun i => args[i]?.bind (passedOn f)
        let (more, seen) := writtenByCalls resolve visit f seen rest
        (passed ++ more, seen)

/-- Parameters of a function that may be written, when functions are looked into at most `limit`
calls deep. -/
def writtenFrom (resolve : Resolver) : Nat → List Signature → Func → Written
  | 0, seen, _ => ([], seen)
  | limit + 1, seen, f =>
    match f.body with
    | none => (positions f (·.ty.isRef), seen)
    | some body =>
      if seen.contains f.signature then ([], seen)
      else
        let names := paramsWritten f
        let direct := positions f fun p => p.ty.isShared && names.contains p.name
        let (passed, seen) :=
          writtenByCalls resolve (writtenFrom resolve limit) f (f.signature :: seen) (calls body)
        (direct ++ passed, seen)

end Fluxion.Analysis

namespace Fluxion.Host

/-- Positions of the parameters that `f` may write, in order. -/
def writtenParams (h : Host) (f : Func) : List Nat :=
  let written := (Analysis.writtenFrom h.resolve (h.size + 2) [] f).1
  (List.range f.params.length).filter written.contains

end Fluxion.Host
