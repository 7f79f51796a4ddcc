import Fluxion.Proofs.Analysis.Effects
import Fluxion.Proofs.Typing.Agreement

/-!
The types that are inferred without checking are those of the checker, wherever an expression stands
in a function that passed: at each point of its body with the variables in scope there, and for the
arguments by which calls are resolved.
-/

namespace Fluxion.Typing

theorem types?_of_checkExprs {resolve : Resolver} {env : TyEnv} {es : List Expr} {types : List Ty}
    (h : checkExprs resolve env es = .ok types) : types? resolve env es = some types := by
  induction es generalizing types with
  | nil =>
    cases h
    rfl
  | cons e es ih =>
    obtain ⟨t, rest, ht, hrest, rfl⟩ := of_checkExprs_cons h
    simp [types?, type?_of_checkExpr ht, ih hrest]

/-- The call is resolved by the same types with checking and without, and to the same function; of a
numerical derivative, the function it is taken of. -/
def ResolvedAlike (h : Host) (env flat : TyEnv) (name : String) (args : List Expr) : Prop :=
  match Intrinsic.ofName? name with
  | none => ∃ types callee, checkArgs h.program.resolve env args = .ok types ∧
      h.program.resolve name types = some callee ∧ types? h.resolve flat args = some types ∧
      h.callee? flat name args = some callee
  | some .centralDifference => ∃ target k print rest types callee,
      args = .funcRef target :: k :: print :: rest ∧
      checkExprs h.program.resolve env rest = .ok types ∧
      h.program.resolve target types = some callee ∧ types? h.resolve flat rest = some types ∧
      h.resolve target types = some callee
  | _ => True

/-- Derived functions with names of their own change nothing in how a checked call is resolved. -/
theorem resolvedAlike_of_checkExpr {h : Host} {env flat : TyEnv} {name : String} {args : List Expr}
    {t : Ty} (hsame : ∀ q ∈ h.program, h.resolve q.name = h.program.resolve q.name)
    (hflat : ∀ x, flat.lookup x = env.lookup x)
    (ht : checkExpr h.program.resolve env (.call name args) = .ok t) :
    ResolvedAlike h env flat name args := by
  obtain ⟨_, hargs⟩ := Rule.expr_call.mp (calls_of_checkExpr _ ht)
  unfold ResolvedAlike
  split
  · rename_i hname
    obtain ⟨types, callee, htypes, hcallee, _⟩ := of_checkExpr_call ht hname
    have hinfer : types? h.resolve flat args = some types := by
      rw [types?_congr hsame hflat args hargs, types?_of_checkArgs htypes]
    obtain ⟨hmem, rfl⟩ := mem_of_resolve hcallee
    refine ⟨types, callee, htypes, hcallee, hinfer, ?_⟩
    simp [Host.callee?, hinfer, hsame callee hmem, hcallee]
  · rename_i hname
    obtain ⟨target, k, print, rest, types, callee, rfl, _, _, htypes, hcallee, _⟩ :=
      of_checkExpr_difference ht hname
    have hrest : (Rule.calls h.program).Exprs rest := fun e he => hargs e (by simp [he])
    obtain ⟨hmem, rfl⟩ := mem_of_resolve hcallee
    refine ⟨_, k, print, rest, types, callee, rfl, htypes, hcallee, ?_, ?_⟩
    · rw [types?_congr hsame hflat rest hrest, types?_of_checkExprs htypes]
    · rw [hsame callee hmem, hcallee]
  · trivial

/-- Wherever an expression stands in a function that passed the checker, the type that is inferred
from a flat table of the variables in scope, also among derived functions, is the checker's, and
every call in it is resolved as the checker resolved it. -/
theorem inferred_as_checked {h : Host} (hapart : ∀ g ∈ h.derived, ∀ q ∈ h.program, g.name ≠ q.name)
    {f : Func} (hf : checkFunc h.program.resolve f = .ok ()) :
    f.points.map (·.2) = partsOf f.stmts ∧
    ∀ env e, (env, e) ∈ f.points → ∀ flat : TyEnv, (∀ x, flat.lookup x = env.lookup x) →
      ((∃ g, e = .funcRef g) ∨ ∃ t, checkExpr h.program.resolve env e = .ok t ∧
        e.type? h.resolve flat = some t) ∧
      ∀ name args, Expr.call name args ∈ e.parts → ResolvedAlike h env flat name args := by
  refine ⟨map_pointsIn _ _, fun env e he flat hflat => ?_⟩
  have hsame : ∀ q ∈ h.program, h.resolve q.name = h.program.resolve q.name := fun q hq =>
    Host.resolve_of_mem rfl hapart hq
  rcases (passed_of_checkFunc hf).checked _ he with ⟨g, rfl⟩ | ⟨t, ht⟩
  · exact ⟨.inl ⟨g, rfl⟩, fun name args hcall => by simp [Expr.parts] at hcall⟩
  refine ⟨.inr ⟨t, ht, ?_⟩, fun name args hcall => ?_⟩
  · rw [type?_congr hsame hflat e (calls_of_checkExpr e ht)]
    exact type?_of_checkExpr ht
  · rcases checked_of_checkExpr e ht _ hcall with ⟨_, hnone⟩ | ⟨t', ht'⟩
    · cases hnone
    · exact resolvedAlike_of_checkExpr hsame hflat ht'

/-- The caller among a function derived from it, with its variables in the order in which they were
declared. -/
theorem inferred_as_checked_caller :
    let p := (Machine.picking (some 3) (some 3)).funcs
    let h : Host := ⟨p, [{ Machine.caller with name := "caller_grad" }]⟩
    checkFunc p.resolve Machine.caller = .ok () ∧
    ResolvedAlike h Machine.caller.scope Machine.caller.scope.reverse "pick" [.var "a", .var "n"] := by
  have hf : checkFunc (Machine.picking (some 3) (some 3)).funcs.resolve Machine.caller = .ok () :=
    checkFunc_of_check (by decide +kernel) (by simp [Machine.picking])
  refine ⟨hf, ?_⟩
  have hall := inferred_as_checked
    (h := ⟨(Machine.picking (some 3) (some 3)).funcs, [{ Machine.caller with name := "caller_grad" }]⟩)
    (by decide +kernel) hf
  refine (hall.2 Machine.caller.scope (.call "pick" [.var "a", .var "n"]) ?_ _ ?_).2 _ _ ?_
  · simp [Func.points, Func.stmts, Machine.caller, pointsIn, Stmt.points, Expr.parts, Func.scope]
  · intro x
    by_cases hn : x = "n"
    · subst hn
      rfl
    by_cases ha : x = "a"
    · subst ha
      rfl
    simp [Machine.caller, Func.scope, lookup_cons_of_ne hn, lookup_cons_of_ne ha]
  · simp [Expr.parts]

end Fluxion.Typing
