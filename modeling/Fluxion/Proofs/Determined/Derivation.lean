import Mathlib.Algebra.Order.BigOperators.Group.List
import Mathlib.Algebra.Order.Ring.Nat
import Fluxion.Proofs.Determined.Analyses
import Fluxion.Proofs.Emitted.Derivations
import Fluxion.Proofs.Session.Loaded

/-!
Differentiation ends. Planning, deriving and the analyses that they ask are each the one solution of
an equation without any count of steps, so that the limit on derivatives under way and the bodies
of functions bound all recursion. What is left is the count of independent scalars, which may not
fit a machine word.
-/

namespace Fluxion

/-! ### The count of independent scalars -/

namespace Request

/-- The number of independent scalars, a scalar parameter being one. -/
def scalars (r : Request) : Nat := (r.independents.map fun v => v.count?.getD 1).sum

theorem addCounts_eq_error {total : Nat} {counts : List (Option Nat)} {e : RequestError}
    (h : addCounts total counts = .error e) :
    e = .countOverflow ∧ countLimit ≤ total + (counts.map (·.getD 1)).sum := by
  induction counts generalizing total with
  | nil => cases h
  | cons count rest ih =>
    cases count with
    | none => cases h
    | some n =>
      simp only [addCounts] at h
      simp only [List.map_cons, Option.getD_some, List.sum_cons]
      split at h
      · obtain ⟨he, hle⟩ := ih h
        exact ⟨he, by omega⟩
      · cases h
        exact ⟨rfl, by omega⟩

/-- Only more scalars than a machine word counts cannot be counted. -/
theorem scalarCount_eq_error {r : Request} {e : RequestError} (h : r.scalarCount = .error e) :
    e = .countOverflow ∧ countLimit ≤ r.scalars := by
  obtain ⟨he, hle⟩ := addCounts_eq_error h
  refine ⟨he, Nat.le_trans hle ?_⟩
  rw [Nat.zero_add, List.map_map, scalars]
  refine List.sum_le_sum fun v _ => ?_
  dsimp only [Function.comp_apply]
  split
  · exact Nat.le_refl _
  · cases hrange : v.range with
    | none => simp [Independent.count?, hrange]
    | some bounds => simp [Independent.count?, hrange]

end Request

namespace Derive

open Analysis (writtenStep exitsStep exitsCleanly)
open Canonical (liftStep liftReturns)
open Library (DerivativeKind Registry)

/-! ### Derivatives of functions -/

/-- The name of a derivative of a function, where `recur` derives while one more derivative is under
way. -/
def deriveStep (s : Setting) (recur : Chain → DerivativeKind → Func → Derivation String)
    (chain : Chain) (kind : DerivativeKind) (callee : Func) : Derivation String := do
  let key : Key := ⟨kind, callee.signature⟩
  match ← known? chain key callee with
  | some name => return name
  | none =>
    if s.options.maxDepth ≤ chain.length then
      throw (.depthLimit s.options.maxDepth (chain.functions ++ [callee.name]))
    else do
      let name ← functionName (callee.name ++ "_" ++ kindWord kind)
      let plan := planWith s (recur (chain ++ [⟨key, name⟩]))
      let f ← orDiscard (synthesize s plan kind callee name)
      modify fun p => (p.setMemo key name).addSupport f
      return name

/-- Derivatives of functions while the derivatives of a chain are under way. -/
def deriveUnder (s : Setting) (chain : Chain) : DerivativeKind → Func → Derivation String :=
  deriveAt s (s.options.maxDepth - chain.length) chain

theorem deriveStep_deriveUnder (s : Setting) : deriveStep s (deriveUnder s) = deriveUnder s := by
  funext chain kind callee
  unfold deriveUnder
  cases hdepth : s.options.maxDepth - chain.length with
  | zero =>
    have hlimit : s.options.maxDepth ≤ chain.length := by omega
    simp only [deriveStep, deriveAt, hlimit, if_true] <;> rfl
  | succ depth =>
    have hlimit : ¬ s.options.maxDepth ≤ chain.length := by omega
    have hnext : s.options.maxDepth - (chain.length + 1) = depth := by omega
    simp only [deriveStep, deriveAt, hlimit, if_false, List.length_append, List.length_singleton,
      hnext] <;> rfl

/-- Deriving ends, whatever calls whatever: one more derivative under way leaves room for fewer. -/
theorem determines_deriveUnder (s : Setting) : Determines (deriveStep s) (deriveUnder s) := by
  refine .of_smaller (fun chain => s.options.maxDepth - chain.length) (deriveStep_deriveUnder s)
    fun recur chain hsmaller => ?_
  funext kind callee
  unfold deriveStep
  by_cases hlimit : s.options.maxDepth ≤ chain.length
  · simp only [hlimit, if_true]
  · have hnext : ∀ u : UnderWay, recur (chain ++ [u]) = deriveUnder s (chain ++ [u]) := by
      intro u
      apply hsmaller
      rw [List.length_append, List.length_singleton]
      omega
    simp only [hlimit, if_false, hnext]

/-! ### Requests -/

theorem derivedFunc_of_scalarCount {s : Setting} {r : Request} {e : Request.RequestError}
    (hmode : r.mode = .hessian ∨ r.mode = .jacobian) (hcount : r.scalarCount = .error e)
    (st : Progress) : derivedFunc s r st = .error (.request e) st := by
  unfold derivedFunc
  rcases hmode with hmode | hmode
  · simp only [hmode, hessian, hcount]
    rfl
  · simp only [hmode, jacobian, hcount]
    rfl

/-- A request is at fault during its differentiation only if its scalars cannot be counted. -/
theorem differentiate_eq_request {p : Program} {registry : Registry} {options : Options}
    {r : Request} {e : Request.RequestError} :
    differentiate p registry options r = .error (.request e) ↔
      (r.mode = .hessian ∨ r.mode = .jacobian) ∧ r.scalarCount = .error e := by
  constructor
  · intro hfail
    have hend := Accounted.ends_derivedFunc (s := Setting.make p registry options r.mode) (r := r)
      (Accounted.start p rfl)
    unfold differentiate at hfail
    unfold Account.Ends at hend
    cases hrun : derivedFunc (Setting.make p registry options r.mode) r (Progress.start p) with
    | ok func st =>
      rw [hrun] at hfail
      cases hfail
    | error e' st =>
      rw [hrun] at hfail hend
      cases hfail
      exact hend.1.2 e rfl
  · rintro ⟨hmode, hcount⟩
    rw [differentiate, derivedFunc_of_scalarCount hmode hcount]

/-- A function of two arrays, with a request for its hessian that has too many scalars. -/
def firstElements : Session.Sample
    ⟨"f", .hessian, some "a[0:9223372036854775807], b[0:9223372036854775807]", 1, .standard⟩
    fun _ _ r => decide (r.mode = .hessian) && r.scalarCount.toOption.isNone where
  source := "fn f(a: [f64], b: [f64]) -> f64 \x7b return a[0] * b[0]; \x7d"
  admitted := by decide +kernel

end Derive

end Fluxion
