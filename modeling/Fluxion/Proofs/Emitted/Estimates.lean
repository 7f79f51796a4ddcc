import Fluxion.Proofs.Analysis.Usage
import Fluxion.Proofs.Emitted.Derivations
import Fluxion.Proofs.Library.Registry
import Fluxion.Proofs.Session.Loaded

/-!
Estimates are announced. Whoever runs a derived function can tell from the warnings which of its
derivatives are numerical: each is named together with a function that it was derived for.
-/

namespace Fluxion.Derive

open Library (Registry)

/-- What a differentiation with the given outcome has on record. -/
theorem accounted_of_differentiate {p : Program} {registry : Registry} {options : Options}
    {r : Request} {d : Derived} (hd : differentiate p registry options r = .ok d) :
    ∃ st, Accounted (Setting.make p registry options r.mode) r st ∧ st.support = d.support ∧
      st.warnings = d.warnings ∧ (r.order ≠ 0 →
        Accounted.Answers (Setting.make p registry options r.mode) r (Progress.start p) d.func
          st) := by
  have hend := Accounted.ends_derivedFunc (s := Setting.make p registry options r.mode) (r := r)
    (Accounted.start p rfl)
  unfold differentiate at hd
  unfold Account.Ends at hend
  cases hrun : derivedFunc (Setting.make p registry options r.mode) r (Progress.start p) with
  | error e st =>
    rw [hrun] at hd
    cases hd
  | ok func st =>
    rw [hrun] at hd hend
    cases hd
    exact ⟨st, hend.1, rfl, rfl, hend.2.2⟩

/-- All derived functions have origins for which their estimates are announced. -/
theorem announced_of_mem_funcs {p : Program} {registry : Registry} {options : Options}
    {r : Request} {d : Derived} (horder : r.order ≠ 0)
    (hd : differentiate p registry options r = .ok d) {g : Func} (hg : g ∈ d.funcs) :
    ∃ f, DerivedFrom (Setting.make p registry options r.mode) r d.support g f ∧ ∀ args,
      .call Intrinsic.centralDifferenceName args ∈ partsOf g.stmts →
      (Setting.make p registry options r.mode).Quiet r →
      options.numericalFallback = true ∧ ∃ h, referred args = some h ∧
        Warned (Setting.make p registry options r.mode) r d.support d.warnings h f := by
  obtain ⟨st, hacc, hsupport, hwarnings, hanswer⟩ := accounted_of_differentiate hd
  have horigin : ∃ f, DerivedFrom (Setting.make p registry options r.mode) r st.support g f ∧
      CallsWith (Announced (Setting.make p registry options r.mode) r f st) (partsOf g.stmts) := by
    rcases List.mem_append.mp hg with hg | hg
    · exact hacc.origin g (hsupport ▸ hg)
    · obtain rfl : g = d.func := List.mem_singleton.mp hg
      exact (hanswer horder).origin
  obtain ⟨f, hf, hcalls⟩ := horigin
  rw [hsupport] at hf
  refine ⟨f, hf, fun args hcall hquiet => ?_⟩
  obtain ⟨hon, h, href, hw⟩ := hcalls _ args hcall hquiet rfl
  rw [hsupport, hwarnings] at hw
  exact ⟨hon, h, href, hw⟩

/-- A program that estimates no derivative itself gives a quiet start. -/
theorem quiet_make {p : Program} {registry : Registry} {options : Options} {r : Request}
    (hquiet : ∀ f ∈ p, Intrinsic.centralDifferenceName ∉ Analysis.callees f.stmts)
    (hreg : Registry.ofProgram p = .ok registry) (hr : r.target ∈ p) :
    (Setting.make p registry options r.mode).Quiet r where
  source f hf args hcall := by
    have hmem : f ∈ p := hf.elim id fun heq => heq ▸ hr
    exact hquiet f hmem (Analysis.mem_callees.mpr ⟨args, hcall⟩)
  custom kind sig f hget hname := by
    have hsplit := (Registry.fits_of_get? hreg hget).split
    have hnone : Registry.splitName Intrinsic.centralDifferenceName = none := by decide +kernel
    rw [hname, hnone] at hsplit
    cases hsplit

/-- Every estimate in a derived function is announced, under the name of the function it was
derived from, or, where it stands in the code of that function already, of one that this function
goes back to. No warning is repeated, and there are only estimates that were asked for. -/
theorem estimates_are_announced {p : Program} {registry : Registry} {options : Options}
    {target : Func} {mode : Request.Mode} {wrt : Option String} {order : Nat} {r : Request}
    {d : Derived} (hquiet : ∀ f ∈ p, Intrinsic.centralDifferenceName ∉ Analysis.callees f.stmts)
    (hreg : Registry.ofProgram p = .ok registry) (htarget : target ∈ p)
    (hr : Request.make (.ofProgram p) target mode wrt order = .ok r)
    (hd : differentiate p registry options r = .ok d) :
    d.warnings.Nodup ∧ ∀ g ∈ d.funcs, ∃ f,
      DerivedFrom (Setting.make p registry options r.mode) r d.support g f ∧ ∀ args,
        .call Intrinsic.centralDifferenceName args ∈ partsOf g.stmts →
          options.numericalFallback = true ∧ ∃ h, referred args = some h ∧
            Warned (Setting.make p registry options r.mode) r d.support d.warnings h f ∧
            (f ∈ p → ⟨f.name, h⟩ ∈ d.warnings) := by
  have hacc := Request.accepted_of_make hr
  have hmem : r.target ∈ p := hacc.target ▸ htarget
  have horder : r.order ≠ 0 := hacc.order_eq ▸ hacc.order_pos
  obtain ⟨st, hst, _, hwarnings, _⟩ := accounted_of_differentiate hd
  refine ⟨hwarnings ▸ hst.warnings, fun g hg => ?_⟩
  obtain ⟨f, hf, hcalls⟩ := announced_of_mem_funcs horder hd hg
  refine ⟨f, hf, fun args hcall => ?_⟩
  obtain ⟨hon, h, href, hw⟩ := hcalls args hcall (quiet_make hquiet hreg hmem)
  refine ⟨hon, h, href, hw, fun hfp => ?_⟩
  cases hw with
  | here hin => exact hin
  | takenOver hest _ _ =>
    obtain ⟨args', hcall', _⟩ := hest
    exact absurd (Analysis.mem_callees.mpr ⟨args', hcall'⟩) (hquiet f hfp)

instance (f : Func) (h : String) : Decidable (Estimates f h) :=
  decidable_of_iff (∃ call ∈ Analysis.calls f.stmts,
    call.1 = Intrinsic.centralDifferenceName ∧ referred call.2 = some h) <| by
    constructor
    · rintro ⟨⟨g, args⟩, hmem, rfl, href⟩
      exact ⟨args, Analysis.mem_calls.mp hmem, href⟩
    · rintro ⟨args, hmem, href⟩
      exact ⟨(_, args), Analysis.mem_calls.mpr hmem, rfl, href⟩

/-- What a hessian has on record is there when the gradient is pushed forward. -/
theorem differentiate_hessian {p : Program} {registry : Registry} {options : Options} {r : Request}
    (hmode : r.mode = .hessian) {n : Nat} (hcount : r.scalarCount = .ok (some n)) {grad : Func}
    {pushed : String} {st₁ st₂ : Progress}
    (hgrad : gradient (Setting.make p registry options .hessian)
      (planner (Setting.make p registry options .hessian)) r (Progress.start p) = .ok grad st₁)
    (hpushed : derive (Setting.make p registry options .hessian) .pushforward grad
      (st₁.addSupport grad) = .ok pushed st₂) :
    ∃ d, differentiate p registry options r = .ok d ∧ d.support = st₂.support ∧
      d.warnings = st₂.warnings := by
  simp only [differentiate, hmode, derivedFunc, hessian, hcount, bind, EStateM.bind, hgrad,
    state_modify, hpushed]
  exact ⟨_, rfl, rfl, rfl⟩

/-- A function with an estimate that the gradient takes over, and the pushforward of the gradient
from that. -/
def estimateTakenOver : Session.Sample ⟨"f", .hessian, none, 1, .standard⟩ fun p registry r =>
    decide ((∀ f ∈ p, Intrinsic.centralDifferenceName ∉ Analysis.callees f.stmts) ∧
      r.mode = .hessian ∧ r.scalarCount.toOption = some (some 1)) &&
    match gradient (Setting.make p registry .standard .hessian)
      (planner (Setting.make p registry .standard .hessian)) r (Progress.start p) with
    | .error _ _ => false
    | .ok grad st₁ =>
      match derive (Setting.make p registry .standard .hessian) .pushforward grad
        (st₁.addSupport grad) with
      | .error _ _ => false
      | .ok pushed st₂ => decide ((∃ g ∈ st₂.support, g.name = pushed ∧ Estimates g "h") ∧
        ⟨grad.name, "h"⟩ ∉ st₂.warnings ∧ st₂.warnings = [⟨"f", "h"⟩]) where
  source :=
    "extern fn h(x: f64) -> f64;\n" ++
    "fn f(x: f64) -> f64 \x7b return h(floor(x)) + x * x; \x7d"
  admitted := by decide +kernel

/-- The gradient of that function, and its pushforward. -/
theorem estimateTakenOver_runs : ∃ p registry target r grad st₁ pushed st₂,
    Session.load estimateTakenOver.source = .ok p ∧
    (∀ f ∈ p, Intrinsic.centralDifferenceName ∉ Analysis.callees f.stmts) ∧
    Registry.ofProgram p = .ok registry ∧ target ∈ p ∧
    Request.make (.ofProgram p) target .hessian none 1 = .ok r ∧ r.mode = .hessian ∧
    r.scalarCount = .ok (some 1) ∧
    gradient (Setting.make p registry .standard .hessian)
      (planner (Setting.make p registry .standard .hessian)) r (Progress.start p) = .ok grad st₁ ∧
    derive (Setting.make p registry .standard .hessian) .pushforward grad (st₁.addSupport grad)
      = .ok pushed st₂ ∧
    (∃ g ∈ st₂.support, g.name = pushed ∧ Estimates g "h") ∧ ⟨grad.name, "h"⟩ ∉ st₂.warnings ∧
    st₂.warnings = [⟨"f", "h"⟩] := by
  obtain ⟨p, registry, f, r, hload, hreg, hf, hr, htest⟩ := estimateTakenOver.loads
  simp only [Bool.and_eq_true, decide_eq_true_eq] at htest
  obtain ⟨⟨hquiet, hmode, hcount⟩, htest⟩ := htest
  have hcount : r.scalarCount = .ok (some 1) := by
    cases h : r.scalarCount with
    | error e => simp [h, Except.toOption] at hcount
    | ok count =>
      rw [h] at hcount
      exact congrArg Except.ok (Option.some.inj hcount)
  split at htest
  · cases htest
  · rename_i grad st₁ hgrad
    split at htest
    · cases htest
    · rename_i pushed st₂ hpushed
      rw [decide_eq_true_eq] at htest
      exact ⟨p, registry, f, r, grad, st₁, pushed, st₂, hload, hquiet, hreg,
        Session.mem_of_find? hf, hr, hmode, hcount, hgrad, hpushed, htest⟩

theorem estimates_are_announced_takenOver : ∃ p registry target r d,
    Session.load estimateTakenOver.source = .ok p ∧
    (∀ f ∈ p, Intrinsic.centralDifferenceName ∉ Analysis.callees f.stmts) ∧
    Registry.ofProgram p = .ok registry ∧ target ∈ p ∧
    Request.make (.ofProgram p) target .hessian none 1 = .ok r ∧
    differentiate p registry .standard r = .ok d ∧
    (∃ g ∈ d.support, Estimates g "h") ∧
    d.warnings.Nodup ∧ ∀ g ∈ d.funcs, ∃ f,
      DerivedFrom (Setting.make p registry .standard r.mode) r d.support g f ∧ ∀ args,
        .call Intrinsic.centralDifferenceName args ∈ partsOf g.stmts →
          Options.standard.numericalFallback = true ∧ ∃ h, referred args = some h ∧
            Warned (Setting.make p registry .standard r.mode) r d.support d.warnings h f ∧
            (f ∈ p → ⟨f.name, h⟩ ∈ d.warnings) := by
  obtain ⟨p, registry, target, r, grad, st₁, pushed, st₂, hload, hquiet, hreg, htarget, hr, hmode,
    hcount, hgrad, hpushed, ⟨g, hg, _, hest⟩, _⟩ := estimateTakenOver_runs
  obtain ⟨d, hd, hsupport, _⟩ := differentiate_hessian hmode hcount hgrad hpushed
  exact ⟨p, registry, target, r, d, hload, hquiet, hreg, htarget, hr, hd,
    ⟨g, hsupport ▸ hg, hest⟩, estimates_are_announced hquiet hreg htarget hr hd⟩

/-- The pushforward of a gradient takes an estimate over from the gradient, for which there is no
warning: the one there is names the function itself. -/
theorem no_warning_for_gradient : ∃ p registry target r grad st₁ pushed st₂ d,
    Session.load estimateTakenOver.source = .ok p ∧ Registry.ofProgram p = .ok registry ∧
    target ∈ p ∧ Request.make (.ofProgram p) target .hessian none 1 = .ok r ∧
    gradient (Setting.make p registry .standard .hessian)
      (planner (Setting.make p registry .standard .hessian)) r (Progress.start p) = .ok grad st₁ ∧
    derive (Setting.make p registry .standard .hessian) .pushforward grad (st₁.addSupport grad)
      = .ok pushed st₂ ∧
    differentiate p registry .standard r = .ok d ∧
    (∃ g ∈ d.support, g.name = pushed ∧ Estimates g "h") ∧ ⟨grad.name, "h"⟩ ∉ d.warnings ∧
    d.warnings = [⟨"f", "h"⟩] := by
  obtain ⟨p, registry, target, r, grad, st₁, pushed, st₂, hload, _, hreg, htarget, hr, hmode,
    hcount, hgrad, hpushed, hshown⟩ := estimateTakenOver_runs
  obtain ⟨d, hd, hsupport, hwarnings⟩ := differentiate_hessian hmode hcount hgrad hpushed
  rw [← hsupport, ← hwarnings] at hshown
  exact ⟨p, registry, target, r, grad, st₁, pushed, st₂, d, hload, hreg, htarget, hr, hgrad,
    hpushed, hd, hshown⟩

end Fluxion.Derive
