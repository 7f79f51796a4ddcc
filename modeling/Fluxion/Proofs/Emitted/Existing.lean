import Fluxion.Proofs.Analysis.Usage
import Fluxion.Proofs.Emitted.Plan
import Fluxion.Proofs.Session.Loaded

/-!
What derived functions call: intrinsics, functions of the program, and derived functions that are
there. The one exception is a plan that outlives the function it names, which takes a failure that
was recovered from.
-/

namespace Fluxion.Derive

open Library (Registry)
open Sweep

section

variable {p : Program} {s : Setting} {start st st' : Progress}

/-- When nothing is under way, a differentiation may be taken to begin anywhere. -/
theorem Good.rebase (hg : Good p start [] st) {start' : Progress} (hl : Later start' st) :
    Good p start' [] st :=
  { hg with
    since := hl
    chain_plan := fun _ h => absurd h List.not_mem_nil }

theorem Consistent.rebase (hc : Consistent p start [] st) {start' : Progress}
    (hl : Later start' st) : Consistent p start' [] st :=
  { hc with
    since := hl
    chain_plan := fun _ h => absurd h List.not_mem_nil }

end

section

variable {s : Setting} {start st : Progress}

/-- The gradient joins the support before it is pushed forward. -/
theorem ends_pushedGradient (hs : s.Sound) (r : Request) (hg : Good s.program start [] st)
    (hc : Covered s.program [] st (partsOf r.target.stmts)) :
    (reachable hs start []).Ends st
      (fun pushed st' => ∀ g, (reaches hs start [] r.target.name).May st' pushed g) (do
      let grad ← gradient s (planner s) r
      modify (·.addSupport grad)
      derive s .pushforward grad) := by
  have hgrad : Outcome st (fun grad st₁ => Good s.program start [] st₁ ∧ Later st st₁ ∧
      (reachable hs start []).Took st grad.name st₁ ∧ Covered s.program [] st₁ (partsOf grad.stmts))
      (fun st' => Consistent s.program start [] st' ∧ Later st st') (gradient s (planner s) r) :=
    ends_gradientWith (plans_planner hs r.target.name) r rfl none hg hc
  suffices hend : Outcome st
      (fun pushed st' => Good s.program start [] st' ∧ Later st st' ∧
        Callable s.program [] st' pushed)
      (fun st' => Consistent s.program start [] st' ∧ Later st st') (do
        let grad ← gradient s (planner s) r
        modify (·.addSupport grad)
        derive s .pushforward grad) from
    hend.imp (fun _ _ h => ⟨h.1, h.2.1, fun _ => h.2.2⟩) fun _ h => h
  refine Outcome.bind hgrad ?_
  rintro grad st₁ ⟨hg₁, hl₁, htook, hgrad⟩
  have hl₂ : Later st (st₁.addSupport grad) := hl₁.addSupport htook.free
  have hg₂ : Good s.program start [] (st₁.addSupport grad) := by
    have hnone : ∀ u ∈ ([] : Chain), u.name = grad.name := by simp
    exact Good.addSupport hg₁ hnone htook.used (hg.since.trans hl₂) hgrad
  have hcovered : Covered s.program [] (st₁.addSupport grad) (partsOf grad.stmts) :=
    hg₂.calls grad (by simp [Progress.addSupport])
  have hderive := derivesAll_deriveAt hs s.options.maxDepth [] .pushforward grad _
    (hg₂.rebase (.refl _)) hcovered fun _ h => h
  show Outcome (st₁.addSupport grad) _ _ (derive s .pushforward grad)
  unfold Outcome derive at *
  cases hrun : deriveAt s s.options.maxDepth [] .pushforward grad (st₁.addSupport grad) with
  | ok name st₃ =>
    rw [hrun] at hderive
    obtain ⟨hg₃, hl₃, hn⟩ := hderive
    have hl := hl₂.trans hl₃
    exact ⟨hg₃.rebase (hg.since.trans hl), hl, hn.found.elim .support .underWay⟩
  | error e st₃ =>
    rw [hrun] at hderive
    have hl := hl₂.trans hderive.2.1
    exact ⟨hderive.1.rebase (hg.since.trans hl), hl⟩

theorem ends_derivedFunc (hs : s.Sound) (r : Request) (hg : Good s.program start [] st)
    (hc : Covered s.program [] st (partsOf r.target.stmts)) :
    (reachable hs start []).Ends st (fun g st' => Covered s.program [] st' (partsOf g.stmts))
      (derivedFunc s r) := by
  have hp : ∀ caller, (reaches hs start [] caller).Plans (planner s) := plans_planner hs
  have hfail : ∀ e, r.scalarCount = .error e →
      (reachable hs start []).Failed (.request e) st := fun _ _ => hg.toConsistent
  have hgrad : ∀ epsilon, (reachable hs start []).Ends st
      (fun g st' => Covered s.program [] st' (partsOf g.stmts))
      (gradientWith s (planner s) r epsilon) :=
    fun epsilon => (ends_gradientWith (hp _) r rfl epsilon hg hc).imp fun _ _ _ h => h.2
  unfold derivedFunc
  cases r.mode with
  | forward =>
    refine Account.ends_directional (A := reachable hs start [])
      (P := fun _ f st => Covered s.program [] st (partsOf f.stmts))
      (fun along k st hg f hf => ?_) hg hc
    refine .bind (Account.ends_functionName hg _) fun name st₁ hg₁ hl₁ _ => ?_
    exact (Account.ends_seeded (hp f.name) rfl along name hg₁ (Later.calls hl₁ hf)).imp
      fun _ _ _ h => h.2
  | reverse => exact hgrad none
  | errorEstimate => exact hgrad s.errorEpsilon
  | hessian =>
    exact (ends_hessian r hfail hg (ends_pushedGradient hs r hg hc)).imp fun _ _ _ h => h.2
  | jacobian => exact (ends_jacobian (hp _) r rfl hfail hg hc).imp fun _ _ _ h => h.2

end

/-! ### Derived functions of loaded programs -/

theorem sound_of_load {source : String} {p : Program} {registry : Registry}
    (hload : Session.load source = .ok p) (hreg : Registry.ofProgram p = .ok registry)
    (options : Options) (mode : Request.Mode) : (Setting.make p registry options mode).Sound := by
  obtain ⟨user, rfl, hcheck⟩ := Session.load_eq_ok hload
  refine ⟨fun f hf => ?_, fun kind sig f hget => ?_, ?_⟩
  · refine callsOnly_of_checkFunc ⟨fun _ h => .inl h, fun g types found h => .inr ?_⟩
      (Typing.checkFunc_of_check hcheck hf)
    obtain ⟨hmem, rfl⟩ := mem_of_resolve h
    exact List.mem_map_of_mem hmem
  · exact List.mem_map_of_mem (Registry.fits_of_get? hreg hget).mem
  · have habs : "abs" ∈ namesOf Library.prelude := by decide +kernel
    simp only [Setting.make, namesOf, List.map_append, List.mem_append]
    exact .inl habs

theorem good_start (p : Program) : Good p (Progress.start p) [] (Progress.start p) where
  since := .refl _
  program_used g h := by
    simp only [Progress.start, NameSupply.mem_reserveAll]
    exact .inl h
  support_used g h := by simp [namesOf, Progress.start] at h
  chain_used g h := by simp [Chain.names] at h
  plans_used g h := by
    obtain ⟨key, h⟩ := h
    simp [Progress.start] at h
  custom key g h := by simp [Progress.start] at h
  memo key g h := by simp [Progress.start] at h
  calls f hf := by simp [Progress.start] at hf
  keys := by simp
  chain_memo u hu := by simp at hu
  chain_plan u hu := by simp at hu
  settled g h := by
    obtain ⟨key, h⟩ := h
    simp [Progress.start] at h

/-- A plan to call `g` is on record when a request is done. -/
def PlannedAtEnd (p : Program) (registry : Registry) (options : Options) (r : Request)
    (g : String) : Prop :=
  ∃ func st, derivedFunc (Setting.make p registry options r.mode) r (Progress.start p)
    = .ok func st ∧ st.Plans g

/-- A name of an intrinsic, of a function of the program, or of a derived function that is
there. -/
def Exists (p : Program) (d : Derived) (g : String) : Prop :=
  (Intrinsic.ofName? g).isSome ∨ g ∈ namesOf p ∨ g ∈ namesOf d.support

/-- Derived functions call functions that exist, if no plan on record names one that was dropped.
Without a warning there is no such plan. -/
theorem exists_of_mem_callees {source : String} {p : Program} {registry : Registry}
    {options : Options} {r : Request} {d : Derived} (hload : Session.load source = .ok p)
    (hreg : Registry.ofProgram p = .ok registry) (hr : r.target ∈ p)
    (hd : differentiate p registry options r = .ok d)
    (hkept : d.warnings = [] ∨
      ∀ g, PlannedAtEnd p registry options r g → g ∈ namesOf d.support) :
    ∀ f ∈ d.funcs, ∀ g ∈ Analysis.callees f.stmts, Exists p d g := by
  have hs := sound_of_load hload hreg options r.mode
  have hgood := good_start p
  have htarget : Covered p [] (Progress.start p) (partsOf r.target.stmts) :=
    (hs.calls _ hr).mono fun g h => h.elim .intrinsic .program
  have hend := ends_derivedFunc hs r hgood htarget
  unfold differentiate at hd
  unfold Account.Ends at hend
  cases hrun : derivedFunc (Setting.make p registry options r.mode) r (Progress.start p) with
  | error e st =>
    rw [hrun] at hd
    cases hd
  | ok func st =>
    rw [hrun] at hd hend
    obtain ⟨hg, _, hfunc⟩ := hend
    cases hd
    have hexists : ∀ g, Callable p [] st g →
        Exists p ⟨r.mode, func, st.support, st.warnings⟩ g := by
      rintro g (h | h | h | h | h)
      · exact .inl h
      · exact .inr (.inl h)
      · exact .inr (.inr h)
      · cases h
      · refine .inr (.inr ?_)
        rcases hkept with hnone | hkept
        · exact (hg.settled g h).resolve_right fun hbad => hbad.elim (fun h => by cases h) (· hnone)
        · exact hkept g ⟨func, st, hrun, h⟩
    intro f hf g hmem
    obtain ⟨args, hcall⟩ := Analysis.mem_callees.mp hmem
    rcases List.mem_append.mp hf with hf | hf
    · exact hexists g (hg.calls f hf g args hcall)
    · obtain rfl : f = func := List.mem_singleton.mp hf
      exact hexists g (hfunc g args hcall)

/-- A function that calls its helper twice. -/
def squares : String :=
  "fn sq(x: f64) -> f64 \x7b return x * x; \x7d\n" ++
  "fn main(x: f64) -> f64 \x7b return sq(x) + sq(sq(x)); \x7d"

theorem exists_of_mem_callees_squares : ∃ p registry r d,
    Session.load squares = .ok p ∧ Registry.ofProgram p = .ok registry ∧ r.target ∈ p ∧
    differentiate p registry .standard r = .ok d ∧ d.warnings = [] ∧
    "sq_pullback" ∈ Analysis.callees d.func.stmts ∧
    ∀ f ∈ d.funcs, ∀ g ∈ Analysis.callees f.stmts, Exists p d g := by
  have htest : Session.passes squares ⟨"main", .reverse, none, 1, .standard⟩
      (fun _ _ _ d => d.warnings.isEmpty &&
        (Analysis.callees d.func.stmts).contains "sq_pullback") = true := by
    decide +kernel
  obtain ⟨p, registry, r, d, hload, hreg, hr, hd, htest⟩ := Session.exists_of_passes htest
  simp only [Bool.and_eq_true, List.isEmpty_iff, List.contains_iff_mem] at htest
  exact ⟨p, registry, r, d, hload, hreg, hr, hd, htest.1, htest.2,
    exists_of_mem_callees hload hreg hr hd (.inl htest.1)⟩

/-- A recursive function that cannot be reversed because of its tape, and a caller that can be
differentiated numerically in its place. -/
def recursionWithTape : String :=
  "fn f(a: [f64], n: i64) -> f64 \x7b let r: f64 = a[0]; " ++
  "if (n > 0) \x7b r = f(a, n - 1); \x7d let t: tape<f64>; return r; \x7d\n" ++
  "fn h(x: f64) -> f64 \x7b let b: [f64; 1]; b[0] = x; return f(b, 2); \x7d\n" ++
  "fn main(x: f64, a: [f64]) -> f64 \x7b return h(x) + f(a, 1); \x7d"

/-- The recursive call of `f` records a plan before the tape makes its derivation fail. The
failure is recovered from in `h`, and `main` follows the plan. -/
theorem callee_missing_after_recovery : ∃ p registry r d,
    Session.load recursionWithTape = .ok p ∧ Registry.ofProgram p = .ok registry ∧ r.target ∈ p ∧
    differentiate p registry .standard r = .ok d ∧
    "f_pullback" ∈ Analysis.callees d.func.stmts ∧ ¬ Exists p d "f_pullback" := by
  have htest : Session.passes recursionWithTape ⟨"main", .reverse, none, 1, .standard⟩
      (fun p _ _ d => (Analysis.callees d.func.stmts).contains "f_pullback" &&
        !(namesOf p).contains "f_pullback" &&
        !(namesOf d.support).contains "f_pullback") = true := by
    decide +kernel
  obtain ⟨p, registry, r, d, hload, hreg, hr, hd, htest⟩ := Session.exists_of_passes htest
  simp only [Bool.and_eq_true, Bool.not_eq_true', List.contains_eq_mem, decide_eq_true_eq,
    decide_eq_false_iff_not] at htest
  refine ⟨p, registry, r, d, hload, hreg, hr, hd, htest.1.1, ?_⟩
  rintro (h | h | h)
  · exact absurd h (by decide)
  · exact htest.1.2 h
  · exact htest.2 h

end Fluxion.Derive
