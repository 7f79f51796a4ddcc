import Fluxion.Proofs.Apart.Sweeps
import Fluxion.Proofs.Emitted.Functions

/-!
Derivatives in reverse mode are built on the code that they take over: their parameters, storage
and counters have names from a supply that knows all variables of that code.
-/

namespace Fluxion.Derive

open Library (Registry)

/-! ### Whole functions -/

section

variable {lane : Option String} {σ : Storage} {own : Vars} {β : Type}
  {total : β → Storage → Vars}

theorem Returns.mono {α : Type} {m : Derivation α} {Q R : α → Prop} (h : Returns m Q)
    (hR : ∀ a, Q a → R a) : Returns m R :=
  fun st a st' hrun => hR a (h st a st' hrun)

theorem Returns.map {α : Type} {m : Derivation α} {f : α → β} {Q : β → Prop}
    (h : Returns m fun a => Q (f a)) : Returns (f <$> m) Q := by
  intro st b st' hrun
  simp only [Functor.map, EStateM.map] at hrun
  cases hm : m st with
  | error e st₁ =>
    rw [hm] at hrun
    cases hrun
  | ok a st₁ =>
    rw [hm] at hrun
    cases hrun
    exact h st a _ hm

/-- The name that is taken here is that of the lanes from now on. -/
theorem Adds.withLane {base : String} {f : String → Sweeping β}
    (hf : ∀ k σ', Adds (some k) σ' own (f k) total) :
    Adds none σ own (Sweeping.fresh base >>= f) total := by
  intro st r st' hrun
  obtain ⟨new, hnew, hvars⟩ := hf _ _ st r st' hrun
  exact ⟨new, hnew.withLane (.fresh base), hvars⟩

/-- In the end there is a function, which has what is hoisted in its body. -/
theorem Adds.func {g : Func} (h : g.vars = varsOf σ.hoisted + own) :
    Adds lane σ own (Pure.pure g) fun g _ => g.vars :=
  Returns.pure ⟨0, .refl _, by simpa using h⟩

theorem Adds.builtOn {kept : Vars} {src : Func} {steps : Sweeping Func}
    (h : Adds none (.ofFunc src) kept steps fun g _ => g.vars) :
    Returns (steps.run' (.ofFunc src)) (BuiltOn kept src) := by
  refine Returns.map fun st r st' hrun => ?_
  obtain ⟨new, hnew, hvars⟩ := h st r st' hrun
  refine ⟨_, new, hnew, ?_⟩
  simpa [Storage.ofFunc] using hvars

end

/-! ### Adjoints of parameters -/

/-- What adjoints of parameters declare in the list of parameters and around the sweeps. -/
def AdjointParams.vars (a : AdjointParams) : Vars :=
  paramVars a.params + (varsOf a.before + varsOf a.after)

@[simp] theorem AdjointParams.vars_mk (params : List Param) (before after : List Stmt) :
    (AdjointParams.mk params before after).vars =
      paramVars params + (varsOf before + varsOf after) := rfl

@[simp] theorem AdjointParams.vars_none : AdjointParams.none.vars = 0 := rfl

theorem AdjointParams.vars_append (a b : AdjointParams) : (a.append b).vars = a.vars + b.vars := by
  simp only [AdjointParams.vars, AdjointParams.append, paramVars_append, varsOf_append]
  abel

section

variable {lane : Option String} {σ : Storage} {own : Vars}

theorem declares_localAdjoint (p : Param) (out : String) :
    Declares lane σ 0 (localAdjoint p out) fun r => varsOf r.2.before + varsOf r.2.after :=
  (Declares.fresh _ .float).step fun x σ₁ => .pure (by simp)

theorem declares_pullbackParam (modified : List String) (p : Param) :
    Declares lane σ 0 (pullbackParam modified p) AdjointParams.vars := by
  unfold pullbackParam
  split
  · exact .pure (by simp)
  · rename_i ty _
    refine (Declares.fresh _ ty).step fun d σ₁ => ?_
    split
    · refine (declares_localAdjoint p d).step fun r σ₂ => ?_
      exact (Declares.bindAdjoint p.name r.1).after fun _ σ₃ => .pure (by simp)
    · exact (Declares.bindAdjoint p.name d).after fun _ σ₂ => .pure (by simp)

theorem declares_pullbackParams (modified : List String) (ps : List Param) (σ : Storage) :
    Declares lane σ 0 (pullbackParams modified ps) AdjointParams.vars := by
  induction ps generalizing σ with
  | nil => exact .pure (by simp)
  | cons p ps ih =>
    refine (declares_pullbackParam modified p).step fun own σ₁ => ?_
    exact (ih σ₁).step fun rest σ₂ => .pure (by simp [AdjointParams.vars_append])

theorem declares_resultAdjoint (f : Func) :
    Declares lane σ 0 (resultAdjoint f)
      fun dy => paramVars (dy.map fun d => (⟨d, .float⟩ : Param)).toList := by
  unfold resultAdjoint
  split
  · exact (Declares.fresh "_d_y" .float).step fun d σ₁ => .pure (by simp)
  · exact .pure (by simp)

theorem declares_errorSink (epsilon : Option Float) (countsReturns : Bool) :
    Declares lane σ 0 (errorSink epsilon countsReturns) fun sink => paramVars (sinkParam sink) := by
  unfold errorSink
  split
  · exact .pure (by simp [sinkParam])
  · refine (Declares.fresh "_final_error" (.ref .float)).step fun x σ₁ => .pure ?_
    simp [sinkParam]

theorem params_canonicalize {f g : Func} (h : Canonical.canonicalize f = .ok g) :
    g.params = f.params := by
  unfold Canonical.canonicalize at h
  split at h
  · cases h
    rfl
  · obtain ⟨body, _, rfl⟩ := except_map_eq_ok.mp h
    rfl

theorem returns_prepare (f : Func) :
    Returns (prepare f) fun src => Canonical.canonicalize f = .ok src := by
  unfold prepare
  split
  · rename_i src h
    exact .pure h
  · exact .unsupported _ _

/-! ### Pullbacks and gradients -/

theorem builtOn_pullback (s : Setting) (plan : Planner) (callee : Func) (name : String) :
    Returns (pullback s plan callee name) fun g =>
      ∃ src, Canonical.canonicalize callee = .ok src ∧ BuiltOn src.vars src g := by
  unfold pullback
  refine (returns_prepare callee).bind fun src hsrc => .after fun host => ?_
  refine Returns.mono (Adds.builtOn ?_) fun g hg => ⟨src, hsrc, hg⟩
  refine (declares_resultAdjoint callee).step fun dy σ₁ => ?_
  refine (declares_pullbackParams _ callee.params σ₁).step fun adjoints σ₂ => ?_
  refine (declares_errorSink _ _).step fun sink σ₃ => ?_
  rw [Func.vars, params_canonicalize hsrc]
  generalize (dy.map fun d => (⟨d, .float⟩ : Param)).toList = result
  have hown : paramVars callee.params + varsOf src.stmts + paramVars result + adjoints.vars +
      paramVars (sinkParam sink) = paramVars (callee.params ++ result ++ sinkParam sink) +
        adjoints.vars + varsOf src.stmts := by
    simp only [paramVars_append]
    abel
  rw [hown]
  refine (Sweep.declares_run (by rfl) src.stmts σ₃).bind fun sweeps σ₄ => .get_bind (.func ?_)
  simp only [Func.vars, Func.stmts, Option.getD_some, paramVars_append, varsOf_append,
    AdjointParams.vars, Sweeps.vars]
  abel

theorem declares_independentArray (modified : List String) (p : Param)
    (range : Option (Nat × Nat)) (out : String) :
    Declares lane σ {(out, .arrayOf .float)} (independentArray modified p range out)
      AdjointParams.vars := by
  unfold independentArray
  dsimp only
  split
  · exact (Declares.bindAdjoint p.name out).after fun _ σ₁ => .pure (by simp)
  · refine (Declares.fresh _ (.arrayOf .float)).step fun x σ₁ => ?_
    -- Only the length of what is added to the output depends on the range.
    have hflush : ∀ (lo : Nat) (count : Expr), Declares lane σ₁
        ({(out, .arrayOf .float)} + {(x, .arrayOf .float)}) (do
          let i ← Sweeping.numbered "_i"
          let flush : Stmt := .update (.index out (.var i)) .add
            (.index x ((Expr.var i).indexSum (.ofNat lo)))
          Sweeping.bind p.name x
          return ⟨[⟨out, .arrayOf .float⟩], [.arrayDecl x .float (lenOf p.name)],
            [countedLoop i count [flush]]⟩) AdjointParams.vars := by
      intro lo count
      refine (Declares.numbered "_i" .int).step fun i σ₂ => ?_
      refine (Declares.bindAdjoint p.name x).after fun _ σ₃ => .pure ?_
      simp only [AdjointParams.vars_mk, paramVars_cons, paramVars_nil, varsOf_cons, varsOf_nil,
        Stmt.vars_arrayDecl, vars_countedLoop, Stmt.vars_update]
      abel
    split
    · exact hflush _ _
    · exact hflush _ _

theorem declares_independentScalar (modified : List String) (p : Param) (out : String) :
    Declares lane σ {(out, .ref .float)} (independentScalar modified p out) fun r => r.2.vars := by
  unfold independentScalar
  dsimp only
  split
  · refine (declares_localAdjoint p out).step fun r σ₁ => ?_
    exact (Declares.bindAdjoint p.name r.1).after fun _ σ₂ => .pure (by simp)
  · exact (Declares.bindAdjoint p.name out).after fun _ σ₁ => .pure (by simp)

theorem declares_independents (modified : List String) (params : List Param)
    (vs : List Request.Independent) (σ : Storage) :
    Declares lane σ 0 (independents modified params vs) fun r => r.1.vars := by
  induction vs generalizing σ with
  | nil => exact .pure (by simp)
  | cons v vs ih =>
    have hrest : ∀ (own : AdjointParams) (scalars : List (String × String)) (σ₁ : Storage),
        Declares lane σ₁ own.vars (do
          let r ← independents modified params vs
          return (own.append r.1, scalars ++ r.2)) fun r => r.1.vars := by
      intro own scalars σ₁
      exact (ih σ₁).step fun rest σ₂ => .pure (by simp [AdjointParams.vars_append])
    unfold independents
    dsimp only
    split
    · refine (Declares.fresh _ (.arrayOf .float)).step fun out σ₁ => ?_
      refine (declares_independentArray modified _ v.range out).bind fun own σ₂ => ?_
      simpa using hrest own [] σ₂
    · refine (Declares.fresh _ (.ref .float)).step fun out σ₁ => ?_
      refine (declares_independentScalar modified _ out).bind fun r σ₂ => ?_
      simpa using hrest r.2 [(_, r.1)] σ₂

theorem declares_otherAdjoints (ps : List Param) (σ : Storage) :
    Declares lane σ 0 (otherAdjoints ps) varsOf := by
  induction ps generalizing σ with
  | nil => exact .pure (by simp)
  | cons p ps ih =>
    unfold otherAdjoints
    refine .get_bind ?_
    split
    · refine (Sweep.declares_adjoint _ none
        (if p.ty.isArray then some (lenOf p.name) else none)).step fun d σ₁ => ?_
      refine (Declares.bindAdjoint p.name d).after fun _ σ₂ => ?_
      exact (ih σ₂).step fun rest σ₃ => .pure (by simp)
    · exact ih σ

/-- A derivative of `f` keeps the variables of a function that is made from `f`: of `f` with new
names for its locals, or of the canonical form. Where it calls a derivative that the source gives,
it keeps only the parameters. -/
inductive Keeps (registry : Registry) (f : Func) : Vars → Func → Prop where
  | renamed : Keeps registry f (Canonical.uniqueLocals f).vars (Canonical.uniqueLocals f)
  | canonical {src : Func} (h : Canonical.canonicalize f = .ok src) : Keeps registry f src.vars src
  | pushed (h : (registry.get? .pushforward f.signature).isSome) :
      Keeps registry f (paramVars f.params) (Canonical.uniqueLocals f)
  | pulled (h : (registry.get? .pullback f.signature).isSome) :
      Keeps registry f (paramVars f.params) f

/-- The end of a gradient: all that was declared is in its parameters and its body. -/
theorem adds_gradientFunc (name : String) (target : Func) (adjoints : AdjointParams)
    {others sweeps errors : List Stmt} {sink : Option ErrorSink} (herrors : varsOf errors = 0) :
    Adds none σ (paramVars target.params + adjoints.vars + varsOf others +
      paramVars (sinkParam sink) + varsOf sweeps) (do
        let body := adjoints.before ++ others ++ (← get).hoisted ++ sweeps ++ adjoints.after
          ++ errors
        return ⟨name, target.params ++ adjoints.params ++ sinkParam sink, .void, some body,
          target.span⟩) fun (g : Func) _ => g.vars := by
  refine .get_bind (.func ?_)
  simp only [Func.vars, Func.stmts, Option.getD_some, paramVars_append, varsOf_append,
    AdjointParams.vars, herrors]
  abel

theorem varsOf_errorTerms (sink : Option ErrorSink) (scalars : List (String × String)) :
    varsOf (match sink with
      | some sink => scalars.map fun (x, d) => sink.term (.var d) (.var x)
      | none => []) = 0 := by
  cases sink with
  | none => rfl
  | some sink =>
    induction scalars with
    | nil => rfl
    | cons v vs ih => simpa [Sweep.vars_term] using ih

theorem builtOn_gradientWith (s : Setting) (plan : Planner) (r : Request)
    (epsilon : Option Float) :
    Returns (gradientWith s plan r epsilon) fun g =>
      ∃ kept src, Keeps s.registry r.target kept src ∧ BuiltOn kept src g := by
  unfold gradientWith
  refine .after fun name => ?_
  cases hcustom : s.registry.get? .pullback r.target.signature with
  | some custom =>
    -- The pullback of the source does it all, so nothing is taken over but the parameters.
    simp only [gradientSource, pure_bind]
    refine .after fun host => ?_
    refine Returns.mono (Adds.builtOn ?_) fun g hg => ⟨_, _, .pulled (by simp [hcustom]), hg⟩
    refine (declares_independents _ _ r.independents _).step fun independents σ₁ => ?_
    refine (declares_otherAdjoints r.target.params σ₁).step fun others σ₂ => ?_
    refine (declares_errorSink epsilon true).step fun sink σ₃ => ?_
    refine .get_bind ((adds_gradientFunc name r.target independents.1
      (varsOf_errorTerms sink independents.2)).of_eq ?_)
    simp
  | none =>
    dsimp only
    have hsource : Returns (gradientSource r.target none) fun src =>
        Canonical.canonicalize r.target = .ok src := by
      unfold gradientSource
      split
      · contradiction
      · exact returns_prepare _
      · exact .unsupported _ _
    refine hsource.bind fun src hsrc => .after fun host => ?_
    refine Returns.mono (Adds.builtOn ?_) fun g hg => ⟨_, src, .canonical hsrc, hg⟩
    refine (declares_independents _ _ r.independents _).step fun independents σ₁ => ?_
    refine (declares_otherAdjoints r.target.params σ₁).step fun others σ₂ => ?_
    refine (declares_errorSink epsilon true).step fun sink σ₃ => ?_
    rw [Func.vars, params_canonicalize hsrc]
    have hown : paramVars r.target.params + varsOf src.stmts + independents.1.vars +
        varsOf others + paramVars (sinkParam sink) = paramVars r.target.params +
          independents.1.vars + varsOf others + paramVars (sinkParam sink) + varsOf src.stmts := by
      abel
    rw [hown]
    refine (Sweep.declares_run (by rfl) src.stmts σ₃).bind fun sweeps σ₄ => ?_
    refine (adds_gradientFunc name r.target independents.1
      (varsOf_errorTerms sink independents.2)).of_eq ?_
    simp [Sweeps.vars]

end

end Fluxion.Derive
