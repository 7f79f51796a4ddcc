import Fluxion.Derive.Differentiate
import Fluxion.Proofs.Accumulated.Code
import Fluxion.Proofs.Analysis.Effects
import Fluxion.Proofs.Library.Registry
import Fluxion.Proofs.Names
import Fluxion.Proofs.Typing.Lengths

/-!
Both sweeps of straight-line code only add to adjoints of variables that the code never assigns,
provided that the pullbacks which the source gives do.
-/

namespace Fluxion

open Library

/-! ### Pullbacks that the source gives -/

/-- The position of the first adjoint among the parameters of a pullback. -/
def Library.adjointsFrom (s : Signature) : Nat := s.params.length + if s.ret = .float then 1 else 0

/-- The adjoints that a function named as a pullback takes. -/
def Program.lends (p : Program) : Lends := fun f n i =>
  match Registry.splitName f with
  | some (primal, .pullback) => p.any (·.name == f) && (p.overloads primal).any fun h =>
      (pullbackParams h.signature).length == n && decide (adjointsFrom h.signature ≤ i ∧ i < n)
  | _ => false

/-- What is added to a program takes no adjoints. -/
theorem Program.lends_of_new {p : Program} {f : String} (h : f ∉ p.map (·.name)) (n i : Nat) :
    p.lends f n i = false := by
  have hnone : p.any (·.name == f) = false := by
    simpa [List.any_eq_false] using h
  unfold Program.lends
  split
  · rw [hnone]
    rfl
  · rfl

theorem Program.lends_of_le {p : Program} {f : String} {n i : Nat} (h : n ≤ i) :
    p.lends f n i = false := by
  unfold Program.lends
  split
  · simp only [Bool.and_eq_false_iff, List.any_eq_false]
    refine .inr fun _ _ => ?_
    simp [Nat.not_lt.mpr h]
  · rfl

/-- Every function that is named as a pullback only adds to the adjoints that it takes. -/
def Program.pullbacksAdd (p : Program) : Bool :=
  p.all fun g => (List.range g.params.length).all (fun i => !p.lends g.name g.params.length i)
    || g.adds p.lends

/-- Calls of the function need no derivative that would have to be derived from its body. -/
def Library.Registry.gives (r : Registry) (f : Func) : Bool :=
  f.body.isNone || (r.get? .pullback f.signature).isSome || !f.params.any (·.ty.isDifferentiable)

/-- No intrinsic is named as a derivative. -/
theorem ofName?_of_splitName {f : String} (h : (Registry.splitName f).isSome = true) :
    Intrinsic.ofName? f = none := by
  have hne : ∀ g : String, Registry.splitName g = none → f ≠ g := by
    rintro g hg rfl
    rw [hg] at h
    cases h
  have hlen := hne "len" (by decide +kernel)
  have hpush := hne "push" (by decide +kernel)
  have hpop := hne "pop" (by decide +kernel)
  have hcentral := hne Intrinsic.centralDifferenceName (by decide +kernel)
  simp [Intrinsic.ofName?, hlen, hpush, hpop, hcentral]

/-! ### Expressions -/

section

variable {O : String → Bool} {l r e seed : Expr}

theorem unread_negate (h : unread O e.parts = true) : unread O e.negate.parts = true := by
  unfold Expr.negate
  split <;> try split
  all_goals simp_all [Expr.zero]

theorem unread_times (hl : unread O l.parts = true) (hr : unread O r.parts = true) :
    unread O (l.times r).parts = true := by
  unfold Expr.times
  repeat' split
  all_goals simp [Expr.zero, hl, hr]

theorem unread_dividedBy (hl : unread O l.parts = true) (hr : unread O r.parts = true) :
    unread O (l.dividedBy r).parts = true := by
  unfold Expr.dividedBy
  repeat' split
  all_goals simp [Expr.zero, hl, hr]

theorem unread_seedsOf? {op : BinOp} {toL toR : Expr} (h : Derive.seedsOf? op l r seed = some (toL, toR))
    (hl : unread O l.parts = true) (hr : unread O r.parts = true)
    (hseed : unread O seed.parts = true) :
    unread O toL.parts = true ∧ unread O toR.parts = true := by
  unfold Derive.seedsOf? at h
  split at h <;> cases h
  · exact ⟨hseed, hseed⟩
  · exact ⟨hseed, unread_negate hseed⟩
  · exact ⟨unread_times hseed hr, unread_times hl hseed⟩
  · exact ⟨unread_dividedBy hseed hr,
      unread_negate (unread_dividedBy (unread_times hseed hl) (unread_times hr hr))⟩

theorem addsAll_append {lends : Lends} {p q : List Stmt} :
    addsAll lends O (p ++ q) = (addsAll lends O p && addsAll lends O q) := by
  induction p with
  | nil => simp [addsAll]
  | cons s rest ih => simp [addsAll, ih, Bool.and_assoc]

theorem addsAll_iff {lends : Lends} {body : List Stmt} :
    addsAll lends O body = true ↔ ∀ st ∈ body, st.adds lends O = true := by
  induction body with
  | nil => simp [addsAll]
  | cons s rest ih => simp [addsAll, ih]

theorem addsAll_flatten_map {α : Type} {lends : Lends} {part : α → List Stmt} {xs : List α}
    (h : ∀ x ∈ xs, addsAll lends O (part x) = true) :
    addsAll lends O (xs.map part).flatten = true := by
  refine addsAll_iff.mpr fun st hst => ?_
  obtain ⟨_, hmem, hst⟩ := List.mem_flatten.mp hst
  obtain ⟨x, hx, rfl⟩ := List.mem_map.mp hmem
  exact addsAll_iff.mp (h x hx) st hst

theorem handsFrom_append {L : Nat → Bool} : ∀ {k : Nat} {es es' : List Expr},
    handsFrom O L k (es ++ es') = (handsFrom O L k es && handsFrom O L (k + es.length) es')
  | k, [], es' => by simp [handsFrom]
  | k, e :: es, es' => by
    rw [List.cons_append, handsFrom, handsFrom, handsFrom_append, Bool.and_assoc, List.length_cons,
      Nat.add_right_comm, Nat.add_assoc]

theorem handsFrom_of_unread {L : Nat → Bool} : ∀ {k : Nat} {es : List Expr},
    (∀ e ∈ es, unread O e.parts = true) → handsFrom O L k es = true
  | k, [], _ => rfl
  | k, e :: es, h => by
    rw [handsFrom, h e (List.mem_cons_self ..), Bool.true_or, Bool.true_and]
    exact handsFrom_of_unread fun e he => h e (List.mem_cons_of_mem _ he)

/-- Places at positions that are only added to. -/
theorem handsFrom_of_places {L : Nat → Bool} : ∀ {k : Nat} {es : List Expr},
    (∀ e ∈ es, ∃ p, e.place? = some p ∧ unread O p.parts = true) →
    (∀ i, k ≤ i → i < k + es.length → L i = true) → handsFrom O L k es = true
  | k, [], _, _ => rfl
  | k, e :: es, h, hL => by
    obtain ⟨p, hp, hread⟩ := h e (List.mem_cons_self ..)
    have hk : L k = true := hL k (Nat.le_refl k) (by simp)
    rw [handsFrom, hk, hp, Option.any_some, hread]
    simp only [Bool.and_self, Bool.or_true, Bool.true_and]
    refine handsFrom_of_places (fun e he => h e (List.mem_cons_of_mem _ he)) fun i hi hlt => ?_
    exact hL i (by omega) (by rw [List.length_cons]; omega)

end

/-- A statement other than a branch, a loop and a block. -/
def Stmt.isStep : Stmt → Bool
  | .decl _ | .arrayDecl .. | .assign _ | .ret _ | .expr _ => true
  | .cond .. | .for_ .. | .while_ .. | .block _ => false

/-- What the code that is swept keeps to: it reads nothing of `O`, assigns to variables of `W` only
and calls functions of `F` only. -/
def Rule.swept (O : String → Bool) (W F : String → Prop) : Rule where
  part
    | .var x => O x = false
    | .index x _ => O x = false
    | .call f _ => F f
    | _ => True
  target p := O p.name = false ∧ W p.name
  declares d := O d.name = false ∧ W d.name
  returns := True

theorem unread_of_swept {O : String → Bool} {W F : String → Prop} {parts : List Expr}
    (h : ∀ part ∈ parts, (Rule.swept O W F).part part) : unread O parts = true := by
  refine unread_iff.mpr fun part hpart => ?_
  have := h part hpart
  cases part <;> first | exact this | trivial

namespace Derive

/-! ### Steps of a sweep -/

/-- The plan derives nothing. -/
def CallPlan.Given (s : Setting) (primal : Signature) : CallPlan → Prop
  | .custom d => ∃ f, s.registry.get? .pullback primal = some f ∧ d = f.name
  | .derived _ => False
  | .inactive | .numerical => True

/-- Nothing was derived so far. -/
structure Progress.Underived (s : Setting) (st : Progress) : Prop where
  support : st.support = []
  plans : ∀ key plan, (key, plan) ∈ st.plans → key.kind = .pullback → plan.Given s key.primal

/-- Storage in which the variables of `O` are adjoints of variables outside of `W`. -/
structure Storage.Sparing (lends : Lends) (O : String → Bool) (W : String → Prop) (σ : Storage) :
    Prop where
  used : ∀ x, O x = true → x ∈ σ.names.used
  kept : ∀ x d, σ.adjoint? x = some d → O d = true → ¬ W x
  hoisted : addsAll lends O σ.hoisted = true

section

variable {α β : Type} {s : Setting} {lends : Lends} {O : String → Bool} {W : String → Prop}

/-- Steps of a sweep that derive nothing and keep the storage as it should be. -/
def Spares (s : Setting) (lends : Lends) (O : String → Bool) (W : String → Prop) (m : Sweeping α)
    (Q : α → Prop) : Prop :=
  ∀ σ st, σ.Sparing lends O W → st.Underived s → ∀ a σ' st', m σ st = .ok (a, σ') st' →
    (σ'.Sparing lends O W ∧ st'.Underived s) ∧ Q a

namespace Spares

variable {Q Q' : α → Prop} {R : β → Prop}

theorem pure {a : α} (h : Q a) : Spares s lends O W (pure a) Q := by
  intro σ st hσ hst b σ' st' hrun
  cases hrun
  exact ⟨⟨hσ, hst⟩, h⟩

theorem bind {m : Sweeping α} {f : α → Sweeping β} (hm : Spares s lends O W m Q)
    (hf : ∀ a, Q a → Spares s lends O W (f a) R) : Spares s lends O W (m >>= f) R := by
  intro σ st hσ hst b σ'' st'' hrun
  obtain ⟨a, σ', st', hms, hend⟩ := stateT_bind_eq_ok.mp hrun
  obtain ⟨hkept, hQ⟩ := hm σ st hσ hst a σ' st' hms
  exact hf a hQ σ' st' hkept.1 hkept.2 b σ'' st'' hend

theorem get_bind {f : Storage → Sweeping β}
    (hf : ∀ σ, σ.Sparing lends O W → Spares s lends O W (f σ) R) : Spares s lends O W (get >>= f) R :=
  fun σ st hσ hst b σ' st' hrun => hf σ hσ σ st hσ hst b σ' st' hrun

theorem fail (c : Sweep) (o : Obstacle) : Spares s lends O W (c.fail o : Sweeping α) Q := by
  intro σ st _ _ a σ' st' hrun
  cases hrun

theorem lift {m : Derivation α}
    (hm : ∀ st, st.Underived s → ∀ a st', m st = .ok a st' → st'.Underived s ∧ Q a) :
    Spares s lends O W (liftM m : Sweeping α) Q := by
  intro σ st hσ hst a σ' st' hrun
  change (m >>= fun a => Pure.pure (a, σ)) st = _ at hrun
  obtain ⟨b, st₁, hms, hend⟩ := state_bind_eq_ok.mp hrun
  cases hend
  exact ⟨⟨hσ, (hm st hst a st' hms).1⟩, (hm st hst a st' hms).2⟩

/-- A name that is new is none of `O`. -/
theorem fresh (base : String) : Spares s lends O W (Sweeping.fresh base) fun x => O x = false := by
  intro σ st hσ hst x σ' st' hrun
  cases hrun
  refine ⟨⟨⟨fun y hy => by simp [hσ.used y hy], hσ.kept, hσ.hoisted⟩, hst⟩, ?_⟩
  by_contra hO
  exact σ.names.fresh_fresh base (hσ.used _ ((Bool.not_eq_false _).mp hO))

theorem numbered (stem : String) :
    Spares s lends O W (Sweeping.numbered stem) fun x => O x = false := by
  intro σ st hσ hst x σ' st' hrun
  cases hrun
  refine ⟨⟨⟨fun y hy => by simp [hσ.used y hy], hσ.kept, hσ.hoisted⟩, hst⟩, ?_⟩
  by_contra hO
  exact σ.names.numbered_fresh stem (hσ.used _ ((Bool.not_eq_false _).mp hO))

/-- An adjoint that is new may be that of any variable. -/
theorem bindAdjoint (x : String) {d : String} (hd : O d = false) :
    Spares s lends O W (Sweeping.bind x d) fun _ => True := by
  intro σ st hσ hst _ σ' st' hrun
  cases hrun
  refine ⟨⟨⟨hσ.used, fun y d' hy hO => ?_, hσ.hoisted⟩, hst⟩, trivial⟩
  by_cases hyx : y = x
  · subst hyx
    obtain rfl : d = d' := by simpa [Storage.adjoint?] using hy
    rw [hd] at hO
    cases hO
  · exact hσ.kept y d' (by simpa [Storage.adjoint?, lookup_cons_of_ne hyx] using hy) hO

theorem hoist {stmt : Stmt} (h : stmt.adds lends O = true) :
    Spares s lends O W (Sweeping.hoist stmt) fun _ => True := by
  intro σ st hσ hst _ σ' st' hrun
  cases hrun
  refine ⟨⟨⟨hσ.used, hσ.kept, ?_⟩, hst⟩, trivial⟩
  rw [addsAll_append, hσ.hoisted]
  simpa [addsAll] using h

theorem hoistNew (stem : String) (ty : Ty) :
    Spares s lends O W (Sweeping.hoistNew stem ty) fun x => O x = false := by
  refine (numbered stem).bind fun x hx => ?_
  exact (hoist (by simp [Stmt.let_, Stmt.adds, Local.parts, hx])).bind fun _ _ => .pure hx

end Spares

end

/-! ### Calls -/

section

variable {s : Setting}

theorem choose_given {derive : DerivativeKind → Func → Derivation String} {callee : Func}
    (hgiven : s.registry.gives callee = true) {caller : String} {st st' : Progress} {plan : CallPlan}
    (h : choose s derive .pullback callee caller st = .ok plan st') :
    st = st' ∧ plan.Given s callee.signature := by
  unfold choose at h
  split at h
  · cases h
    exact ⟨rfl, trivial⟩
  rename_i hactive
  cases hget : s.registry.get? .pullback callee.signature with
  | some custom =>
    rw [hget] at h
    cases h
    exact ⟨rfl, custom, hget, rfl⟩
  | none =>
    have hbody : callee.body.isSome = false := by
      simpa [Registry.gives, hget, hactive] using hgiven
    rw [hget, hbody] at h
    simp only [Bool.false_eq_true, ↓reduceIte] at h
    split at h
    · cases h
    · split at h <;> cases h
      exact ⟨rfl, trivial⟩

/-- A call that needs nothing derived. -/
theorem underived_plan {callee : Func} (hgiven : s.registry.gives callee = true) (caller : String)
    {st st' : Progress} (hst : st.Underived s) {plan : CallPlan}
    (hrun : planner s .pullback callee caller st = .ok plan st') :
    st'.Underived s ∧ plan.Given s callee.signature := by
  -- a numerical derivative is announced
  have hdone : ∀ {st₁ : Progress} {plan₁ : CallPlan}, st₁.Underived s →
      plan₁.Given s callee.signature →
      (if plan₁ = .numerical then modify (·.warn ⟨caller, callee.name⟩) >>= fun _ => pure plan₁
        else pure plan₁ : Derivation CallPlan) st₁ = .ok plan st' →
      st'.Underived s ∧ plan.Given s callee.signature := by
    intro st₁ plan₁ hst₁ hplan₁ hend
    split at hend <;> cases hend
    · refine ⟨?_, hplan₁⟩
      show (st₁.warn ⟨caller, callee.name⟩).Underived s
      unfold Progress.warn
      split
      · exact hst₁
      · exact ⟨hst₁.support, hst₁.plans⟩
    · exact ⟨hst₁, hplan₁⟩
  unfold planner planWith at hrun
  obtain ⟨_, _, hget, hrun⟩ := state_bind_eq_ok.mp hrun
  cases hget
  cases hlook : st.plans.lookup ⟨.pullback, callee.signature⟩ with
  | some plan₁ =>
    rw [hlook] at hrun
    exact hdone hst (hst.plans _ _ (Registry.mem_of_lookup hlook) rfl) hrun
  | none =>
    rw [hlook] at hrun
    obtain ⟨plan₁, st₁, hchoose, hrun⟩ := state_bind_eq_ok.mp hrun
    obtain ⟨rfl, hplan₁⟩ := choose_given hgiven hchoose
    have hst₁ : (st.setPlan ⟨.pullback, callee.signature⟩ plan₁).Underived s := by
      refine ⟨hst.support, fun key plan hmem hkind => ?_⟩
      rcases List.mem_cons.mp hmem with heq | hmem
      · cases heq
        exact hplan₁
      · exact hst.plans key plan (List.mem_filter.mp hmem).1 hkind
    exact hdone hst₁ hplan₁ hrun

theorem length_types? {resolve : Resolver} {env : TyEnv} : ∀ {es : List Expr} {ts : List Ty},
    types? resolve env es = some ts → ts.length = es.length
  | [], ts, h => by
    cases h
    rfl
  | e :: es, ts, h => by
    simp only [types?, Option.bind_eq_bind, Option.bind_eq_some_iff] at h
    obtain ⟨t, _, ts', hts, heq⟩ := h
    cases heq
    rw [List.length_cons, List.length_cons, length_types? hts]

theorem underived_callee {function : String} {env : TyEnv} {name : String} {args : List Expr}
    {st st' : Progress} (hst : st.Underived s) {callee : Func}
    (hrun : calleeOf s function env name args st = .ok callee st') :
    st'.Underived s ∧ callee ∈ s.program ∧ callee.name = name ∧
      callee.params.length = args.length := by
  have hhost : s.host st = .ofProgram s.program := by rw [Setting.host, hst.support, Host.ofProgram]
  simp only [calleeOf, currentHost, bind, EStateM.bind, state_get, pure, EStateM.pure] at hrun
  rw [hhost, Host.callee?_ofProgram] at hrun
  cases hf : (types? s.program.resolve env args).bind (s.program.resolve name) with
  | none =>
    rw [hf] at hrun
    cases hrun
  | some f =>
    rw [hf] at hrun
    cases hrun
    obtain ⟨ts, hts, hres⟩ := Option.bind_eq_some_iff.mp hf
    obtain ⟨hmem, hname⟩ := mem_of_resolve hres
    obtain ⟨c, hcost⟩ := exists_cost_of_resolve hres
    exact ⟨hst, hmem, hname, (length_of_costs? hcost).trans (length_types? hts)⟩

end

/-- Both sweeps only add to the variables of `O`. -/
structure Sweeps.Adds (lends : Lends) (O : String → Bool) (w : Sweeps) : Prop where
  primal : addsAll lends O w.primal = true
  adjoint : addsAll lends O w.adjoint = true

namespace Sweep

/-- The sweep of a program that gives the derivatives it needs. -/
structure Given (s : Setting) (c : Sweep) : Prop where
  setting : c.setting = s
  plan : c.plan = planner s
  lanes : c.lanes = none
  fits : ∀ sig f, s.registry.get? .pullback sig = some f → Registry.Fits s.program f .pullback sig

/-- The functions of the name need nothing derived. -/
def calls (s : Setting) (f : String) : Prop :=
  ∀ h ∈ s.program, h.name = f → s.registry.gives h = true

/-- What a pullback gets for an argument: a place that is at most added to. -/
structure PullbackArg.Adds (lends : Lends) (O : String → Bool) (a : PullbackArg) : Prop where
  before : addsAll lends O a.before = true
  adjoint : ∃ p, a.adjoint.place? = some p ∧ unread O p.parts = true
  after : addsAll lends O a.after = true

theorem erased_eq_float (t : Ty) : t.erased = .float ↔ t = .float := by
  cases t <;> simp [Ty.erased]

theorem adjoint?_erased (t : Ty) : t.erased.adjoint? = t.adjoint? := by
  unfold Ty.adjoint?
  rw [Ty.isDifferentiable_erased]
  cases t <;> rfl

theorem adjointsFrom_signature (f : Func) : adjointsFrom f.signature =
    f.params.length + if f.ret = .float then 1 else 0 := by
  have hret : f.signature.ret = .float ↔ f.ret = .float := erased_eq_float f.ret
  simp only [adjointsFrom, hret]
  simp [Func.signature]

theorem length_pullbackParams_signature (f : Func) :
    (Library.pullbackParams f.signature).length =
      adjointsFrom f.signature + (f.params.filterMap (·.ty.adjoint?)).length := by
  rw [Library.pullbackParams, List.length_append, List.length_append, adjointsFrom]
  congr 1
  · congr 1
    split <;> rfl
  · simp only [Func.signature, List.filterMap_map, Function.comp_def, adjoint?_erased]

/-- A pullback takes adjoints after everything else. -/
theorem lends_of_fits {p : Program} {callee custom : Func}
    (hfits : Registry.Fits p custom .pullback callee.signature) (hmem : callee ∈ p) (i : Nat)
    (hle : adjointsFrom callee.signature ≤ i) (hlt : i < adjointsFrom callee.signature +
      (callee.params.filterMap (·.ty.adjoint?)).length) :
    p.lends custom.name (adjointsFrom callee.signature +
      (callee.params.filterMap (·.ty.adjoint?)).length) i = true := by
  simp only [Program.lends, hfits.split, Bool.and_eq_true]
  refine ⟨List.any_eq_true.mpr ⟨custom, hfits.mem, beq_self_eq_true _⟩, ?_⟩
  refine List.any_eq_true.mpr ⟨callee, List.mem_filter.mpr ⟨hmem, beq_self_eq_true _⟩, ?_⟩
  simp [length_pullbackParams_signature, hle, hlt]

section

variable {s : Setting} {c : Sweep} {O : String → Bool} {W : String → Prop} (hc : c.Given s)

include hc

/-- The call of a pullback that the source gives. -/
theorem adds_pullbackCall {callee custom : Func} {args : List Expr} {seed : Expr}
    {pieces : List PullbackArg} (hget : s.registry.get? .pullback callee.signature = some custom)
    (hmem : callee ∈ s.program) (hlen : callee.params.length = args.length)
    (hargs : ∀ e ∈ args, unread O e.parts = true) (hseed : unread O seed.parts = true)
    (hpieces : ∀ a ∈ pieces, a.Adds s.program.lends O)
    (hcount : pieces.length = (callee.params.filterMap (·.ty.adjoint?)).length) :
    addsAll s.program.lends O (c.pullbackCall callee custom.name args seed false pieces) = true := by
  let seeds := if callee.ret = .float then [seed] else []
  have hfrom : adjointsFrom callee.signature = args.length + seeds.length := by
    rw [adjointsFrom_signature, hlen]
    simp only [seeds]
    split <;> rfl
  have hseeds : ∀ e ∈ args ++ seeds, unread O e.parts = true := by
    intro e he
    rcases List.mem_append.mp he with he | he
    · exact hargs e he
    · have : e = seed := by
        simp only [seeds] at he
        split at he <;> simp_all
      exact this ▸ hseed
  have hplaces : ∀ e ∈ pieces.map (·.adjoint), ∃ p, e.place? = some p ∧ unread O p.parts = true := by
    intro e he
    obtain ⟨a, ha, rfl⟩ := List.mem_map.mp he
    exact (hpieces a ha).adjoint
  have hcall : (Expr.call custom.name (args ++ seeds ++ pieces.map (·.adjoint))).hands
      s.program.lends O = true := by
    have hnone := ofName?_of_splitName (f := custom.name) (by rw [(hc.fits _ _ hget).split]; rfl)
    rw [Expr.hands, hnone, handsFrom_append, handsFrom_of_unread hseeds,
      handsFrom_of_places hplaces]
    · rfl
    -- the adjoints stand where the pullback takes them
    · have hlends := lends_of_fits (hc.fits _ _ hget) hmem
      rw [hfrom, ← hcount] at hlends
      simpa [Nat.add_assoc] using hlends
  rw [pullbackCall, pullbackArgs]
  simp only [Bool.false_eq_true, ↓reduceIte, List.append_nil, addsAll_append, addsAll, Stmt.adds,
    addsAll_flatten_map fun a ha => (hpieces a ha).before,
    addsAll_flatten_map fun a ha => (hpieces a ha).after, Bool.true_and, Bool.and_true]
  exact Bool.or_eq_true_iff.mpr (.inr hcall)

/-- The adjoint of a place is a place whose index reads the same. -/
theorem unread_adjointPlace? {σ : Storage} {p q : Place} (h : c.adjointPlace? σ p = some q)
    (hp : unread O p.parts = true) :
    unread O q.parts = true ∧ ∃ d, σ.adjoint? p.name = some d ∧ q.name = d := by
  obtain ⟨d, hd, rfl⟩ := Option.map_eq_some_iff.mp h
  cases p <;> simp only [lanePlace, hc.lanes] <;> exact ⟨hp, d, hd, rfl⟩

theorem adds_toAdjoint {σ : Storage} {p : Place} {seed : Expr} (hp : unread O p.parts = true)
    (hseed : unread O seed.parts = true) (lends : Lends) :
    addsAll lends O ((c.adjointPlace? σ p).map fun q => Stmt.update q .add seed).toList = true := by
  cases hq : c.adjointPlace? σ p with
  | none => rfl
  | some q =>
    simp [addsAll, Stmt.update, Stmt.adds, Assignment.parts, (unread_adjointPlace? hc hq hp).1, hseed]

/-- The function that a call reaches and what is planned for it. -/
theorem spares_callee {lends : Lends} {f : String} (hf : calls s f) {args : List Expr} :
    Spares s lends O W (c.callee f args) fun callee => s.registry.gives callee = true ∧
      callee ∈ s.program ∧ callee.params.length = args.length := by
  refine .lift fun st hst callee st' hrun => ?_
  rw [hc.setting] at hrun
  obtain ⟨hst', hmem, hname, hlen⟩ := underived_callee hst hrun
  exact ⟨hst', hf callee hmem hname, hmem, hlen⟩

theorem spares_plan {lends : Lends} {callee : Func} (hgiven : s.registry.gives callee = true) :
    Spares s lends O W (liftM (c.plan .pullback callee c.function) : Sweeping CallPlan)
      fun plan => plan.Given s callee.signature := by
  refine .lift fun st hst plan st' hrun => ?_
  rw [hc.plan] at hrun
  exact underived_plan hgiven c.function hst hrun

theorem spares_arrayArg {callee : Func} {e : Expr} :
    Spares s s.program.lends O W (c.arrayArg callee e) fun a => a.Adds s.program.lends O := by
  refine .get_bind fun σ _ => ?_
  dsimp only
  split
  · exact .fail c _
  · simp only [hc.lanes]
    exact .pure ⟨rfl, ⟨_, rfl, rfl⟩, rfl⟩

theorem adds_argPlace? {σ : Storage} {e : Expr} {q : Place} (h : c.argPlace? σ e = some q)
    (he : unread O e.parts = true) : PullbackArg.Adds s.program.lends O ⟨[], q.toExpr, []⟩ := by
  obtain ⟨p, hp, hq⟩ := Option.bind_eq_some_iff.mp h
  rw [unread_place hp, Bool.and_eq_true] at he
  exact ⟨rfl, ⟨q, q.place?_toExpr, (unread_adjointPlace? hc hq he.2).1⟩, rfl⟩

theorem spares_refArg {callee : Func} {e : Expr} (he : unread O e.parts = true) :
    Spares s s.program.lends O W (c.refArg callee e) fun a => a.Adds s.program.lends O := by
  refine .get_bind fun σ _ => ?_
  split
  · rename_i place hplace
    exact .pure (adds_argPlace? hc hplace he)
  · exact .fail c _

end

section

variable {s : Setting} {c : Sweep} {O : String → Bool} {W : String → Prop}

mutual

theorem spares_accumulate (hc : c.Given s) : ∀ (e seed : Expr), (Rule.swept O W (calls s)).Expr e →
    unread O seed.parts = true →
    Spares s s.program.lends O W (c.accumulate seed e) fun out =>
      addsAll s.program.lends O out = true
  | e, seed, he, hseed => by
    rw [accumulate.eq_def]
    split
    · exact .pure rfl
    · cases e with
      | float v | int v | bool v | funcRef f => exact .pure rfl
      | var x => exact .get_bind fun σ _ => .pure (adds_toAdjoint hc rfl hseed _)
      | index x i =>
        have hi : unread O i.parts = true := unread_of_swept (Rule.expr_index.mp he).2
        exact .get_bind fun σ _ => .pure (adds_toAdjoint (p := .index x i) hc hi hseed _)
      | unary op inner =>
        cases op with
        | neg => exact spares_accumulate hc inner _ (Rule.expr_unary.mp he).2 (unread_negate hseed)
        | not => exact .pure rfl
      | binary op l r =>
        obtain ⟨_, hl, hr⟩ := Rule.expr_binary.mp he
        dsimp only
        split
        · rename_i toL toR hseeds
          obtain ⟨htoL, htoR⟩ :=
            unread_seedsOf? hseeds (unread_of_swept hl) (unread_of_swept hr) hseed
          refine (spares_accumulate hc l toL hl htoL).bind fun ls hls => ?_
          refine (spares_accumulate hc r toR hr htoR).bind fun rs hrs => .pure ?_
          rw [addsAll_append, hls, hrs]
          rfl
        · exact .pure rfl
      | call f args =>
        obtain ⟨hf, hargs⟩ := Rule.expr_call.mp he
        dsimp only
        split
        · exact .pure rfl
        · exact .fail c _
        · refine (spares_callee hc hf).bind fun callee hcallee => ?_
          obtain ⟨hgiven, hmem, hlen⟩ := hcallee
          refine (spares_plan hc hgiven).bind fun plan hplan => ?_
          cases plan with
          | inactive => exact .pure rfl
          | derived d => exact hplan.elim
          | custom d =>
            obtain ⟨custom, hget, rfl⟩ := hplan
            refine (spares_adjointArgs hc callee callee.params args hargs).bind fun pieces hp => ?_
            exact .pure (adds_pullbackCall hc hget hmem hlen
              (fun e he => unread_of_swept (hargs e he)) hseed hp.1 (hp.2 hlen))
          | numerical =>
            exact spares_accumulateNumerical hc callee args hargs seed 0 callee.params args hargs hseed
termination_by e => (sizeOf e, 0)

theorem spares_adjointArgs (hc : c.Given s) (callee : Func) : ∀ (ps : List Param) (es : List Expr),
    (Rule.swept O W (calls s)).Exprs es →
    Spares s s.program.lends O W (c.adjointArgs callee ps es) fun pieces =>
      (∀ a ∈ pieces, a.Adds s.program.lends O) ∧
        (ps.length = es.length → pieces.length = (ps.filterMap (·.ty.adjoint?)).length)
  | [], es, _ => by
    simp only [adjointArgs]
    exact .pure ⟨by simp, fun _ => rfl⟩
  | p :: ps, [], _ => by
    simp only [adjointArgs]
    exact .pure ⟨by simp, fun h => by simp at h⟩
  | p :: ps, e :: es, hes => by
    obtain ⟨he, hes⟩ := Rule.exprs_cons.mp hes
    have hread := unread_of_swept he
    have hrest := spares_adjointArgs hc callee ps es hes
    rw [adjointArgs]
    split
    · rename_i hnone
      refine fun σ st hσ hst a σ' st' hrun => ?_
      obtain ⟨hkept, hadds, hcount⟩ := hrest σ st hσ hst a σ' st' hrun
      rw [List.filterMap_cons, show p.ty.adjoint? = none from Option.isNone_iff_eq_none.mp hnone]
      exact ⟨hkept, hadds, fun h => hcount (by simpa using h)⟩
    rename_i hsome
    obtain ⟨t, ht⟩ : ∃ t, p.ty.adjoint? = some t := by
      cases h : p.ty.adjoint? with
      | none => simp [h] at hsome
      | some t => exact ⟨t, rfl⟩
    -- whatever the first piece is made from, the others follow
    have hfirst : ∀ {m : Sweeping PullbackArg},
        Spares s s.program.lends O W m (fun a => a.Adds s.program.lends O) →
        Spares s s.program.lends O W (do
            let piece ← m
            return piece :: (← c.adjointArgs callee ps es)) fun pieces =>
          (∀ a ∈ pieces, a.Adds s.program.lends O) ∧ ((p :: ps).length = (e :: es).length →
            pieces.length = ((p :: ps).filterMap (·.ty.adjoint?)).length) := by
      refine fun hm => hm.bind fun piece hpiece => hrest.bind fun pieces hpieces => .pure ?_
      rw [List.filterMap_cons, ht]
      refine ⟨fun a ha => ?_, fun h => congrArg (· + 1) (hpieces.2 (by simpa using h))⟩
      rcases List.mem_cons.mp ha with rfl | ha
      · exact hpiece
      · exact hpieces.1 a ha
    split
    · exact hfirst (spares_arrayArg hc)
    · exact hfirst (spares_refArg hc hread)
    · refine .get_bind fun σ _ => ?_
      split
      · rename_i place hplace
        exact hfirst (m := pure ⟨[], place.toExpr, []⟩) (.pure (adds_argPlace? hc hplace hread))
      · refine (Spares.hoistNew "_r" .float).bind fun temp htemp => ?_
        refine (spares_accumulate hc e (.var temp) he (by simpa using htemp)).bind fun after hafter => ?_
        refine hfirst (m := pure ⟨[.set temp .zero], .var temp, after⟩)
          (.pure ⟨?_, ⟨_, rfl, rfl⟩, hafter⟩)
        simp [addsAll, Stmt.set, Stmt.adds, Assignment.parts, Place.name, Place.parts, htemp, Expr.zero]
termination_by _ es => (sizeOf es, 1)

theorem spares_accumulateNumerical (hc : c.Given s) (callee : Func) (args : List Expr)
    (hargs : (Rule.swept O W (calls s)).Exprs args) :
    ∀ (seed : Expr) (k : Nat) (ps : List Param) (es : List Expr),
      (Rule.swept O W (calls s)).Exprs es → unread O seed.parts = true →
      Spares s s.program.lends O W (c.accumulateNumerical callee args seed k ps es) fun out =>
        addsAll s.program.lends O out = true
  | _, _, [], _, _, _ | _, _, _ :: _, [], _, _ => by
    simp only [accumulateNumerical]
    exact .pure rfl
  | seed, k, p :: ps, e :: es, hes, hseed => by
    obtain ⟨he, hes⟩ := Rule.exprs_cons.mp hes
    have hrate : unread O (centralDifference callee.name k c.setting.options.printNumericalErrors
        args).parts = true := by
      simp only [centralDifference, Expr.ofNat, unread_call, List.all_cons, unread_funcRef,
        unread_int, unread_bool, Bool.true_and, List.all_eq_true]
      exact fun e he => unread_of_swept (hargs e he)
    rw [accumulateNumerical]
    split
    · refine (spares_accumulate hc e _ he (unread_times hseed hrate)).bind fun own hown => ?_
      refine (spares_accumulateNumerical hc callee args hargs seed (k + 1) ps es hes hseed).bind
        fun rest hrest => .pure ?_
      rw [addsAll_append, hown, hrest]
      rfl
    · exact spares_accumulateNumerical hc callee args hargs seed (k + 1) ps es hes hseed
termination_by _ _ _ es => (sizeOf es, 1)

end

/-! ### Statements -/

section

variable {lends : Lends}

theorem adds_term (sink : ErrorSink) {adjoint value : Expr} (hadjoint : unread O adjoint.parts = true)
    (hvalue : unread O value.parts = true) : (sink.term adjoint value).adds lends O = true := by
  have hproduct := unread_times (unread_times hadjoint hvalue) (unread_float sink.epsilon)
  simp [ErrorSink.term, Stmt.update, Stmt.adds, Assignment.parts, Place.parts, hproduct]

theorem adds_assign (place : Place) (op : AssignOp) {value : Expr} (hname : O place.name = false)
    (hplace : unread O place.parts = true) (hvalue : unread O value.parts = true) :
    (Stmt.update place op value).adds lends O = true := by
  simp [Stmt.update, Stmt.adds, Assignment.parts, hname, hplace, hvalue]

theorem adds_inverse? {ty : Ty} {a : Assignment} {back : Stmt} (h : inverse? ty a = some back)
    (hname : O a.place.name = false) (hplace : unread O a.place.parts = true)
    (hvalue : unread O a.value.parts = true) : back.adds lends O = true := by
  unfold inverse? at h
  split at h
  · split at h <;> cases h <;> exact adds_assign _ _ hname hplace hvalue
  · cases h

theorem adds_let {x : String} (ty : Ty) {init : Option Expr} (hx : O x = false)
    (hinit : ∀ e, init = some e → unread O e.parts = true) :
    (Stmt.let_ x ty init).adds lends O = true := by
  cases init with
  | none => simp [Stmt.let_, Stmt.adds, Local.parts, hx]
  | some e => simp [Stmt.let_, Stmt.adds, Local.parts, hx, hinit e rfl]

theorem unread_toExpr {place : Place} (hname : O place.name = false)
    (hplace : unread O place.parts = true) : unread O place.toExpr.parts = true := by
  rw [unread_place place.place?_toExpr, hname, hplace]
  rfl

theorem spares_save {place : Place} (ty : Ty) (hname : O place.name = false)
    (hplace : unread O place.parts = true) :
    Spares s lends O W (save false place ty) fun w =>
      w.1.adds lends O = true ∧ w.2.adds lends O = true := by
  refine (Spares.hoistNew "_t" ty).bind fun slot hslot => .pure ⟨?_, ?_⟩
  · exact adds_assign (.var slot) .set hslot rfl (unread_toExpr hname hplace)
  · exact adds_assign _ .set hname hplace (by simpa using hslot)

end

/-- The adjoint of what is assigned moves on to the operands. -/
theorem spares_moveAdjoint (hc : c.Given s) {place adjoint : Place} (op : AssignOp) {value : Expr}
    (hplace : (Rule.swept O W (calls s)).Expr place.toExpr)
    (hvalue : (Rule.swept O W (calls s)).Expr value) (hname : O adjoint.name = false)
    (hadjoint : unread O adjoint.parts = true) :
    Spares s s.program.lends O W (c.moveAdjoint place adjoint op value) fun out =>
      addsAll s.program.lends O out = true := by
  refine (Spares.numbered "_r_d").bind fun r hr => ?_
  have hreset : addsAll s.program.lends O (if (op == .set || op == .mul || op == .div)
      then [Stmt.update adjoint .set .zero] else []) = true := by
    have hzero : (Stmt.update adjoint .set .zero).adds s.program.lends O = true :=
      adds_assign _ .set hname hadjoint (unread_float 0.0)
    split
    · rw [addsAll, hzero]
      rfl
    · rfl
  have hseed : unread O (Expr.var r).parts = true := by simpa using hr
  -- what is accumulated differs with the operator, the rest does not
  have hall : ∀ {m : Sweeping (List Stmt)} (reset : List Stmt),
      addsAll s.program.lends O reset = true →
      Spares s s.program.lends O W m (fun out => addsAll s.program.lends O out = true) →
      Spares s s.program.lends O W (do
        let accumulated ← m
        if accumulated.isEmpty then return reset
        else
          Sweeping.hoist (.let_ r .float none)
          return .set r adjoint.toExpr :: (reset ++ accumulated)) fun out =>
        addsAll s.program.lends O out = true := by
    intro m reset hreset hm
    refine hm.bind fun out hout => ?_
    split
    · exact .pure hreset
    · refine (Spares.hoist (adds_let .float hr (by simp))).bind fun _ _ => .pure ?_
      have hread : (Stmt.set r adjoint.toExpr).adds s.program.lends O = true :=
        adds_assign (.var r) .set hr rfl (unread_toExpr hname hadjoint)
      rw [addsAll, addsAll_append, hreset, hout, hread]
      rfl
  have hbinary : ∀ op, (Rule.swept O W (calls s)).Expr (.binary op place.toExpr value) := fun op =>
    Rule.expr_binary.mpr ⟨trivial, hplace, hvalue⟩
  cases op with
  | set => exact hall _ hreset (spares_accumulate hc _ _ hvalue hseed)
  | add => exact hall _ hreset (spares_accumulate hc _ _ hvalue hseed)
  | sub => exact hall _ hreset (spares_accumulate hc _ _ hvalue (unread_negate hseed))
  | mul => exact hall _ hreset (spares_accumulate hc _ _ (hbinary .mul) hseed)
  | div => exact hall _ hreset (spares_accumulate hc _ _ (hbinary .div) hseed)

theorem spares_host {lends : Lends} : Spares s lends O W c.host fun _ => True := by
  refine .lift fun st hst a st' hrun => ?_
  cases hrun
  exact ⟨hst, trivial⟩

theorem spares_checkPure {lends : Lends} (e : Expr) :
    Spares s lends O W (c.checkPure e) fun _ => True := by
  refine spares_host.bind fun host _ => ?_
  split
  · exact .fail c _
  · exact .pure trivial

theorem adds_of_swept {a : Assignment} (ha : (Rule.swept O W (calls s)).Assignment a) :
    (Stmt.assign a).adds s.program.lends O = true :=
  adds_assign _ a.op ha.1.1 (unread_of_swept ha.2.1) (unread_of_swept ha.2.2)

/-- After the value is saved, if it is, the adjoint moves. -/
theorem spares_moved (hc : c.Given s) {a : Assignment} (ty : Ty)
    (ha : (Rule.swept O W (calls s)).Assignment a) (saved : Option (Stmt × Stmt))
    (hsaved : ∀ w ∈ saved, w.1.adds s.program.lends O = true ∧ w.2.adds s.program.lends O = true) :
    Spares s s.program.lends O W (do
      let storage ← get
      let adjoint := if ty = .float then c.adjointPlace? storage a.place else none
      let errors := match adjoint, c.error with
        | some p, some sink => [sink.term p.toExpr a.place.toExpr]
        | _, _ => []
      let moved ← match adjoint with
        | some p => c.moveAdjoint a.place p a.op a.value
        | none => pure []
      return (⟨(saved.map (·.1)).toList ++ [.assign a],
        errors ++ (saved.map (·.2)).toList ++ c.perLane moved⟩ : Sweeps)) fun w =>
      w.Adds s.program.lends O := by
  have hprimal := adds_of_swept ha
  obtain ⟨⟨hname, hassigned⟩, hparts, hvalue⟩ := ha
  have hplace : unread O a.place.parts = true := unread_of_swept hparts
  have hread : (Rule.swept O W (calls s)).Expr a.place.toExpr := by
    cases hp : a.place <;> rw [hp] at hname hparts
    · exact Rule.expr_var.mpr hname
    · exact Rule.expr_index.mpr ⟨hname, hparts⟩
  refine .get_bind fun σ hσ => ?_
  have hsaves : addsAll s.program.lends O (saved.map (·.1)).toList = true ∧
      addsAll s.program.lends O (saved.map (·.2)).toList = true := by
    cases saved with
    | none => exact ⟨rfl, rfl⟩
    | some w => simpa [addsAll] using hsaved w rfl
  have hfirst : addsAll s.program.lends O ((saved.map (·.1)).toList ++ [.assign a]) = true := by
    rw [addsAll_append, hsaves.1, addsAll, hprimal]
    rfl
  cases hadjoint : (if ty = .float then c.adjointPlace? σ a.place else none) with
  | none =>
    simp only
    refine .pure ⟨hfirst, ?_⟩
    rw [Sweep.perLane, hc.lanes]
    simpa using hsaves.2
  | some q =>
    have hq : c.adjointPlace? σ a.place = some q := by
      split at hadjoint
      · exact hadjoint
      · cases hadjoint
    obtain ⟨hqparts, d, hd, hqname⟩ := unread_adjointPlace? hc hq hplace
    -- the variable is assigned, so its adjoint is none of `O`
    have hO : O q.name = false := by
      rw [hqname]
      by_contra hO
      exact hσ.kept _ _ hd ((Bool.not_eq_false _).mp hO) hassigned
    refine (spares_moveAdjoint hc a.op hread hvalue hO hqparts).bind fun moved hmoved =>
      .pure ⟨hfirst, ?_⟩
    rw [addsAll_append, addsAll_append, hsaves.2, Sweep.perLane, hc.lanes, hmoved]
    cases c.error with
    | none => rfl
    | some sink =>
      simp [addsAll, adds_term sink (unread_toExpr hO hqparts) (unread_toExpr hname hplace)]

theorem spares_assignment (hc : c.Given s) {a : Assignment} (first : Bool)
    (ha : (Rule.swept O W (calls s)).Assignment a) :
    Spares s s.program.lends O W (c.assignment false a first) fun w => w.Adds s.program.lends O := by
  have hplace : unread O a.place.parts = true := unread_of_swept ha.2.1
  refine (spares_checkPure a.value).bind fun _ _ => ?_
  split
  · exact .fail c _
  rename_i ty _
  split
  · rename_i back hback
    have hundo : back.adds s.program.lends O = true :=
      adds_inverse? hback ha.1.1 hplace (unread_of_swept ha.2.2)
    exact .pure ⟨by simp [addsAll, adds_of_swept ha], by simp [addsAll, hundo]⟩
  dsimp only
  split
  · exact (spares_save ty ha.1.1 hplace).bind fun w hw =>
      spares_moved hc ty ha (some w) (by simpa using hw)
  · exact spares_moved hc ty ha none (by simp)

theorem spares_declaration (hc : c.Given s) {d : Local} (hd : (Rule.swept O W (calls s)).Local d) :
    Spares s s.program.lends O W (c.declaration false d) fun w => w.Adds s.program.lends O := by
  obtain ⟨⟨hname, hassigned⟩, hinit⟩ := hd
  have hassign : (Rule.swept O W (calls s)).Assignment
      ⟨.var d.name, .set, d.init.getD (zeroLiteral d.ty)⟩ := by
    refine ⟨⟨hname, hassigned⟩, by simp [Rule.Place, Place.parts], ?_⟩
    cases h : d.init with
    | some e => exact hinit e h
    | none => cases d.ty <;> simp [zeroLiteral, Rule.Expr, Expr.zero, Expr.parts, Rule.swept]
  unfold declaration
  split
  · refine (Spares.hoist (adds_let d.ty hname (by simp))).bind fun _ _ => ?_
    split
    · refine (Spares.fresh _).bind fun x hx => ?_
      rw [hc.lanes]
      refine (Spares.hoist (adds_let .float hx (by simp [Expr.zero]))).bind fun _ _ => ?_
      exact (Spares.bindAdjoint d.name hx).bind fun _ _ => spares_assignment hc _ hassign
    · exact spares_assignment hc _ hassign
  · exact .fail c _

theorem spares_arrayDeclaration (hc : c.Given s) {x : String} {elem : Ty} {len : Expr}
    (h : (Rule.swept O W (calls s)).Array x elem len) :
    Spares s s.program.lends O W (c.arrayDeclaration false x elem len) fun w =>
      w.Adds s.program.lends O := by
  obtain ⟨⟨hx, _⟩, hlen⟩ := h
  have hread := unread_of_swept hlen
  have hdecl : ∀ {y : String} (elem : Ty), O y = false →
      (Stmt.arrayDecl y elem len).adds s.program.lends O = true := fun elem hy => by
    simp [Stmt.adds, hy, hread]
  unfold arrayDeclaration
  simp only [Bool.false_eq_true, ↓reduceIte]
  split
  · refine (Spares.fresh _).bind fun d hd => (Spares.bindAdjoint x hd).bind fun _ _ => .pure ⟨?_, rfl⟩
    rw [hc.lanes]
    simp [adjointDecl, addsAll, hdecl _ hx, hdecl _ hd]
  · exact .pure ⟨by simp [addsAll, hdecl _ hx], rfl⟩

theorem spares_returned (hc : c.Given s) {value : Option Expr}
    (hseed : ∀ e, c.seed = some e → unread O e.parts = true)
    (h : ∀ e, value = some e → (Rule.swept O W (calls s)).Expr e) :
    Spares s s.program.lends O W (c.returned value) fun w => w.Adds s.program.lends O := by
  unfold returned
  split
  · rename_i value seed hs
    have hvalue := h value rfl
    have hs := hseed seed hs
    refine (spares_checkPure value).bind fun _ _ => spares_host.bind fun host _ => ?_
    split
    · refine (spares_accumulate hc value seed hvalue hs).bind fun out hout => .pure ⟨rfl, ?_⟩
      rw [addsAll_append, Bool.and_eq_true]
      refine ⟨?_, hout⟩
      cases c.error with
      | none => rfl
      | some sink =>
        dsimp only
        split
        · simp [addsAll, adds_term sink hs (unread_of_swept hvalue)]
        · rfl
    · exact .pure ⟨rfl, rfl⟩
  · exact .pure ⟨rfl, rfl⟩

theorem adds_copyLoop (lends : Lends) {i target source : String} (hi : O i = false)
    (htarget : O target = false) (hsource : O source = false) :
    (copyLoop i target source).adds lends O = true := by
  simp [copyLoop, countedLoop, lenOf, Stmt.adds, addsAll, LoopInit.spares, Local.parts, Stmt.update,
    Assignment.spares, Assignment.parts, Place.parts, Place.name, Expr.less, hi, htarget, hsource]

theorem spares_saveArg {f : String} {p : Param} {arg : Expr}
    (harg : unread O arg.parts = true) :
    Spares s s.program.lends O W (c.saveArg ⟨false, false⟩ f p arg) fun w =>
      w.Adds s.program.lends O := by
  unfold saveArg
  split
  · split
    · exact .fail c _
    rename_i place hplace
    rw [unread_place hplace, Bool.and_eq_true, Bool.not_eq_true'] at harg
    split
    · exact .fail c _
    · refine (spares_save _ harg.1 harg.2).bind fun w hw => .pure ⟨?_, ?_⟩
      · simp [addsAll, hw.1]
      · simp [addsAll, hw.2]
  · simp only [Bool.false_eq_true, ↓reduceIte]
    split
    · rename_i array
      have harray : O array = false := by simpa using harg
      refine (Spares.numbered _).bind fun copy hcopy => ?_
      refine (Spares.numbered _).bind fun i hi => (Spares.numbered _).bind fun j hj => .pure ⟨?_, ?_⟩
      · simp [addsAll, adds_copyLoop _ hi hcopy harray, Stmt.adds, hcopy, lenOf, harray]
      · simp [addsAll, adds_copyLoop _ hj harray hcopy]
    · exact .fail c _
  · exact .pure ⟨rfl, rfl⟩

theorem spares_saveArgs {f : String} {written : List Nat} : ∀ {i : Nat} {ps : List Param}
    {es : List Expr}, (∀ e ∈ es, unread O e.parts = true) →
    Spares s s.program.lends O W (c.saveArgs ⟨false, false⟩ f written i ps es) fun w =>
      w.Adds s.program.lends O
  | _, [], _, _ | _, _ :: _, [], _ => by
    simp only [saveArgs]
    exact .pure ⟨rfl, rfl⟩
  | i, p :: ps, e :: es, hes => by
    have hrest : ∀ own : Sweeps, own.Adds s.program.lends O →
        Spares s s.program.lends O W (do
          let rest ← c.saveArgs ⟨false, false⟩ f written (i + 1) ps es
          return (⟨own.primal ++ rest.primal, own.adjoint ++ rest.adjoint⟩ : Sweeps)) fun w =>
          w.Adds s.program.lends O := by
      refine fun own hown => (spares_saveArgs fun e he => hes e (List.mem_cons_of_mem _ he)).bind
        fun rest hrest => .pure ⟨?_, ?_⟩
      · rw [addsAll_append, hown.primal, hrest.primal]
        rfl
      · rw [addsAll_append, hown.adjoint, hrest.adjoint]
        rfl
    rw [saveArgs]
    split
    · exact (spares_saveArg (hes e (List.mem_cons_self ..))).bind hrest
    · exact hrest ⟨[], []⟩ ⟨rfl, rfl⟩

theorem spares_callStmt (hc : c.Given s) {f : String} {args : List Expr}
    (h : (Rule.swept O W (calls s)).Expr (.call f args)) :
    Spares s s.program.lends O W (c.callStmt ⟨false, false⟩ f args) fun w =>
      w.Adds s.program.lends O := by
  obtain ⟨hf, hargs⟩ := Rule.expr_call.mp h
  have hcall : (Stmt.expr (.call f args)).adds s.program.lends O = true := by
    rw [Stmt.adds, unread_of_swept h]
    rfl
  unfold callStmt
  split
  · exact .fail c _
  · exact .fail c _
  · exact .pure ⟨by simp [addsAll, hcall], rfl⟩
  refine (spares_callee hc hf).bind fun callee hcallee => spares_host.bind fun host _ => ?_
  obtain ⟨hgiven, hmem, hlen⟩ := hcallee
  refine (spares_saveArgs fun e he => unread_of_swept (hargs e he)).bind fun saved hsaved => ?_
  have hrest : ∀ pulled : List Stmt, addsAll s.program.lends O pulled = true →
      Sweeps.Adds s.program.lends O
        ⟨saved.primal ++ [.expr (.call f args)], saved.adjoint ++ pulled⟩ := by
    refine fun pulled hpulled => ⟨?_, ?_⟩
    · rw [addsAll_append, hsaved.primal, addsAll, hcall]
      rfl
    · rw [addsAll_append, hsaved.adjoint, hpulled]
      rfl
  refine spares_host.bind fun host _ => ?_
  split
  · refine Spares.bind (Q := fun pulled => addsAll s.program.lends O pulled = true) ?_
      fun pulled hpulled => .pure (hrest pulled hpulled)
    refine (spares_plan hc hgiven).bind fun plan hplan => ?_
    cases plan with
    | inactive | numerical => exact .pure rfl
    | derived d => exact hplan.elim
    | custom d =>
      obtain ⟨custom, hget, rfl⟩ := hplan
      refine (spares_adjointArgs hc callee callee.params args hargs).bind fun pieces hp => .pure ?_
      rw [Sweep.perLane, hc.lanes]
      exact adds_pullbackCall hc hget hmem hlen (fun e he => unread_of_swept (hargs e he))
        (unread_float _) hp.1 (hp.2 hlen)
  · exact .pure (hrest [] rfl)

/-- Statements other than branches, loops and blocks. -/
theorem spares_stmt (hc : c.Given s) (hseed : ∀ e, c.seed = some e → unread O e.parts = true)
    {stmt : Stmt} (hstep : stmt.isStep = true) (h : (Rule.swept O W (calls s)).Stmt stmt) :
    Spares s s.program.lends O W (c.stmt ⟨false, false⟩ stmt) fun w =>
      w.Adds s.program.lends O := by
  cases stmt with
  | cond | for_ | while_ | block => cases hstep
  | decl d => exact spares_declaration hc h
  | arrayDecl x elem len => exact spares_arrayDeclaration hc h
  | assign a => exact spares_assignment hc false h
  | ret value => exact spares_returned hc hseed h.2
  | expr e =>
    have hother : Spares s s.program.lends O W (do
        c.checkPure e
        return (⟨[.expr e], []⟩ : Sweeps)) fun w => w.Adds s.program.lends O := by
      refine (spares_checkPure e).bind fun _ _ => .pure ⟨?_, rfl⟩
      rw [addsAll, Stmt.adds, unread_of_swept h]
      rfl
    cases e with
    | call f args => exact spares_callStmt hc h
    | _ => exact hother

/-- The sweeps of a straight line only add to adjoints of variables that it does not assign. -/
theorem spares_body (hc : c.Given s) (hseed : ∀ e, c.seed = some e → unread O e.parts = true) :
    ∀ {body : List Stmt},
      (∀ stmt ∈ body, stmt.isStep = true ∧ (Rule.swept O W (calls s)).Stmt stmt) →
      Spares s s.program.lends O W (c.body ⟨false, false⟩ body) fun w => w.Adds s.program.lends O
  | [], _ => .pure ⟨rfl, rfl⟩
  | stmt :: body, h => by
    obtain ⟨hstep, hstmt⟩ := h stmt (List.mem_cons_self ..)
    rw [Sweep.body]
    refine (spares_stmt hc hseed hstep hstmt).bind fun first hfirst => ?_
    refine (spares_body hc hseed fun t ht => h t (List.mem_cons_of_mem _ ht)).bind
      fun rest hrest => .pure ⟨?_, ?_⟩
    · rw [addsAll_append, hfirst.primal, hrest.primal]
      rfl
    · rw [addsAll_append, hrest.adjoint, hfirst.adjoint]
      rfl

end

end Sweep

end Derive

end Fluxion
