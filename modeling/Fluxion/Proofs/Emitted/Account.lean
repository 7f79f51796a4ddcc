import Fluxion.Derive.Plan
import Fluxion.Proofs.Emitted.Calls

/-!
Accounts of a differentiation. What derived code calls is followed through all its steps once, for
every account of the progress that these steps respect.
-/

namespace Fluxion.Derive

open Library (DerivativeKind)

/-- An account of the progress that is kept while functions are differentiated. -/
structure Account (s : Setting) where
  /-- What holds between two steps that succeed. -/
  Good : Progress → Prop
  /-- What holds after a step that fails. -/
  Failed : DeriveError → Progress → Prop
  /-- What one progress says about a later one. -/
  Later : Progress → Progress → Prop
  /-- Functions that may be differentiated when a call reaches them. -/
  Source : Progress → Func → Prop
  refl : ∀ st, Later st st
  trans : ∀ {a b c}, Later a b → Later b c → Later a c
  names : ∀ {st st'}, Later st st' → ∀ g ∈ st.names.used, g ∈ st'.names.used
  source_later : ∀ {st st'}, Later st st' → ∀ {f}, Source st f → Source st' f
  source_host : ∀ {st}, Good st → ∀ {name types f}, (s.host st).resolve name types = some f →
    Source st f
  unsupported : ∀ {st}, Good st → ∀ f o, Failed (.unsupported f o) st
  withNames : ∀ {st}, Good st → ∀ {names : NameSupply}, (∀ g ∈ st.names.used, g ∈ names.used) →
    Good { st with names } ∧ Later st { st with names }

/-- Calls that code derived from the function `caller` may hold. -/
structure Permit {s : Setting} (A : Account s) where
  caller : String
  /-- A call of a function may stand by now, when its first argument refers to the given
  function. -/
  May : Progress → String → Option String → Prop
  later : ∀ {st st'}, A.Later st st' → ∀ {f g}, May st f g → May st' f g
  intrinsic : ∀ {f}, (Intrinsic.ofName? f).isSome → f ≠ Intrinsic.centralDifferenceName →
    ∀ st g, May st f g
  abs : ∀ st g, May st "abs" g
  custom : ∀ {kind sig f}, s.registry.get? kind sig = some f → ∀ st g, May st f.name g

variable {s : Setting} {A : Account s} {B : Permit A} {st st' : Progress}

/-- Code that holds only calls that it may hold by now. -/
abbrev Permit.Covered (B : Permit A) (st : Progress) (es : List Expr) : Prop :=
  CallsWith (B.May st) es

namespace Account

theorem Later.refl (st : Progress) : A.Later st st := A.refl st

theorem Later.trans {a b c : Progress} (hab : A.Later a b) (hbc : A.Later b c) : A.Later a c :=
  A.trans hab hbc

theorem Later.calls (h : A.Later st st') {es : List Expr} (hes : B.Covered st es) :
    B.Covered st' es :=
  hes.mono fun _ _ => B.later h

/-- A step from `st` ends well: it keeps what was there, and what it gives has the property
`Q`. -/
def Ends (A : Account s) {α : Type} (st : Progress) (Q : α → Progress → Prop)
    (m : Derivation α) : Prop :=
  match m st with
  | .ok a st' => A.Good st' ∧ A.Later st st' ∧ Q a st'
  | .error e st' => A.Failed e st' ∧ A.Later st st'

section

variable {α β : Type}

theorem Ends.pure {Q : α → Progress → Prop} {a : α} (hg : A.Good st) (h : Q a st) :
    A.Ends st Q (pure a) :=
  ⟨hg, .refl st, h⟩

theorem Ends.throw {Q : α → Progress → Prop} {e : DeriveError} (h : A.Failed e st) :
    A.Ends st Q (throw e) :=
  ⟨h, .refl st⟩

theorem Ends.unsupported {Q : α → Progress → Prop} {f : String} {o : Obstacle} (hg : A.Good st) :
    A.Ends st Q (Derive.unsupported f o) :=
  .throw (A.unsupported hg f o)

theorem Ends.bind {Q : α → Progress → Prop} {R : β → Progress → Prop} {m : Derivation α}
    {f : α → Derivation β} (hm : A.Ends st Q m)
    (hf : ∀ a st', A.Good st' → A.Later st st' → Q a st' → A.Ends st' R (f a)) :
    A.Ends st R (m >>= f) := by
  simp only [Ends, Bind.bind, EStateM.bind] at hm ⊢
  cases hms : m st with
  | error e st' =>
    rw [hms] at hm
    exact hm
  | ok a st' =>
    rw [hms] at hm
    obtain ⟨hgood, hlater, hq⟩ := hm
    have hend := hf a st' hgood hlater hq
    simp only [Ends] at hend ⊢
    cases hfs : f a st' with
    | ok b st'' =>
      rw [hfs] at hend
      exact ⟨hend.1, hlater.trans hend.2.1, hend.2.2⟩
    | error e st'' =>
      rw [hfs] at hend
      exact ⟨hend.1, hlater.trans hend.2⟩

theorem Ends.imp {Q R : α → Progress → Prop} {m : Derivation α} (hm : A.Ends st Q m)
    (h : ∀ a st', A.Later st st' → Q a st' → R a st') : A.Ends st R m := by
  unfold Ends at hm ⊢
  cases hms : m st with
  | error e st' =>
    rw [hms] at hm
    exact hm
  | ok a st' =>
    rw [hms] at hm
    exact ⟨hm.1, hm.2.1, h a st' hm.2.1 hm.2.2⟩

/-- What a step gives is what its run gives. -/
theorem Ends.run {Q : α → Progress → Prop} {m : Derivation α} (hm : A.Ends st Q m) :
    A.Ends st (fun a st' => Q a st' ∧ m st = .ok a st') m := by
  unfold Ends at hm ⊢
  cases hms : m st with
  | error e st' =>
    rw [hms] at hm
    exact hm
  | ok a st' =>
    rw [hms] at hm
    exact ⟨hm.1, hm.2.1, hm.2.2, rfl⟩

/-- A step that only looks at the progress. -/
theorem Ends.get_bind {R : β → Progress → Prop} {f : Progress → Derivation β}
    (h : A.Ends st R (f st)) : A.Ends st R (get >>= f) := h

theorem ends_currentHost_bind {Q : α → Progress → Prop} {f : Host → Derivation α}
    (h : A.Ends st Q (f (s.host st))) : A.Ends st Q (currentHost s >>= f) := h

end

/-- Since `st` a name was taken for a new function, and it was free by then. -/
def Took (A : Account s) (st : Progress) (name : String) (st' : Progress) : Prop :=
  ∃ st₁ names, A.Good st₁ ∧ A.Later st st₁ ∧ name ∉ st₁.names.used ∧ name ∈ names.used ∧
    A.Later { st₁ with names } st'

section

variable {name : String} {st₂ : Progress}

theorem Took.later (h : A.Took st name st') (hl : A.Later st' st₂) : A.Took st name st₂ := by
  obtain ⟨st₁, names, hgood, hsince, hfree, htaken, hthen⟩ := h
  exact ⟨st₁, names, hgood, hsince, hfree, htaken, hthen.trans hl⟩

theorem Took.since (h : A.Took st' name st₂) (hl : A.Later st st') : A.Took st name st₂ := by
  obtain ⟨st₁, names, hgood, hsince, hfree, htaken, hthen⟩ := h
  exact ⟨st₁, names, hgood, hl.trans hsince, hfree, htaken, hthen⟩

theorem Took.free (h : A.Took st name st') : name ∉ st.names.used := by
  obtain ⟨_, _, _, hsince, hfree, _⟩ := h
  exact fun hused => hfree (A.names hsince name hused)

theorem Took.used (h : A.Took st name st') : name ∈ st'.names.used := by
  obtain ⟨_, _, _, _, _, htaken, hthen⟩ := h
  exact A.names hthen name htaken

end

/-- A new function gets a name that was free, and nothing else changes. -/
theorem ends_functionName (hg : A.Good st) (base : String) :
    A.Ends st (fun name st' => A.Took st name st' ∧ st' = { st with names := st'.names } ∧
      ∃ n, name = NameSupply.variant (plainName base) n) (functionName base) := by
  have hgrow : ∀ g ∈ st.names.used, g ∈ (st.names.fresh (plainName base)).2.used := by
    intro g hmem
    simp [hmem]
  obtain ⟨hgood, hlater⟩ := A.withNames hg hgrow
  refine ⟨hgood, hlater, ⟨st, (st.names.fresh (plainName base)).2, hg, .refl st,
    st.names.fresh_fresh _, List.mem_cons_self, .refl _⟩, rfl, st.names.firstFree_mem _ _ _⟩

/-- The function that a call reaches may be differentiated. -/
theorem ends_calleeOf (hg : A.Good st) (function : String) (env : TyEnv) (name : String)
    (args : List Expr) :
    A.Ends st (fun f st' => A.Source st' f) (calleeOf s function env name args) := by
  unfold calleeOf
  refine ends_currentHost_bind ?_
  split
  · rename_i f hf
    obtain ⟨types, _, hresolve⟩ := Option.bind_eq_some_iff.mp hf
    exact .pure hg (A.source_host hg hresolve)
  · exact .unsupported hg

end Account

namespace Permit

theorem len (B : Permit A) (st : Progress) : B.May st "len" none :=
  B.intrinsic (by decide) (by decide) st none

/-- What derived code may hold when calls of a function are differentiated as planned. -/
def Planned (B : Permit A) (callee : Func) (made : CallPlan) (st : Progress) : Prop :=
  match made with
  | .inactive => True
  | .custom f | .derived f => ∀ g, B.May st f g
  | .numerical => B.May st Intrinsic.centralDifferenceName (some callee.name)

/-- Plans can be followed. -/
def Plans (B : Permit A) (plan : Planner) : Prop :=
  ∀ kind callee st, A.Good st → A.Source st callee →
    A.Ends st (B.Planned callee) (plan kind callee B.caller)

theorem Plans.at {plan : Planner} (hp : B.Plans plan) {caller : String} (hc : caller = B.caller)
    (kind : DerivativeKind) {callee : Func} (hg : A.Good st) (hs : A.Source st callee) :
    A.Ends st (B.Planned callee) (plan kind callee caller) :=
  hc ▸ hp kind callee st hg hs

theorem Planned.later {callee : Func} {made : CallPlan} (h : B.Planned callee made st)
    (hl : A.Later st st') : B.Planned callee made st' := by
  cases made with
  | inactive => exact h
  | custom f => exact fun g => B.later hl (h g)
  | derived f => exact fun g => B.later hl (h g)
  | numerical => exact B.later hl h

end Permit

end Fluxion.Derive
