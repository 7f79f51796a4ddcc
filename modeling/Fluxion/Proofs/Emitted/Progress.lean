import Fluxion.Proofs.Emitted.Functions

/-!
What a differentiation keeps true of its progress, whether its steps succeed or fail. A failure
drops the functions derived since a mark, but a recursive call may have recorded a plan to use the
function that was under way, and that plan stays.
-/

namespace Fluxion.Derive

open Library (DerivativeKind)

/-- Names of the functions in a list. -/
def namesOf (fs : List Func) : List String := fs.map (·.name)

/-- Names of the derivatives under way. -/
def Chain.names (c : Chain) : List String := c.map (·.name)

/-- A plan to call `g` is recorded. -/
def Progress.Plans (st : Progress) (g : String) : Prop := ∃ key, (key, .derived g) ∈ st.plans

/-- What derived code may call while the derivatives of `chain` are under way: an intrinsic, a
function of the program or of the support, one under way, or one that a plan names. -/
inductive Callable (p : Program) (chain : Chain) (st : Progress) (g : String) : Prop where
  | intrinsic (h : (Intrinsic.ofName? g).isSome)
  | program (h : g ∈ namesOf p)
  | support (h : g ∈ namesOf st.support)
  | underWay (h : g ∈ chain.names)
  | planned (h : st.Plans g)

/-- What was derived and planned stays when a differentiation goes on, and new functions have new
names. -/
structure Later (st st' : Progress) : Prop where
  support : ∃ added, st'.support = st.support ++ added ∧ ∀ f ∈ added, f.name ∉ st.names.used
  names : ∀ g ∈ st.names.used, g ∈ st'.names.used
  plans : ∀ key g, (key, .derived g) ∈ st.plans → (key, .derived g) ∈ st'.plans

theorem Later.refl (st : Progress) : Later st st :=
  ⟨⟨[], by simp, by simp⟩, fun _ h => h, fun _ _ h => h⟩

theorem Later.trans {a b c : Progress} (hab : Later a b) (hbc : Later b c) : Later a c := by
  obtain ⟨new, hnew, hfresh⟩ := hab.support
  obtain ⟨new', hnew', hfresh'⟩ := hbc.support
  refine ⟨⟨new ++ new', by rw [hnew', hnew, List.append_assoc], ?_⟩,
    fun g hg => hbc.names g (hab.names g hg), fun k g h => hbc.plans k g (hab.plans k g h)⟩
  intro f hf
  rcases List.mem_append.mp hf with hf | hf
  · exact hfresh f hf
  · exact fun hused => hfresh' f hf (hab.names _ hused)

theorem Later.mem_support {st st' : Progress} (h : Later st st') {g : String}
    (hg : g ∈ namesOf st.support) : g ∈ namesOf st'.support := by
  obtain ⟨new, hnew, _⟩ := h.support
  simp only [namesOf, hnew, List.map_append, List.mem_append] at hg ⊢
  exact .inl hg

theorem Callable.mono {p : Program} {chain : Chain} {st st' : Progress} (h : Later st st')
    {g : String} : Callable p chain st g → Callable p chain st' g
  | .intrinsic hg => .intrinsic hg
  | .program hg => .program hg
  | .support hg => .support (h.mem_support hg)
  | .underWay hg => .underWay hg
  | .planned ⟨key, hg⟩ => .planned ⟨key, h.plans key g hg⟩

theorem Later.calls {p : Program} {chain : Chain} {st st' : Progress} {es : List Expr}
    (hl : Later st st') (h : CallsOnly (Callable p chain st) es) :
    CallsOnly (Callable p chain st') es :=
  h.mono fun _ => Callable.mono hl

/-- What holds of the progress at every step, also after a failure, since the differentiation was
at `start` and while the derivatives of `chain` are under way. -/
structure Consistent (p : Program) (start : Progress) (chain : Chain) (st : Progress) : Prop where
  since : Later start st
  program_used : ∀ g ∈ namesOf p, g ∈ st.names.used
  support_used : ∀ g ∈ namesOf st.support, g ∈ st.names.used
  chain_used : ∀ g ∈ chain.names, g ∈ st.names.used
  plans_used : ∀ g, st.Plans g → g ∈ st.names.used
  custom : ∀ key g, (key, .custom g) ∈ st.plans → g ∈ namesOf p
  memo : ∀ key g, (key, g) ∈ st.memo → g ∈ namesOf st.support
  calls : ∀ f ∈ st.support, CallsOnly (Callable p chain st) (partsOf f.stmts)
  /-- The keys under way differ, and nothing is known about them yet but that they are under
  way. -/
  keys : (chain.map (·.key)).Nodup
  chain_memo : ∀ u ∈ chain, ∀ g, (u.key, g) ∉ st.memo
  chain_plan : ∀ u ∈ chain, ∀ g, (u.key, .derived g) ∈ st.plans →
    g = u.name ∨ (u.key, .derived g) ∈ start.plans

/-- Every plan to call a derivative can be followed, unless a failure was recovered from, which
leaves a warning. -/
def Settled (chain : Chain) (st : Progress) : Prop :=
  ∀ g, st.Plans g → g ∈ namesOf st.support ∨ g ∈ chain.names ∨ st.warnings ≠ []

/-- What holds between two steps that succeed. -/
structure Good (p : Program) (start : Progress) (chain : Chain) (st : Progress) : Prop extends
    Consistent p start chain st where
  settled : Settled chain st

section

variable {p : Program} {start : Progress} {chain : Chain} {st : Progress}

theorem Later.withNames {names : NameSupply} (h : ∀ g ∈ st.names.used, g ∈ names.used) :
    Later st { st with names } :=
  ⟨⟨[], by simp, by simp⟩, h, fun _ _ h => h⟩

theorem Good.withNames (hg : Good p start chain st) {names : NameSupply}
    (h : ∀ g ∈ st.names.used, g ∈ names.used) : Good p start chain { st with names } := by
  have hl := Later.withNames h
  exact {
    since := hg.since.trans hl
    program_used := fun g hmem => h g (hg.program_used g hmem)
    support_used := fun g hmem => h g (hg.support_used g hmem)
    chain_used := fun g hmem => h g (hg.chain_used g hmem)
    plans_used := fun g hplan => h g (hg.plans_used g hplan)
    custom := hg.custom
    memo := hg.memo
    calls := fun f hf => hl.calls (hg.calls f hf)
    keys := hg.keys
    chain_memo := hg.chain_memo
    chain_plan := hg.chain_plan
    settled := hg.settled }

end

/-! ### The account -/

/-- Code that calls only what may be called by now. -/
abbrev Covered (p : Program) (chain : Chain) (st : Progress) (es : List Expr) : Prop :=
  CallsOnly (Callable p chain st) es

/-- What a differentiation works with has no calls of unknown functions. -/
structure Setting.Sound (s : Setting) : Prop where
  calls : ∀ f ∈ s.program,
    CallsOnly (fun g => (Intrinsic.ofName? g).isSome ∨ g ∈ namesOf s.program) (partsOf f.stmts)
  custom : ∀ kind sig f, s.registry.get? kind sig = some f → f.name ∈ namesOf s.program
  abs : "abs" ∈ namesOf s.program

theorem covered_of_mem_host {s : Setting} (hs : s.Sound) {start : Progress} {chain : Chain}
    {st : Progress} (hg : Good s.program start chain st) {name : String} {types : List Ty}
    {f : Func} (h : (s.host st).resolve name types = some f) :
    Covered s.program chain st (partsOf f.stmts) := by
  simp only [Host.resolve, Setting.host, Option.or_eq_some_iff] at h
  rcases h with h | ⟨_, h⟩
  · exact hg.calls f (mem_of_resolve h).1
  · exact (hs.calls f (mem_of_resolve h).1).mono fun g hg =>
      hg.elim .intrinsic .program

/-- Progress is good, and stays consistent after a failure. -/
def reachable {s : Setting} (hs : s.Sound) (start : Progress) (chain : Chain) : Account s where
  Good := Good s.program start chain
  Failed _ := Consistent s.program start chain
  Later := Later
  Source st f := Covered s.program chain st (partsOf f.stmts)
  refl := Later.refl
  trans := Later.trans
  names h := h.names
  source_later h _ hf := h.calls hf
  source_host hg _ _ _ h := covered_of_mem_host hs hg h
  unsupported hg _ _ := hg.toConsistent
  withNames hg _ h := ⟨hg.withNames h, .withNames h⟩

/-- Derived code calls what may be called. -/
def reaches {s : Setting} (hs : s.Sound) (start : Progress) (chain : Chain) (caller : String) :
    Permit (reachable hs start chain) where
  caller := caller
  May st f _ := Callable s.program chain st f
  later h _ _ hf := hf.mono h
  intrinsic hf _ _ _ := .intrinsic hf
  abs _ _ := .program hs.abs
  custom hf _ _ := .program (hs.custom _ _ _ hf)

end Fluxion.Derive
