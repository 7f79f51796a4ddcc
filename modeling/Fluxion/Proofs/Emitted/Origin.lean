import Fluxion.Derive.Differentiate
import Fluxion.Proofs.Emitted.Functions

/-!
Where derived functions come from, and what is on record about them: each has a name of its own
and was derived from a function that is known, and each estimate in its code is announced.
-/

namespace Fluxion

open Derive

/-! ### Names of derived functions -/

theorem getLast?_namePartsFrom {c : Char} (hc : c ≠ ':') (current name : List Char)
    (h : name.getLast? = some c) :
    ∃ part, (namePartsFrom current name).getLast? = some part ∧ part.getLast? = some c := by
  fun_induction namePartsFrom current name with
  | case1 current => simp at h
  | case2 current rest ih =>
    cases rest with
    | nil =>
      have hcolon : ':' = c := by simpa using h
      exact absurd hcolon.symm hc
    | cons d rest =>
      obtain ⟨part, hpart, hlast⟩ := ih (by simpa using h)
      exact ⟨part, by rw [List.getLast?_cons, hpart]; rfl, hlast⟩
  | case3 current d rest _ ih =>
    cases rest with
    | nil =>
      have hd : d = c := by simpa using h
      exact ⟨(d :: current).reverse, by simp [namePartsFrom], by simp [hd]⟩
    | cons e rest => exact ih (by simpa using h)

theorem getLast?_intercalate {c : Char} (sep : List Char) {parts : List (List Char)}
    {part : List Char} (hpart : parts.getLast? = some part) (hc : part.getLast? = some c) :
    (sep.intercalate parts).getLast? = some c := by
  obtain ⟨before, rfl⟩ := List.getLast?_eq_some_iff.mp hpart
  induction before with
  | nil => simpa [List.intercalate] using hc
  | cons first rest ih =>
    have hrest := ih (by simp)
    cases rest with
    | nil =>
      simp only [List.nil_append, List.intercalate, List.intersperse_singleton, List.flatten_cons,
        List.flatten_nil, List.append_nil] at hrest
      simp [List.intercalate, hrest]
    | cons second rest =>
      simp only [List.cons_append, List.intercalate, List.intersperse_cons_cons,
        List.flatten_cons] at hrest ⊢
      rw [List.getLast?_append, List.getLast?_append, hrest]
      rfl

theorem getLast?_plainName {c : Char} (hc : c ≠ ':') {name : String}
    (h : name.toList.getLast? = some c) : (plainName name).toList.getLast? = some c := by
  obtain ⟨part, hpart, hlast⟩ := getLast?_namePartsFrom hc [] name.toList h
  have hparts : ((nameParts name).map String.toList).getLast? = some part := by
    simp [nameParts, hpart, Function.comp_def]
  rw [plainName, String.toList_intercalate]
  exact getLast?_intercalate _ hparts hlast

namespace Derive

open Library (DerivativeKind)

/-- No derivative has the name of the intrinsic that estimates derivatives. -/
theorem variant_ne_centralDifference (base : String) (kind : DerivativeKind) (n : Nat) :
    NameSupply.variant (plainName (base ++ "_" ++ kindWord kind)) n ≠
      Intrinsic.centralDifferenceName := by
  intro heq
  have hlast : Intrinsic.centralDifferenceName.toList.getLast? = some 'e' := by decide
  rw [← heq] at hlast
  cases n with
  | zero =>
    have hword : ∃ c, c ≠ ':' ∧ c ≠ 'e' ∧
        (base ++ "_" ++ kindWord kind).toList.getLast? = some c := by
      cases kind with
      | pushforward => exact ⟨'d', by decide, by decide, by simp [kindWord]⟩
      | pullback => exact ⟨'k', by decide, by decide, by simp [kindWord]⟩
    obtain ⟨c, hcolon, he, hc⟩ := hword
    have hplain := getLast?_plainName hcolon hc
    exact he (Option.some.inj (hplain.symm.trans hlast))
  | succ n =>
    have hdigits : (toString (n + 1)).toList ≠ [] := by
      change (Nat.repr (n + 1)).toList ≠ []
      rw [Nat.repr_eq_ofList_toDigits, String.toList_ofList]
      exact Nat.toDigits_ne_nil
    obtain ⟨c, hc⟩ := Option.isSome_iff_exists.mp (List.getLast?_isSome.mpr hdigits)
    have hdigit := NameSupply.isDigit_of_mem_toString (List.mem_of_getLast? hc)
    simp only [NameSupply.variant, String.toList_append, List.getLast?_append, hc,
      Option.some_or, Option.some.injEq] at hlast
    subst hlast
    exact absurd hdigit (by decide)

/-! ### Origins -/

section

variable (s : Setting) (r : Request)

/-- The derivative of order `k` that a request in forward mode asks for comes from `f`. -/
def Seeds (k : Nat) (f g : Func) : Prop :=
  ∃ along n st st', seeded s (planner s) f along (NameSupply.variant (plainName
    (r.target.name ++ "_d" ++ (if k = 1 then "" else toString k) ++ along.text)) n) st = .ok g st'

/-- What the derivative of an order is made from: the target, or the derivative of the order
before. -/
inductive Iterated : Nat → Func → Prop where
  | target : Iterated 1 r.target
  | next {k : Nat} {f g : Func} (hf : Iterated k f) (h : Seeds s r k f g) : Iterated (k + 1) g

/-- A function was derived from another one, which is in the program, was derived itself, or is a
derivative of lower order of the target. -/
inductive DerivedFrom (support : List Func) : Func → Func → Prop where
  | synthesized {kind : DerivativeKind} {depth : Nat} {chain : Chain} {f g : Func} {n : Nat}
      {st st' : Progress} (hf : f ∈ s.program ∨ f ∈ support)
      (h : synthesize s (planWith s (deriveAt s depth chain)) kind f
        (NameSupply.variant (plainName (f.name ++ "_" ++ kindWord kind)) n) st = .ok g st') :
      DerivedFrom support g f
  | seeded {k : Nat} {f g : Func} (hf : Iterated s r k f) (h : Seeds s r k f g) :
      DerivedFrom support g f
  | gradient {epsilon : Option Float} {g : Func} {st st' : Progress}
      (h : gradientWith s (planner s) r epsilon st = .ok g st') : DerivedFrom support g r.target
  | jacobian {g : Func} {st st' : Progress} (h : jacobian s r st = .ok g st') :
      DerivedFrom support g r.target
  | hessian {g : Func} {st st' : Progress} (h : hessian s r st = .ok g st') :
      DerivedFrom support g r.target

end

/-- The code of a function has an estimate of the derivative of `h`. -/
def Estimates (f : Func) (h : String) : Prop :=
  ∃ args, .call Intrinsic.centralDifferenceName args ∈ partsOf f.stmts ∧ referred args = some h

/-- Estimates of `h` in code that comes from a function are announced: by a warning for that
function, or for the one it was derived from if they stand in its own code already. -/
inductive Warned (s : Setting) (r : Request) (support : List Func) (warnings : List Warning)
    (h : String) : Func → Prop where
  | here {f : Func} (hw : ⟨f.name, h⟩ ∈ warnings) : Warned s r support warnings h f
  | takenOver {f e : Func} (hf : Estimates f h) (he : DerivedFrom s r support f e)
      (hw : Warned s r support warnings h e) : Warned s r support warnings h f

/-- What a differentiation works with has no estimates of its own. -/
structure Setting.Quiet (s : Setting) (r : Request) : Prop where
  source : ∀ f, f ∈ s.program ∨ f = r.target → ∀ args,
    .call Intrinsic.centralDifferenceName args ∉ partsOf f.stmts
  custom : ∀ kind sig f, s.registry.get? kind sig = some f →
    f.name ≠ Intrinsic.centralDifferenceName

/-- A call that code from `f` may hold by now: a call that is no estimate, or an estimate that is
asked for and announced. -/
def Announced (s : Setting) (r : Request) (f : Func) (st : Progress) (g : String)
    (ref : Option String) : Prop :=
  s.Quiet r → g = Intrinsic.centralDifferenceName → s.options.numericalFallback = true ∧
    ∃ h, ref = some h ∧ Warned s r st.support st.warnings h f

/-- A decision that may be on record. -/
def PlanFits (s : Setting) : CallPlan → Prop
  | .inactive => True
  | .custom g => ∃ kind sig f, s.registry.get? kind sig = some f ∧ f.name = g
  | .derived g => g ≠ Intrinsic.centralDifferenceName
  | .numerical => s.options.numericalFallback = true

/-- What was derived and announced stays, and new functions have new names. -/
structure Progressed (st st' : Progress) : Prop where
  support : ∃ added, st'.support = st.support ++ added ∧ ∀ f ∈ added, f.name ∉ st.names.used
  warnings : st.warnings <+: st'.warnings
  names : ∀ g ∈ st.names.used, g ∈ st'.names.used

/-- What is on record about the functions derived so far. -/
structure Accounted (s : Setting) (r : Request) (st : Progress) : Prop where
  program : ∀ f ∈ s.program, f.name ∈ st.names.used
  used : ∀ f ∈ st.support, f.name ∈ st.names.used
  foreign : ∀ f ∈ st.support, ∀ g ∈ s.program, f.name ≠ g.name
  distinct : (st.support.map (·.name)).Nodup
  origin : ∀ g ∈ st.support, ∃ f, DerivedFrom s r st.support g f ∧
    CallsWith (Announced s r f st) (partsOf g.stmts)
  warnings : st.warnings.Nodup
  plans : ∀ key plan, (key, plan) ∈ st.plans → PlanFits s plan
  memo : ∀ key g, (key, g) ∈ st.memo → g ≠ Intrinsic.centralDifferenceName

section

variable {s : Setting} {r : Request} {st st' : Progress}

theorem DerivedFrom.mono {support support' : List Func} (h : support ⊆ support') {f g : Func} :
    DerivedFrom s r support g f → DerivedFrom s r support' g f
  | .synthesized hf hrun => .synthesized (hf.imp_right fun hmem => h hmem) hrun
  | .seeded hf hg => .seeded hf hg
  | .gradient hrun => .gradient hrun
  | .jacobian hrun => .jacobian hrun
  | .hessian hrun => .hessian hrun

theorem Warned.mono {support support' : List Func} {warnings warnings' : List Warning}
    (hs : support ⊆ support') (hw : warnings ⊆ warnings') {h : String} {f : Func}
    (hf : Warned s r support warnings h f) : Warned s r support' warnings' h f := by
  induction hf with
  | here hmem => exact .here (hw hmem)
  | takenOver hest he _ ih => exact .takenOver hest (he.mono hs) ih

theorem Progressed.refl (st : Progress) : Progressed st st :=
  ⟨⟨[], by simp, by simp⟩, List.prefix_refl _, fun _ h => h⟩

theorem Progressed.trans {a b c : Progress} (hab : Progressed a b) (hbc : Progressed b c) :
    Progressed a c := by
  obtain ⟨new, hnew, hfresh⟩ := hab.support
  obtain ⟨new', hnew', hfresh'⟩ := hbc.support
  refine ⟨⟨new ++ new', by rw [hnew', hnew, List.append_assoc], ?_⟩,
    hab.warnings.trans hbc.warnings, fun g hg => hbc.names g (hab.names g hg)⟩
  intro f hf
  rcases List.mem_append.mp hf with hf | hf
  · exact hfresh f hf
  · exact fun hused => hfresh' f hf (hab.names _ hused)

theorem Progressed.subset (h : Progressed st st') : st.support ⊆ st'.support := by
  obtain ⟨added, hadded, _⟩ := h.support
  exact hadded ▸ List.subset_append_left _ _

theorem Announced.grow (hl : Progressed st st') {f : Func} {g : String} {ref : Option String}
    (h : Announced s r f st g ref) : Announced s r f st' g ref := by
  intro hquiet hg
  obtain ⟨hon, callee, href, hw⟩ := h hquiet hg
  exact ⟨hon, callee, href, hw.mono hl.subset hl.warnings.subset⟩

/-- A change that leaves functions and warnings as they are. -/
theorem Progressed.of_eq (hsupport : st'.support = st.support)
    (hwarnings : st'.warnings = st.warnings)
    (hnames : ∀ g ∈ st.names.used, g ∈ st'.names.used) : Progressed st st' :=
  ⟨⟨[], by simp [hsupport], by simp⟩, hwarnings ▸ List.prefix_refl _, hnames⟩

/-- Estimates in a derived function are announced for what is derived from it in turn. -/
theorem announced_derived {e f : Func} (he : DerivedFrom s r st.support f e)
    (hcalls : CallsWith (Announced s r e st) (partsOf f.stmts)) :
    CallsWith (Announced s r f st) (partsOf f.stmts) := by
  rintro g args hcall hquiet rfl
  obtain ⟨hon, h, href, hw⟩ := hcalls _ args hcall hquiet rfl
  exact ⟨hon, h, href, .takenOver ⟨args, hcall, href⟩ he hw⟩

/-- Functions that may be differentiated hold only estimates that are announced for what is derived
from them. -/
theorem Accounted.announced (hg : Accounted s r st) {f : Func}
    (hf : f ∈ s.program ∨ f ∈ st.support) :
    CallsWith (Announced s r f st) (partsOf f.stmts) := by
  rcases hf with hf | hf
  · rintro g args hcall hquiet rfl
    exact absurd hcall (hquiet.source f (.inl hf) args)
  · obtain ⟨e, he, hcalls⟩ := hg.origin f hf
    exact announced_derived he hcalls

theorem announced_target : CallsWith (Announced s r r.target st) (partsOf r.target.stmts) := by
  rintro g args hcall hquiet rfl
  exact absurd hcall (hquiet.source r.target (.inr rfl) args)

/-! ### Changes of the record -/

/-- The functions derived so far stay on record when only plans, names and warnings change. -/
theorem Accounted.origins (hg : Accounted s r st) (hl : Progressed st st')
    (hsupport : st'.support = st.support) : ∀ g ∈ st'.support, ∃ f,
      DerivedFrom s r st'.support g f ∧ CallsWith (Announced s r f st') (partsOf g.stmts) := by
  intro g hmem
  obtain ⟨f, hf, hcalls⟩ := hg.origin g (hsupport ▸ hmem)
  exact ⟨f, hf.mono hl.subset, hcalls.mono fun _ _ => Announced.grow hl⟩

theorem Accounted.withNames (hg : Accounted s r st) {names : NameSupply}
    (h : ∀ g ∈ st.names.used, g ∈ names.used) :
    Accounted s r { st with names } ∧ Progressed st { st with names } := by
  have hl : Progressed st { st with names } := .of_eq rfl rfl h
  exact ⟨{ hg with
    program := fun f hf => h _ (hg.program f hf)
    used := fun f hf => h _ (hg.used f hf)
    origin := hg.origins hl rfl }, hl⟩

theorem Accounted.setPlan (hg : Accounted s r st) (key : Key) {plan : CallPlan}
    (hplan : PlanFits s plan) :
    Accounted s r (st.setPlan key plan) ∧ Progressed st (st.setPlan key plan) := by
  have hl : Progressed st (st.setPlan key plan) := .of_eq rfl rfl fun _ h => h
  refine ⟨{ hg with origin := hg.origins hl rfl, plans := fun k made hmem => ?_ }, hl⟩
  rcases List.mem_cons.mp hmem with hmem | hmem
  · obtain ⟨_, rfl⟩ := Prod.mk.inj hmem
    exact hplan
  · exact hg.plans k made (List.mem_filter.mp hmem).1

theorem Accounted.setMemo (hg : Accounted s r st) (key : Key) {name : String}
    (hname : name ≠ Intrinsic.centralDifferenceName) :
    Accounted s r (st.setMemo key name) ∧ Progressed st (st.setMemo key name) := by
  have hl : Progressed st (st.setMemo key name) := .of_eq rfl rfl fun _ h => h
  refine ⟨{ hg with origin := hg.origins hl rfl, memo := fun k g hmem => ?_ }, hl⟩
  rcases List.mem_cons.mp hmem with hmem | hmem
  · obtain ⟨_, rfl⟩ := Prod.mk.inj hmem
    exact hname
  · exact hg.memo k g (List.mem_filter.mp hmem).1

/-- A warning is on record once, whether it is new or not. -/
theorem Accounted.warn (hg : Accounted s r st) (w : Warning) :
    Accounted s r (st.warn w) ∧ Progressed st (st.warn w) ∧ w ∈ (st.warn w).warnings := by
  unfold Progress.warn
  split
  · rename_i h
    exact ⟨hg, .refl st, by simpa using h⟩
  · rename_i h
    have hl : Progressed st { st with warnings := st.warnings ++ [w] } :=
      ⟨⟨[], by simp, by simp⟩, List.prefix_append _ _, fun _ h => h⟩
    have hnew : w ∉ st.warnings := by simpa using h
    refine ⟨{ hg with origin := hg.origins hl rfl, warnings := ?_ }, hl, by simp⟩
    exact List.nodup_append.mpr ⟨hg.warnings, by simp, fun a ha b hb => by
      obtain rfl : b = w := by simpa using hb
      exact fun heq => hnew (heq ▸ ha)⟩

/-- After a failure, all is as it was on record before, but for names that were taken. -/
theorem Accounted.discard (hg : Accounted s r st) (hg' : Accounted s r st')
    (hl : Progressed st st') :
    Accounted s r (st'.discard st.mark) ∧ Progressed st (st'.discard st.mark) := by
  obtain ⟨added, hadded, _⟩ := hl.support
  obtain ⟨more, hmore⟩ := hl.warnings
  have hsupport : (st'.discard st.mark).support = st.support := by
    simp [Progress.discard, Progress.mark, hadded]
  have hwarnings : (st'.discard st.mark).warnings = st.warnings := by
    simp [Progress.discard, Progress.mark, ← hmore]
  have hl' : Progressed st (st'.discard st.mark) := .of_eq hsupport hwarnings hl.names
  refine ⟨?_, hl'⟩
  exact {
    program := hg'.program
    used := fun f hf => hl.names _ (hg.used f (hsupport ▸ hf))
    foreign := hsupport ▸ hg.foreign
    distinct := hsupport ▸ hg.distinct
    origin := hg.origins hl' hsupport
    warnings := hwarnings ▸ hg.warnings
    plans := fun key plan hmem => hg'.plans key plan (List.mem_filter.mp hmem).1
    memo := fun key g hmem => hg'.memo key g (List.mem_filter.mp hmem).1 }

/-! ### The account -/

/-- The request itself is at fault, and then so: the independent scalars cannot be counted. -/
def CountFails (r : Request) (e : DeriveError) : Prop :=
  ∀ q, e = .request q → (r.mode = .hessian ∨ r.mode = .jacobian) ∧ r.scalarCount = .error q

/-- The record is kept at every step, also when a step fails. -/
def recorded (s : Setting) (r : Request) : Account s where
  Good := Accounted s r
  Failed e st := Accounted s r st ∧ CountFails r e
  Later := Progressed
  Source st f := f ∈ s.program ∨ f ∈ st.support
  refl := Progressed.refl
  trans := Progressed.trans
  names h := h.names
  source_later h _ hf := hf.imp_right fun hmem => h.subset hmem
  source_host hg _ _ _ h := by
    rcases Option.or_eq_some_iff.mp h with h | ⟨_, h⟩
    · exact .inr (mem_of_resolve h).1
    · exact .inl (mem_of_resolve h).1
  unsupported hg _ _ := ⟨hg, fun _ h => by cases h⟩
  withNames hg _ h := hg.withNames h

/-- Code that comes from a function holds only estimates that are announced for it. -/
def announces (s : Setting) (r : Request) (f : Func) : Permit (recorded s r) where
  caller := f.name
  May := Announced s r f
  later h _ _ hcall := hcall.grow h
  intrinsic _ hne _ _ _ hname := absurd hname hne
  abs _ _ _ hname := absurd hname (by decide)
  custom hget _ _ hquiet hname := absurd hname (hquiet.custom _ _ _ hget)

/-- A name that was taken is no name of the program or of the support. -/
theorem foreign_of_took {name : String} (h : (recorded s r).Took st name st') :
    (∀ f ∈ st'.support, f.name ≠ name) ∧ ∀ f ∈ s.program, f.name ≠ name := by
  obtain ⟨st₁, names, hg, _, hfree, htaken, hl⟩ := h
  obtain ⟨added, hadded, hfresh⟩ := Progressed.support hl
  refine ⟨fun f hf => ?_, fun f hf => ?_⟩
  · rw [hadded] at hf
    rcases List.mem_append.mp hf with hf | hf
    · exact fun heq => hfree (heq ▸ Accounted.used hg f hf)
    · exact fun heq => hfresh f hf (heq ▸ htaken)
  · exact fun heq => hfree (heq ▸ Accounted.program hg f hf)

/-- A function joins the support under the name that was taken for it. -/
theorem Accounted.addSupport {f g : Func} (hg : Accounted s r st') (hl : Progressed st st')
    (htook : (recorded s r).Took st g.name st') (hf : DerivedFrom s r st'.support g f)
    (hcalls : CallsWith (Announced s r f st') (partsOf g.stmts)) :
    Accounted s r (st'.addSupport g) ∧ Progressed st (st'.addSupport g) := by
  obtain ⟨hother, hforeign⟩ := foreign_of_took htook
  have hsubset : st'.support ⊆ (st'.addSupport g).support := List.subset_append_left _ _
  have hnames : ∀ x ∈ st'.names.used, x ∈ (st'.addSupport g).names.used := fun x hx => by
    simp [Progress.addSupport, hx]
  have hkept : ∀ {f' : Func} {c : String} {ref : Option String}, Announced s r f' st' c ref →
      Announced s r f' (st'.addSupport g) c ref := by
    intro f' c ref hann hquiet hc
    obtain ⟨hon, h, href, hw⟩ := hann hquiet hc
    exact ⟨hon, h, href, hw.mono hsubset fun _ h => h⟩
  have hmem : ∀ {f' : Func}, f' ∈ (st'.addSupport g).support → f' ∈ st'.support ∨ f' = g := by
    intro f' h
    simpa [Progress.addSupport] using h
  refine ⟨?_, ?_⟩
  · exact {
      program := fun f' h => hnames _ (hg.program f' h)
      used := fun f' h => by
        rcases hmem h with h | rfl
        · exact hnames _ (hg.used f' h)
        · exact hnames _ htook.used
      foreign := fun f' h p hp => by
        rcases hmem h with h | rfl
        · exact hg.foreign f' h p hp
        · exact fun heq => hforeign p hp heq.symm
      distinct := by
        have hnew : g.name ∉ st'.support.map (·.name) := by
          intro hin
          obtain ⟨f', hf', heq⟩ := List.mem_map.mp hin
          exact hother f' hf' heq
        simp only [Progress.addSupport, List.map_append, List.map_cons, List.map_nil]
        refine List.nodup_append.mpr ⟨hg.distinct, by simp, fun a ha b hb => ?_⟩
        obtain rfl : b = g.name := by simpa using hb
        exact fun heq => hnew (heq ▸ ha)
      origin := fun f' h => by
        rcases hmem h with h | rfl
        · obtain ⟨e, he, hc⟩ := hg.origin f' h
          exact ⟨e, he.mono hsubset, hc.mono fun _ _ => hkept⟩
        · exact ⟨f, hf.mono hsubset, hcalls.mono fun _ _ => hkept⟩
      warnings := hg.warnings
      plans := hg.plans
      memo := hg.memo }
  · obtain ⟨added, hadded, hfresh⟩ := hl.support
    refine ⟨⟨added ++ [g], by simp [Progress.addSupport, hadded], fun f' h => ?_⟩, hl.warnings,
      fun x hx => hnames x (hl.names x hx)⟩
    rcases List.mem_append.mp h with h | h
    · exact hfresh f' h
    · exact List.mem_singleton.mp h ▸ htook.free

end

end Derive

end Fluxion
