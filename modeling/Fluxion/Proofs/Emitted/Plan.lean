import Mathlib.Data.List.TakeWhile
import Fluxion.Proofs.Emitted.Progress
import Fluxion.Proofs.Library.Registry

/-!
Planning keeps the progress consistent: by recursion on how many more derivatives may be under
way, every derivation either adds its function or drops all that it added.
-/

namespace Fluxion.Derive

open Library (DerivativeKind)

section

variable {p : Program} {start : Progress} {chain : Chain} {st st' : Progress}

theorem Chain.mem_names {u : UnderWay} (h : u ∈ chain) : u.name ∈ chain.names :=
  List.mem_map_of_mem h

theorem Callable.widen {rest : Chain} {g : String} :
    Callable p chain st g → Callable p (chain ++ rest) st g
  | .intrinsic h => .intrinsic h
  | .program h => .program h
  | .support h => .support h
  | .underWay h => .underWay (by
      rw [Chain.names, List.map_append]
      exact List.mem_append_left _ h)
  | .planned h => .planned h

/-- A derivative goes under way under a name that is taken, when nothing is known of its key. -/
theorem Good.enter (hg : Good p start chain st) {u : UnderWay} (hname : u.name ∈ st.names.used)
    (hkeys : ∀ v ∈ chain, v.key ≠ u.key) (hmemo : ∀ g, (u.key, g) ∉ st.memo)
    (hplan : ∀ g, (u.key, .derived g) ∈ st.plans → (u.key, .derived g) ∈ start.plans) :
    Good p start (chain ++ [u]) st where
  since := hg.since
  program_used := hg.program_used
  support_used := hg.support_used
  chain_used g hmem := by
    rw [Chain.names, List.map_append, List.mem_append] at hmem
    rcases hmem with hmem | hmem
    · exact hg.chain_used g hmem
    · obtain rfl : g = u.name := by simpa using hmem
      exact hname
  plans_used := hg.plans_used
  custom := hg.custom
  memo := hg.memo
  calls f hf := (hg.calls f hf).mono fun _ => Callable.widen
  keys := by
    rw [List.map_append, List.nodup_append]
    refine ⟨hg.keys, by simp, ?_⟩
    intro k hk k' hk'
    obtain ⟨v, hv, rfl⟩ := List.mem_map.mp hk
    obtain rfl : k' = u.key := by simpa using hk'
    exact hkeys v hv
  chain_memo v hv := by
    rcases List.mem_append.mp hv with hv | hv
    · exact hg.chain_memo v hv
    · obtain rfl : v = u := by simpa using hv
      exact hmemo
  chain_plan v hv := by
    rcases List.mem_append.mp hv with hv | hv
    · exact hg.chain_plan v hv
    · obtain rfl : v = u := by simpa using hv
      exact fun g h => .inr (hplan g h)
  settled g h := by
    rcases hg.settled g h with h | h | h
    · exact .inl h
    · exact .inr (.inl (by rw [Chain.names, List.map_append]; exact List.mem_append_left _ h))
    · exact .inr (.inr h)

/-- Dropping what was derived since a mark gives back what was there. -/
theorem Later.discard (hused : ∀ g, st.Plans g → g ∈ st.names.used) (hl : Later st st') :
    Later st (st'.discard st.mark) ∧ (st'.discard st.mark).support = st.support := by
  obtain ⟨added, hadded, hfresh⟩ := hl.support
  have hsupport : (st'.discard st.mark).support = st.support := by
    simp [Progress.discard, Progress.mark, hadded]
  refine ⟨⟨⟨[], by rw [hsupport, List.append_nil], by simp⟩, hl.names, ?_⟩, hsupport⟩
  intro key g hmem
  have hnot : g ∉ added.map (·.name) := by
    intro hin
    obtain ⟨f, hf, rfl⟩ := List.mem_map.mp hin
    exact hfresh f hf (hused f.name ⟨key, hmem⟩)
  simp only [Progress.discard, Progress.mark, hadded, List.drop_left', List.mem_filter]
  refine ⟨hl.plans key g hmem, ?_⟩
  simpa [CallPlan.usesAny] using hnot

/-- A failure leaves the progress consistent when all that was added is dropped. -/
theorem Good.discard (hg : Good p start chain st) {rest : Chain}
    (hc : Consistent p start (chain ++ rest) st') (hl : Later st st') :
    Consistent p start chain (st'.discard st.mark) := by
  obtain ⟨hlater, hsupport⟩ := hl.discard hg.plans_used
  have hsub : ∀ u ∈ chain, u ∈ chain ++ rest := fun u hu => List.mem_append_left _ hu
  have hplans : ∀ key plan, (key, plan) ∈ (st'.discard st.mark).plans → (key, plan) ∈ st'.plans :=
    fun key plan h => (List.mem_filter.mp h).1
  obtain ⟨added, hadded, _⟩ := hl.support
  exact {
    since := hg.since.trans hlater
    program_used := hc.program_used
    support_used := fun g h => hl.names g (hg.support_used g (hsupport ▸ h))
    chain_used := fun g h => hl.names g (hg.chain_used g h)
    plans_used := fun g ⟨key, h⟩ => hc.plans_used g ⟨key, hplans key _ h⟩
    custom := fun key g h => hc.custom key g (hplans key _ h)
    memo := fun key g h => by
      simp only [Progress.discard, Progress.mark, hadded, List.mem_filter] at h
      have hin := hc.memo key g h.1
      rw [hadded, namesOf, List.map_append, List.mem_append] at hin
      rcases hin with hin | hin
      · exact hsupport ▸ hin
      · have hnot := h.2
        simp only [List.drop_left', Bool.not_eq_true', List.contains_eq_mem,
          decide_eq_false_iff_not] at hnot
        exact absurd hin hnot
    calls := fun f hf => hlater.calls (hg.calls f (hsupport ▸ hf))
    keys := hg.keys
    chain_memo := fun u hu g h => hc.chain_memo u (hsub u hu) g (List.mem_filter.mp h).1
    chain_plan := fun u hu g h => hc.chain_plan u (hsub u hu) g (hplans _ _ h) }

theorem Later.addSupport {f : Func} (hl : Later st st') (hnew : f.name ∉ st.names.used) :
    Later st (st'.addSupport f) := by
  obtain ⟨added, hadded, hfresh⟩ := hl.support
  refine ⟨⟨added ++ [f], by simp [Progress.addSupport, hadded], ?_⟩, fun g h => ?_, hl.plans⟩
  · intro f' hf'
    rcases List.mem_append.mp hf' with hf' | hf'
    · exact hfresh f' hf'
    · exact List.mem_singleton.mp hf' ▸ hnew
  · simp [Progress.addSupport, hl.names g h]

/-- A derived function joins the support, and what was under way under its name is no more. -/
theorem Good.addSupport {rest : Chain} {f : Func} (hg : Good p start (chain ++ rest) st)
    (hrest : ∀ u ∈ rest, u.name = f.name) (hused : f.name ∈ st.names.used)
    (hl : Later start (st.addSupport f)) (hc : Covered p (chain ++ rest) st (partsOf f.stmts)) :
    Good p start chain (st.addSupport f) := by
  have hsub : ∀ u ∈ chain, u ∈ chain ++ rest := fun u hu => List.mem_append_left _ hu
  have hsupport : namesOf (st.addSupport f).support = namesOf st.support ++ [f.name] := by
    simp [namesOf, Progress.addSupport]
  have hnames : ∀ g ∈ st.names.used, g ∈ (st.addSupport f).names.used := fun g h => by
    simp [Progress.addSupport, h]
  have hkept : ∀ g ∈ namesOf st.support, g ∈ namesOf (st.addSupport f).support := fun g h => by
    rw [hsupport]
    exact List.mem_append_left _ h
  have hclose : ∀ g ∈ Chain.names (chain ++ rest),
      g ∈ chain.names ∨ g ∈ namesOf (st.addSupport f).support := by
    intro g h
    rw [Chain.names, List.map_append, List.mem_append] at h
    rcases h with h | h
    · exact .inl h
    · obtain ⟨u, hu, rfl⟩ := List.mem_map.mp h
      rw [hsupport, hrest u hu]
      exact .inr (List.mem_append_right _ (List.mem_singleton_self _))
  have hmono : ∀ g, Callable p (chain ++ rest) st g → Callable p chain (st.addSupport f) g := by
    rintro g (h | h | h | h | h)
    · exact .intrinsic h
    · exact .program h
    · exact .support (hkept g h)
    · exact (hclose g h).elim .underWay .support
    · exact .planned h
  exact {
    since := hl
    program_used := fun g h => hnames g (hg.program_used g h)
    support_used := fun g h => by
      rw [hsupport, List.mem_append] at h
      rcases h with h | h
      · exact hnames g (hg.support_used g h)
      · exact hnames g (List.mem_singleton.mp h ▸ hused)
    chain_used := fun g h => hnames g (hg.chain_used g (by
      rw [Chain.names, List.map_append]
      exact List.mem_append_left _ h))
    plans_used := fun g h => hnames g (hg.plans_used g h)
    custom := hg.custom
    memo := fun key g h => hkept g (hg.memo key g h)
    calls := fun f' hf' => by
      rcases List.mem_append.mp hf' with hf' | hf'
      · exact (hg.calls f' hf').mono hmono
      · exact List.mem_singleton.mp hf' ▸ hc.mono hmono
    keys := (List.nodup_append.mp (List.map_append ▸ hg.keys)).1
    chain_memo := fun u hu => hg.chain_memo u (hsub u hu)
    chain_plan := fun u hu => hg.chain_plan u (hsub u hu)
    settled := fun g h => by
      rcases hg.settled g h with h | h | h
      · exact .inl (hkept g h)
      · exact (hclose g h).elim (fun h => .inr (.inl h)) .inl
      · exact .inr (.inr h) }

/-- The name of a derivative that is there is recorded. -/
theorem Good.setMemo {key : Key} {name : String} (hg : Good p start chain st)
    (hname : name ∈ namesOf st.support) (hkeys : ∀ u ∈ chain, u.key ≠ key) :
    Good p start chain (st.setMemo key name) :=
  { hg with
    since := hg.since.trans
      ⟨⟨[], by simp [Progress.setMemo], by simp⟩, fun _ h => h, fun _ _ h => h⟩
    memo := fun k g h => by
      rcases List.mem_cons.mp h with h | h
      · obtain ⟨_, rfl⟩ := Prod.mk.inj h
        exact hname
      · exact hg.memo k g (List.mem_filter.mp h).1
    calls := fun f hf => (hg.calls f hf).mono fun g => by
      rintro (h | h | h | h | h)
      · exact .intrinsic h
      · exact .program h
      · exact .support h
      · exact .underWay h
      · exact .planned h
    chain_memo := fun u hu g h => by
      rcases List.mem_cons.mp h with h | h
      · exact hkeys u hu (Prod.mk.inj h).1
      · exact hg.chain_memo u hu g (List.mem_filter.mp h).1 }

theorem Later.warn (w : Warning) : Later st (st.warn w) := by
  unfold Progress.warn
  split
  · exact .refl st
  · exact ⟨⟨[], by simp, by simp⟩, fun _ h => h, fun _ _ h => h⟩

/-- After a warning nothing more has to be said about what plans name. -/
theorem Consistent.warn (hc : Consistent p start chain st) (w : Warning) :
    Good p start chain (st.warn w) := by
  have hl : Later st (st.warn w) := .warn w
  have hwarned : (st.warn w).warnings ≠ [] := by
    unfold Progress.warn
    split
    · rename_i h
      exact fun hnil => by simp [hnil] at h
    · simp
  have hsame : (st.warn w).support = st.support ∧ (st.warn w).memo = st.memo ∧
      (st.warn w).plans = st.plans ∧ (st.warn w).names = st.names := by
    unfold Progress.warn
    split <;> exact ⟨rfl, rfl, rfl, rfl⟩
  obtain ⟨hsupport, hmemo, hplans, hnames⟩ := hsame
  exact {
    since := hc.since.trans hl
    program_used := hnames ▸ hc.program_used
    support_used := hnames ▸ hsupport ▸ hc.support_used
    chain_used := hnames ▸ hc.chain_used
    plans_used := fun g ⟨key, h⟩ => hnames ▸ hc.plans_used g ⟨key, hplans ▸ h⟩
    custom := hplans ▸ hc.custom
    memo := hmemo ▸ hsupport ▸ hc.memo
    calls := fun f hf => hl.calls (hc.calls f (hsupport ▸ hf))
    keys := hc.keys
    chain_memo := hmemo ▸ hc.chain_memo
    chain_plan := hplans ▸ hc.chain_plan
    settled := fun g _ => .inr (.inr hwarned) }

theorem mem_setPlan {key k : Key} {plan made : CallPlan} :
    (k, made) ∈ (st.setPlan key plan).plans ↔
      k = key ∧ made = plan ∨ (k, made) ∈ st.plans ∧ k ≠ key := by
  simp [Progress.setPlan, List.mem_cons, List.mem_filter]

/-- What is recorded of a key after its derivative got a name. -/
structure Named (start : Progress) (chain : Chain) (key : Key) (name : String) (st : Progress) :
    Prop where
  found : name ∈ namesOf st.support ∨ name ∈ chain.names
  plan : ∀ g, (key, .derived g) ∈ st.plans → g = name ∨ (key, .derived g) ∈ start.plans
  underWay : ∀ u ∈ chain, u.key = key → name = u.name

/-- The decision to call a derivative is recorded. -/
theorem Good.setDerived {key : Key} {name : String} (hg : Good p start chain st)
    (hn : Named start chain key name st) (hnone : ∀ g, (key, .derived g) ∉ start.plans) :
    Good p start chain (st.setPlan key (.derived name)) ∧
      Later st (st.setPlan key (.derived name)) := by
  have hl : Later st (st.setPlan key (.derived name)) := by
    refine ⟨⟨[], by simp [Progress.setPlan], by simp⟩, fun _ h => h, fun k g h => ?_⟩
    rw [mem_setPlan]
    by_cases hk : k = key
    · subst hk
      exact .inl ⟨rfl, by rw [(hn.plan g h).resolve_right (hnone g)]⟩
    · exact .inr ⟨h, hk⟩
  have hplanned : ∀ g, (st.setPlan key (.derived name)).Plans g → g = name ∨ st.Plans g := by
    rintro g ⟨k, h⟩
    rcases mem_setPlan.mp h with ⟨_, h⟩ | ⟨h, _⟩
    · exact .inl (by simpa using h)
    · exact .inr ⟨k, h⟩
  refine ⟨?_, hl⟩
  exact {
    since := hg.since.trans hl
    program_used := hg.program_used
    support_used := hg.support_used
    chain_used := hg.chain_used
    plans_used := fun g h => by
      rcases hplanned g h with rfl | h
      · exact hn.found.elim (hg.support_used g) (hg.chain_used g)
      · exact hg.plans_used g h
    custom := fun k g h => by
      rcases mem_setPlan.mp h with ⟨_, h⟩ | ⟨h, _⟩
      · simp at h
      · exact hg.custom k g h
    memo := hg.memo
    calls := fun f hf => hl.calls (hg.calls f hf)
    keys := hg.keys
    chain_memo := hg.chain_memo
    chain_plan := fun u hu g h => by
      rcases mem_setPlan.mp h with ⟨hk, h⟩ | ⟨h, _⟩
      · left
        rw [← hn.underWay u hu hk]
        simpa using h
      · exact hg.chain_plan u hu g h
    settled := fun g h => by
      rcases hplanned g h with rfl | h
      · exact hn.found.elim .inl fun h => .inr (.inl h)
      · exact hg.settled g h }

/-- A decision to call no derivative is recorded, when what was derived for it is dropped. -/
theorem Good.setOther {key : Key} {plan : CallPlan} (hg : Good p start chain st)
    (hnone : ∀ g, (key, .derived g) ∉ st.plans) (hc : Consistent p start chain st')
    (hl : Later st st') (hsupport : st'.support = st.support)
    (hplan : ∀ g, plan ≠ .derived g) (hcustom : ∀ g, plan = .custom g → g ∈ namesOf p) :
    Consistent p start chain (st'.setPlan key plan) ∧ Later st (st'.setPlan key plan) := by
  have hl' : Later st (st'.setPlan key plan) := by
    refine ⟨⟨[], by simp [Progress.setPlan, hsupport], by simp⟩, hl.names, fun k g h => ?_⟩
    refine mem_setPlan.mpr (.inr ⟨hl.plans k g h, ?_⟩)
    rintro rfl
    exact hnone g h
  have hkept : ∀ k g, (k, .derived g) ∈ (st'.setPlan key plan).plans →
      (k, .derived g) ∈ st'.plans := by
    intro k g h
    rcases mem_setPlan.mp h with ⟨_, h⟩ | ⟨h, _⟩
    · exact absurd h.symm (hplan g)
    · exact h
  refine ⟨?_, hl'⟩
  exact {
    since := hg.since.trans hl'
    program_used := hc.program_used
    support_used := hc.support_used
    chain_used := hc.chain_used
    plans_used := fun g ⟨k, h⟩ => hc.plans_used g ⟨k, hkept k g h⟩
    custom := fun k g h => by
      rcases mem_setPlan.mp h with ⟨_, h⟩ | ⟨h, _⟩
      · exact hcustom g h.symm
      · exact hc.custom k g h
    memo := hc.memo
    calls := fun f hf => hl'.calls (hg.calls f (hsupport ▸ hf))
    keys := hc.keys
    chain_memo := hc.chain_memo
    chain_plan := fun u hu g h => hc.chain_plan u hu g (hkept _ g h) }

end

/-! ### Decisions about calls -/

section

variable {s : Setting} {start : Progress} {chain : Chain}
  {derive : DerivativeKind → Func → Derivation String}

/-- How a step from `st` ends: with a result of which `Q` holds, or with a failure after which `E`
holds. -/
def Outcome {α : Type} (st : Progress) (Q : α → Progress → Prop) (E : Progress → Prop)
    (m : Derivation α) : Prop :=
  match m st with
  | .ok a st' => Q a st'
  | .error _ st' => E st'

/-- Deriving a function about which no new plan is recorded gives it a name. What was derived for
it is dropped if that fails. -/
def DerivesAll (s : Setting) (start : Progress) (chain : Chain)
    (derive : DerivativeKind → Func → Derivation String) : Prop :=
  ∀ kind callee st, Good s.program start chain st →
    Covered s.program chain st (partsOf callee.stmts) →
    (∀ g, (⟨kind, callee.signature⟩, .derived g) ∈ st.plans →
      (⟨kind, callee.signature⟩, .derived g) ∈ start.plans) →
    Outcome st
      (fun name st' => Good s.program start chain st' ∧ Later st st' ∧
        Named start chain ⟨kind, callee.signature⟩ name st')
      (fun st' => Consistent s.program start chain st' ∧ Later st st' ∧ st'.support = st.support)
      (derive kind callee)

/-- What is decided about the calls of a function, before it is recorded. -/
inductive Decided (p : Program) (start : Progress) (chain : Chain) (key : Key) (st : Progress) :
    CallPlan → Progress → Prop where
  | inactive : Decided p start chain key st .inactive st
  | custom {g : String} (h : g ∈ namesOf p) : Decided p start chain key st (.custom g) st
  | derived {name : String} {st' : Progress} (hg : Good p start chain st') (hl : Later st st')
      (hn : Named start chain key name st') : Decided p start chain key st (.derived name) st'
  | numerical {st' : Progress} (hc : Consistent p start chain st') (hl : Later st st')
      (hs : st'.support = st.support) : Decided p start chain key st .numerical st'

theorem choose_decided (hs : s.Sound) (hd : DerivesAll s start chain derive)
    (kind : DerivativeKind) (callee : Func) (caller : String) {st : Progress}
    (hg : Good s.program start chain st)
    (hc : Covered s.program chain st (partsOf callee.stmts))
    (hnew : ∀ g, (⟨kind, callee.signature⟩, .derived g) ∉ st.plans) :
    Outcome st (Decided s.program start chain ⟨kind, callee.signature⟩ st)
      (fun st' => Consistent s.program start chain st' ∧ Later st st')
      (choose s derive kind callee caller) := by
  have hfail := And.intro hg.toConsistent (Later.refl st)
  unfold choose
  split
  · exact .inactive
  split
  case h_1 f hf => exact .custom (hs.custom kind _ f hf)
  split
  · have hderive := hd kind callee st hg hc fun g h => absurd h (hnew g)
    simp only [Outcome, tryCatch, tryCatchThe, MonadExceptOf.tryCatch, EStateM.tryCatch, bind,
      EStateM.bind, pure, EStateM.pure] at hderive ⊢
    cases hrun : derive kind callee st with
    | ok name st' =>
      rw [hrun] at hderive
      exact .derived hderive.1 hderive.2.1 hderive.2.2
    | error e st' =>
      rw [hrun] at hderive
      obtain ⟨hc', hl, hsupport⟩ := hderive
      cases e with
      | unsupported f o =>
        by_cases hnum : (isNumerical callee && s.options.numericalFallback) = true
        · simp only [hnum, ↓reduceIte]
          exact .numerical hc' hl hsupport
        · simp only [hnum]
          exact ⟨hc', hl⟩
      | _ => exact ⟨hc', hl⟩
  · split
    · exact hfail
    split
    · exact hfail
    · exact .numerical hg.toConsistent (.refl st) rfl

/-- A decision that was recorded can be followed. -/
theorem Good.callable_of_plan {p : Program} {key : Key} {plan : CallPlan} {st : Progress}
    (hg : Good p start chain st) (h : st.plans.lookup key = some plan) :
    ∀ g, plan = .custom g ∨ plan = .derived g → Callable p chain st g := by
  have hmem : (key, plan) ∈ st.plans := by
    obtain ⟨before, after, hsplit, _⟩ := List.lookup_eq_some_iff.mp h
    simp [hsplit]
  rintro g (rfl | rfl)
  · exact .program (hg.custom key g hmem)
  · exact .planned ⟨key, hmem⟩

theorem Outcome.imp {α : Type} {st : Progress} {Q R : α → Progress → Prop}
    {E F : Progress → Prop} {m : Derivation α} (h : Outcome st Q E m)
    (hQ : ∀ a st', Q a st' → R a st') (hE : ∀ st', E st' → F st') : Outcome st R F m := by
  unfold Outcome at h ⊢
  cases hm : m st with
  | ok a st' =>
    rw [hm] at h
    exact hQ a st' h
  | error e st' =>
    rw [hm] at h
    exact hE st' h

theorem Outcome.bind {α β : Type} {st : Progress} {Q : α → Progress → Prop}
    {R : β → Progress → Prop} {E : Progress → Prop} {m : Derivation α} {f : α → Derivation β}
    (hm : Outcome st Q E m) (hf : ∀ a st', Q a st' → Outcome st' R E (f a)) :
    Outcome st R E (m >>= f) := by
  simp only [Outcome, Bind.bind, EStateM.bind] at hm ⊢
  cases hms : m st with
  | error e st' =>
    rw [hms] at hm
    exact hm
  | ok a st' =>
    rw [hms] at hm
    exact hf a st' hm

theorem Outcome.get_bind {β : Type} {st : Progress} {R : β → Progress → Prop}
    {E : Progress → Prop} {f : Progress → Derivation β} (h : Outcome st R E (f st)) :
    Outcome st R E (get >>= f) := h

/-- What holds when a decision is on record, and before the caller is warned. -/
structure Recorded (p : Program) (start : Progress) (chain : Chain) (st : Progress)
    (plan : CallPlan) (st' : Progress) : Prop where
  consistent : Consistent p start chain st'
  later : Later st st'
  good : plan ≠ .numerical → Good p start chain st'
  callable : ∀ g, plan = .custom g ∨ plan = .derived g → Callable p chain st' g

/-- A decision is recorded in place of what a recursive call may have recorded. -/
theorem Decided.recorded {p : Program} {key : Key} {plan : CallPlan} {st st' : Progress}
    (hg : Good p start chain st) (hnew : ∀ g, (key, .derived g) ∉ st.plans)
    (h : Decided p start chain key st plan st') :
    Recorded p start chain st plan (st'.setPlan key plan) := by
  have hsame : ∀ made, (∀ g, made ≠ .derived g) → (∀ g, made = .custom g → g ∈ namesOf p) →
      Recorded p start chain st made (st.setPlan key made) := by
    intro made hmade hcustom
    obtain ⟨hc, hl⟩ := hg.setOther hnew hg.toConsistent (.refl st) rfl hmade hcustom
    refine ⟨hc, hl, fun _ => ⟨hc, ?_⟩, ?_⟩
    · rintro g ⟨k, h⟩
      rcases mem_setPlan.mp h with ⟨_, h⟩ | ⟨h, _⟩
      · exact absurd h.symm (hmade g)
      · exact hg.settled g ⟨k, h⟩
    · rintro g (h | h)
      · exact .program (hcustom g h)
      · exact absurd h (hmade g)
  cases h with
  | inactive => exact hsame .inactive (by simp) (by simp)
  | custom hmem => exact hsame (.custom _) (by simp) (by rintro g ⟨⟩; exact hmem)
  | derived hg' hl hn =>
    obtain ⟨hg₂, hl₂⟩ := hg'.setDerived hn fun g hmem => hnew g (hg.since.plans key g hmem)
    refine ⟨hg₂.toConsistent, hl.trans hl₂, fun _ => hg₂, ?_⟩
    rintro g (⟨⟨⟩⟩ | ⟨⟨⟩⟩)
    exact .planned ⟨key, mem_setPlan.mpr (.inl ⟨rfl, rfl⟩)⟩
  | numerical hc hl hsupport =>
    have hplan : ∀ g, CallPlan.numerical ≠ .derived g := by simp
    obtain ⟨hc₂, hl₂⟩ := hg.setOther hnew hc hl hsupport hplan (by simp)
    exact ⟨hc₂, hl₂, by simp, by simp⟩

/-- The caller is warned of a numerical derivative, whatever plans name by then. -/
theorem Recorded.warn {p : Program} {st st' : Progress} {plan : CallPlan}
    (h : Recorded p start chain st plan st') (w : Warning) :
    Outcome st'
      (fun made st'' => Good p start chain st'' ∧ Later st st'' ∧
        ∀ g, made = .custom g ∨ made = .derived g → Callable p chain st'' g)
      (fun st'' => Consistent p start chain st'' ∧ Later st st'')
      (if plan = .numerical then do modify (·.warn w); pure plan else pure plan) := by
  split
  · exact ⟨h.consistent.warn w, h.later.trans (.warn w),
      fun g hg => (h.callable g hg).mono (.warn w)⟩
  · rename_i hplan
    exact ⟨h.good hplan, h.later, h.callable⟩

theorem planned_of_callable (hs : s.Sound) {caller : String} {callee : Func} {made : CallPlan}
    {st : Progress}
    (h : ∀ g, made = .custom g ∨ made = .derived g → Callable s.program chain st g) :
    (reaches hs start chain caller).Planned callee made st := by
  cases made with
  | inactive => trivial
  | custom f => exact fun _ => h f (.inl rfl)
  | derived f => exact fun _ => h f (.inr rfl)
  | numerical => exact .intrinsic (by decide)

theorem plans_planWith (hs : s.Sound) (hd : DerivesAll s start chain derive) (caller : String) :
    (reaches hs start chain caller).Plans (planWith s derive) := by
  intro kind callee st hg hc
  have hend : Outcome st
      (fun made st' => Good s.program start chain st' ∧ Later st st' ∧
        ∀ g, made = .custom g ∨ made = .derived g → Callable s.program chain st' g)
      (fun st' => Consistent s.program start chain st' ∧ Later st st')
      (planWith s derive kind callee caller) := by
    unfold planWith
    refine Outcome.get_bind ?_
    cases hlook : st.plans.lookup ⟨kind, callee.signature⟩ with
    | some plan =>
      have hrecorded : Recorded s.program start chain st plan st :=
        ⟨hg.toConsistent, .refl st, fun _ => hg, hg.callable_of_plan hlook⟩
      exact hrecorded.warn _
    | none =>
      have hnew : ∀ g, (⟨kind, callee.signature⟩, .derived g) ∉ st.plans := fun g hmem => by
        simpa using List.lookup_eq_none_iff.mp hlook _ hmem
      exact Outcome.bind (choose_decided hs hd kind callee caller hg hc hnew)
        fun plan st' hdecided => (hdecided.recorded hg hnew).warn _
  exact hend.imp (fun _ _ h => ⟨h.1, h.2.1, planned_of_callable hs h.2.2⟩) fun _ h => h

/-! ### Derivatives of functions -/

theorem known?_eq (chain : Chain) (key : Key) (callee : Func) (st : Progress) :
    Outcome st
      (fun found st' => st' = st ∧ match found with
        | some name => (key, name) ∈ st.memo ∨ ∃ u ∈ chain, u.key = key ∧ u.name = name
        | none => (∀ g, (key, g) ∉ st.memo) ∧ ∀ u ∈ chain, u.key ≠ key)
      (fun st' => st' = st) (known? chain key callee) := by
  unfold known?
  show Outcome st _ _ (match st.memo.lookup key with
    | some name => pure (some name)
    | none => _)
  cases hlook : st.memo.lookup key with
  | some name =>
    obtain ⟨before, after, hsplit, _⟩ := List.lookup_eq_some_iff.mp hlook
    exact ⟨rfl, .inl (by simp [hsplit])⟩
  | none =>
    have hmemo : ∀ g, (key, g) ∉ st.memo := fun g hmem => by
      simpa using List.lookup_eq_none_iff.mp hlook _ hmem
    dsimp only
    cases hcycle : chain.dropWhile (·.key != key) with
    | nil =>
      refine ⟨rfl, hmemo, fun u hu => ?_⟩
      simpa using List.dropWhile_eq_nil_iff.mp hcycle u hu
    | cons u rest =>
      have hu : u ∈ chain := List.dropWhile_subset _ (hcycle ▸ List.mem_cons_self)
      have hkey : u.key = key := by
        simpa [hcycle] using List.head_dropWhile_not (fun v : UnderWay => v.key != key)
          (show chain.dropWhile (·.key != key) ≠ [] by simp [hcycle])
      dsimp only [closeCycle]
      split
      · exact ⟨rfl, .inr ⟨u, hu, hkey, rfl⟩⟩
      · exact rfl

theorem Good.named_of_known {p : Program} {st : Progress} {key : Key} {name : String}
    (hg : Good p start chain st)
    (hplan : ∀ g, (key, .derived g) ∈ st.plans → (key, .derived g) ∈ start.plans)
    (h : (key, name) ∈ st.memo ∨ ∃ u ∈ chain, u.key = key ∧ u.name = name) :
    Named start chain key name st := by
  refine ⟨?_, fun g hmem => .inr (hplan g hmem), ?_⟩
  · rcases h with h | ⟨u, hu, _, rfl⟩
    · exact .inl (hg.memo key name h)
    · exact .inr (Chain.mem_names hu)
  · rintro v hv rfl
    rcases h with h | ⟨u, hu, hkey, rfl⟩
    · exact absurd h (hg.chain_memo v hv name)
    · rw [List.inj_on_of_nodup_map hg.keys hu hv hkey]

theorem ends_synthesize (hs : s.Sound) {plan : Planner} {callee : Func}
    (hp : (reaches hs start chain callee.name).Plans plan) (kind : DerivativeKind) (name : String)
    {st : Progress} (hg : Good s.program start chain st)
    (hc : Covered s.program chain st (partsOf callee.stmts)) :
    (reachable hs start chain).Ends st (Account.Derives (reaches hs start chain callee.name) name)
      (synthesize s plan kind callee name) := by
  cases kind with
  | pushforward => exact Account.ends_pushforward hp rfl name hg hc
  | pullback => exact ends_pullback hp rfl name hg hc

/-- A function whose derivative is neither there nor under way is derived under a new name. -/
theorem outcome_deriveNew (hs : s.Sound) {kind : DerivativeKind} {callee : Func}
    {plan : String → Planner}
    (hp : ∀ name, (reaches hs start (chain ++ [⟨⟨kind, callee.signature⟩, name⟩])
      callee.name).Plans (plan name))
    {st : Progress} (hg : Good s.program start chain st)
    (hc : Covered s.program chain st (partsOf callee.stmts))
    (hplan : ∀ g, (⟨kind, callee.signature⟩, .derived g) ∈ st.plans →
      (⟨kind, callee.signature⟩, .derived g) ∈ start.plans)
    (hmemo : ∀ g, (⟨kind, callee.signature⟩, g) ∉ st.memo)
    (hkeys : ∀ u ∈ chain, u.key ≠ ⟨kind, callee.signature⟩) :
    Outcome st
      (fun name st' => Good s.program start chain st' ∧ Later st st' ∧
        Named start chain ⟨kind, callee.signature⟩ name st')
      (fun st' => Consistent s.program start chain st' ∧ Later st st' ∧ st'.support = st.support)
      (do
        let name ← functionName (callee.name ++ "_" ++ kindWord kind)
        let f ← orDiscard (synthesize s (plan name) kind callee name)
        modify fun p => (p.setMemo ⟨kind, callee.signature⟩ name).addSupport f
        return name) := by
  have hname := Account.ends_functionName (A := reachable hs start chain) hg
    (callee.name ++ "_" ++ kindWord kind)
  refine Outcome.bind (Q := fun name st₁ => Good s.program start chain st₁ ∧ Later st st₁ ∧
    (reachable hs start chain).Took st name st₁ ∧ st₁ = { st with names := st₁.names } ∧ _) hname ?_
  rintro name st₁ ⟨hg₁, hl₁, htook, hsame, _⟩
  have hfree : name ∉ st.names.used := htook.free
  have hused : name ∈ st₁.names.used := htook.used
  have hplans : st₁.plans = st.plans := by rw [hsame]
  have hmemos : st₁.memo = st.memo := by rw [hsame]
  have hsupport : st₁.support = st.support := by rw [hsame]
  have hgood : Good s.program start (chain ++ [⟨⟨kind, callee.signature⟩, name⟩]) st₁ :=
    hg₁.enter hused hkeys (by rwa [hmemos]) (by rwa [hplans])
  have hend := ends_synthesize hs (hp name) kind name hgood
    ((hl₁.calls hc).mono fun _ => Callable.widen)
  simp only [Outcome, Account.Ends, bind, EStateM.bind, orDiscard] at hend ⊢
  cases hrun : synthesize s (plan name) kind callee name st₁ with
  | error e st₂ =>
    rw [hrun] at hend
    obtain ⟨hl₂, hsupport₂⟩ := hend.2.discard hg₁.plans_used
    exact ⟨hg₁.discard hend.1 hend.2, hl₁.trans hl₂, hsupport₂.trans hsupport⟩
  | ok f st₂ =>
    rw [hrun] at hend
    obtain ⟨hg₂, hl₂, hf⟩ := hend
    have hadd : Later st (st₂.addSupport f) := (hl₁.trans hl₂).addSupport (hf.1 ▸ hfree)
    have hfound : name ∈ namesOf (st₂.addSupport f).support := by
      simp [namesOf, Progress.addSupport, hf.1]
    have hgood₂ : Good s.program start chain (st₂.addSupport f) :=
      hg₂.addSupport (by simp [hf.1]) (hf.1 ▸ hl₂.names name hused) (hg.since.trans hadd) hf.2
    refine ⟨hgood₂.setMemo hfound hkeys, ⟨hadd.support, hadd.names, hadd.plans⟩, .inl hfound,
      ?_, ?_⟩
    · exact hg₂.chain_plan ⟨⟨kind, callee.signature⟩, name⟩ (by simp)
    · exact fun u hu hkey => absurd hkey (hkeys u hu)

/-- A derivative that is known is taken, and another one is made. -/
theorem outcome_known {p : Program} {key : Key} {callee : Func} {m : Derivation String}
    {st : Progress} (hg : Good p start chain st)
    (hplan : ∀ g, (key, .derived g) ∈ st.plans → (key, .derived g) ∈ start.plans)
    (hm : (∀ g, (key, g) ∉ st.memo) → (∀ u ∈ chain, u.key ≠ key) →
      Outcome st
        (fun name st' => Good p start chain st' ∧ Later st st' ∧ Named start chain key name st')
        (fun st' => Consistent p start chain st' ∧ Later st st' ∧ st'.support = st.support) m) :
    Outcome st
      (fun name st' => Good p start chain st' ∧ Later st st' ∧ Named start chain key name st')
      (fun st' => Consistent p start chain st' ∧ Later st st' ∧ st'.support = st.support)
      (known? chain key callee >>= fun
        | some name => pure name
        | none => m) := by
  have hk := known?_eq chain key callee st
  simp only [Outcome, bind, EStateM.bind] at hk ⊢
  cases hrun : known? chain key callee st with
  | error e st' =>
    rw [hrun] at hk
    subst hk
    exact ⟨hg.toConsistent, .refl _, rfl⟩
  | ok found st' =>
    rw [hrun] at hk
    obtain ⟨rfl, hfound⟩ := hk
    cases found with
    | some name => exact ⟨hg, .refl _, hg.named_of_known hplan hfound⟩
    | none => exact hm hfound.1 hfound.2

theorem derivesAll_deriveAt (hs : s.Sound) (depth : Nat) :
    ∀ chain, DerivesAll s start chain (deriveAt s depth chain) := by
  -- One more derivative is under way each time the depth goes down.
  induction depth with
  | zero =>
    intro chain kind callee st hg hc hplan
    exact outcome_known hg hplan fun _ _ => ⟨hg.toConsistent, .refl st, rfl⟩
  | succ depth ih =>
    intro chain kind callee st hg hc hplan
    exact outcome_known hg hplan fun hmemo hkeys =>
      outcome_deriveNew hs (fun name => plans_planWith hs (ih _) _) hg hc hplan hmemo hkeys

theorem plans_planner (hs : s.Sound) (caller : String) :
    (reaches hs start [] caller).Plans (planner s) :=
  plans_planWith hs (derivesAll_deriveAt hs _ _) caller

end

end Fluxion.Derive
