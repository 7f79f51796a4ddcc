import Fluxion.Proofs.Emitted.Origin

/-!
The record is kept by planning and by every derivation: by recursion on how many more derivatives
may be under way, each either puts its function on record or leaves the record as it was.
-/

namespace Fluxion.Derive

open Library (DerivativeKind)

namespace Accounted

section

variable {s : Setting} {r : Request} {derive : DerivativeKind → Func → Derivation String}
  {callee : Func} {st : Progress}

/-- Deriving a function of the record keeps the record. -/
def KeptBy (s : Setting) (r : Request)
    (derive : DerivativeKind → Func → Derivation String) : Prop :=
  ∀ kind callee st, Accounted s r st → (callee ∈ s.program ∨ callee ∈ st.support) →
    (recorded s r).Ends st (fun name _ => name ≠ Intrinsic.centralDifferenceName)
      (derive kind callee)

/-! ### Decisions about calls -/

/-- A failure that can be recovered from leaves a record that can be gone on with. -/
theorem ends_orNumerical (hd : KeptBy s r derive) {kind : DerivativeKind} (hg : Accounted s r st)
    (hc : callee ∈ s.program ∨ callee ∈ st.support) :
    (recorded s r).Ends st (fun plan _ => PlanFits s plan)
      (tryCatch (do return CallPlan.derived (← derive kind callee)) fun
        | .unsupported f o =>
          if isNumerical callee && s.options.numericalFallback then return .numerical
          else throw (.unsupported f o)
        | e => throw e) := by
  have hderive := hd kind callee st hg hc
  simp only [Account.Ends, tryCatch, tryCatchThe, MonadExceptOf.tryCatch, EStateM.tryCatch, bind,
    EStateM.bind, pure, EStateM.pure] at hderive ⊢
  cases hrun : derive kind callee st with
  | ok name st' =>
    rw [hrun] at hderive
    exact hderive
  | error e st' =>
    rw [hrun] at hderive
    cases e with
    | unsupported f o =>
      by_cases hnum : (isNumerical callee && s.options.numericalFallback) = true
      · simp only [hnum, ↓reduceIte]
        simp only [Bool.and_eq_true] at hnum
        exact ⟨hderive.1.1, hderive.2, hnum.2⟩
      · simp only [hnum]
        exact hderive
    | _ => exact hderive

theorem ends_choose (hd : KeptBy s r derive) (kind : DerivativeKind) (callee : Func)
    (caller : String) (hg : Accounted s r st) (hc : callee ∈ s.program ∨ callee ∈ st.support) :
    (recorded s r).Ends st (fun plan _ => PlanFits s plan)
      (choose s derive kind callee caller) := by
  unfold choose
  split
  · exact .pure hg trivial
  split
  case h_1 f hf => exact .pure hg ⟨kind, callee.signature, f, hf, rfl⟩
  split
  · exact ends_orNumerical hd hg hc
  · split
    · exact .unsupported hg
    split
    · exact .unsupported hg
    · rename_i hon
      have hfallback : s.options.numericalFallback = true := by simpa using hon
      exact .pure hg hfallback

/-- A decision can be followed once the caller is warned of estimates. -/
theorem planned {caller callee : Func} {plan : CallPlan} (hfits : PlanFits s plan)
    (hwarned : plan = .numerical → ⟨caller.name, callee.name⟩ ∈ st.warnings) :
    (announces s r caller).Planned callee plan st := by
  cases plan with
  | inactive => trivial
  | custom g =>
    obtain ⟨kind, sig, f, hget, rfl⟩ := hfits
    exact fun ref => (announces s r caller).custom hget st ref
  | derived g => exact fun _ _ hname => absurd hname hfits
  | numerical => exact fun _ _ => ⟨hfits, callee.name, rfl, .here (hwarned rfl)⟩

theorem ends_warned (caller callee : Func) {plan : CallPlan} (hg : Accounted s r st)
    (hfits : PlanFits s plan) :
    (recorded s r).Ends st ((announces s r caller).Planned callee)
      (if plan = .numerical then do modify (·.warn ⟨caller.name, callee.name⟩); pure plan
      else pure plan) := by
  split
  · obtain ⟨hgood, hlater, hmem⟩ := hg.warn ⟨caller.name, callee.name⟩
    exact ⟨hgood, hlater, planned hfits fun _ => hmem⟩
  · rename_i hplan
    exact .pure hg (planned hfits fun heq => absurd heq hplan)

theorem plans_planWith (hd : KeptBy s r derive) (caller : Func) :
    (announces s r caller).Plans (planWith s derive) := by
  intro kind callee st hg hc
  unfold planWith
  refine .get_bind ?_
  cases hlook : st.plans.lookup ⟨kind, callee.signature⟩ with
  | some plan =>
    obtain ⟨before, after, hsplit, _⟩ := List.lookup_eq_some_iff.mp hlook
    have hmem : (⟨kind, callee.signature⟩, plan) ∈ st.plans := by simp [hsplit]
    exact ends_warned caller callee hg (Accounted.plans hg _ plan hmem)
  | none =>
    refine .bind (ends_choose hd kind callee caller.name hg hc) fun plan st₁ hg₁ _ hfits => ?_
    have hset : (recorded s r).Ends st₁ (fun _ _ => True)
        (modify (·.setPlan ⟨kind, callee.signature⟩ plan) : Derivation PUnit) :=
      ⟨(Accounted.setPlan hg₁ _ hfits).1, (Accounted.setPlan hg₁ _ hfits).2, trivial⟩
    exact .bind hset fun _ st₂ hg₂ _ _ => ends_warned caller callee hg₂ hfits

/-! ### Derivatives of functions -/

theorem ends_known? {chain : Chain} (hchain : ∀ u ∈ chain, u.name ≠ Intrinsic.centralDifferenceName)
    (key : Key) (callee : Func) (hg : Accounted s r st) :
    (recorded s r).Ends st (fun found _ => ∀ name ∈ found, name ≠ Intrinsic.centralDifferenceName)
      (known? chain key callee) := by
  unfold known?
  refine .get_bind ?_
  cases hlook : st.memo.lookup key with
  | some name =>
    obtain ⟨before, after, hsplit, _⟩ := List.lookup_eq_some_iff.mp hlook
    refine .pure hg ?_
    rintro _ ⟨⟩
    exact hg.memo key name (by simp [hsplit])
  | none =>
    dsimp only
    cases hcycle : chain.dropWhile (·.key != key) with
    | nil => exact .pure hg (by simp)
    | cons u rest =>
      have hu : u ∈ chain := (List.dropWhile_suffix _).subset (hcycle ▸ List.mem_cons_self)
      have hclose : (recorded s r).Ends st (fun name _ => name = u.name)
          (closeCycle (u :: rest) u.name callee) := by
        unfold closeCycle
        dsimp only
        split
        · exact .pure hg rfl
        · exact .throw ⟨hg, fun _ h => by cases h⟩
      refine .bind hclose fun name st₁ hg₁ _ hname => .pure hg₁ ?_
      rintro _ ⟨⟩
      exact hname ▸ hchain u hu

theorem ends_synthesize {plan : Planner} (hp : (announces s r callee).Plans plan)
    (kind : DerivativeKind) (name : String) (hg : Accounted s r st)
    (hc : callee ∈ s.program ∨ callee ∈ st.support) :
    (recorded s r).Ends st (Account.Derives (announces s r callee) name)
      (synthesize s plan kind callee name) := by
  have hcalls : (announces s r callee).Covered st (partsOf callee.stmts) := hg.announced hc
  cases kind with
  | pushforward => exact Account.ends_pushforward hp rfl name hg hcalls
  | pullback => exact ends_pullback hp rfl name hg hcalls

theorem ends_orDiscard {α : Type} {Q : α → Progress → Prop} {m : Derivation α}
    (hg : Accounted s r st) (hm : (recorded s r).Ends st Q m) :
    (recorded s r).Ends st Q (orDiscard m) := by
  simp only [Account.Ends, orDiscard] at hm ⊢
  cases hrun : m st with
  | ok a st' =>
    rw [hrun] at hm
    exact hm
  | error e st' =>
    rw [hrun] at hm
    obtain ⟨hgood, hlater⟩ := hg.discard hm.1.1 hm.2
    exact ⟨⟨hgood, hm.1.2⟩, hlater⟩

theorem ends_deriveNew {depth : Nat} {chain : Chain} {kind : DerivativeKind}
    (hd : ∀ name, name ≠ Intrinsic.centralDifferenceName →
      KeptBy s r (deriveAt s depth (chain ++ [⟨⟨kind, callee.signature⟩, name⟩])))
    (hg : Accounted s r st) (hc : callee ∈ s.program ∨ callee ∈ st.support) :
    (recorded s r).Ends st (fun name _ => name ≠ Intrinsic.centralDifferenceName) (do
      let name ← functionName (callee.name ++ "_" ++ kindWord kind)
      let plan := planWith s (deriveAt s depth (chain ++ [⟨⟨kind, callee.signature⟩, name⟩]))
      let f ← orDiscard (synthesize s plan kind callee name)
      modify fun p => (p.setMemo ⟨kind, callee.signature⟩ name).addSupport f
      return name) := by
  -- The new function is added to a progress that comes after `st`, where its name was free.
  have hname := Account.ends_functionName (A := recorded s r) hg
    (callee.name ++ "_" ++ kindWord kind)
  simp only [Account.Ends, bind, EStateM.bind] at hname ⊢
  cases hrun : functionName (callee.name ++ "_" ++ kindWord kind) st with
  | error e st₁ =>
    rw [hrun] at hname
    exact hname
  | ok name st₁ =>
    rw [hrun] at hname
    obtain ⟨hg₁, hl₁, htook, hsame, n, hvariant⟩ := hname
    have hne : name ≠ Intrinsic.centralDifferenceName := by
      rw [hvariant]
      exact variant_ne_centralDifference _ _ _
    have hc₁ : callee ∈ s.program ∨ callee ∈ st₁.support := (recorded s r).source_later hl₁ hc
    have hsynth := ends_orDiscard hg₁
      (ends_synthesize (plans_planWith (hd name hne) callee) kind name hg₁ hc₁).run
    dsimp only [Account.Ends] at hsynth ⊢
    cases hrun₂ : orDiscard (synthesize s (planWith s (deriveAt s depth
        (chain ++ [⟨⟨kind, callee.signature⟩, name⟩]))) kind callee name) st₁ with
    | error e st₂ =>
      rw [hrun₂] at hsynth
      exact ⟨hsynth.1, Progressed.trans hl₁ hsynth.2⟩
    | ok f st₂ =>
      rw [hrun₂] at hsynth
      obtain ⟨hg₂, hl₂, ⟨hfname, hcalls⟩, hsynthesized⟩ := hsynth
      obtain ⟨hg₃, hl₃⟩ := Accounted.setMemo hg₂ ⟨kind, callee.signature⟩ hne
      have hl : Progressed st (st₂.setMemo ⟨kind, callee.signature⟩ name) :=
        Progressed.trans (Progressed.trans hl₁ hl₂) hl₃
      have htook₃ : (recorded s r).Took st f.name (st₂.setMemo ⟨kind, callee.signature⟩ name) :=
        hfname ▸ (htook.later hl₂).later hl₃
      have horigin : DerivedFrom s r (st₂.setMemo ⟨kind, callee.signature⟩ name).support f callee :=
        .synthesized ((recorded s r).source_later hl₂ hc₁) (hvariant ▸ hsynthesized)
      obtain ⟨hg₄, hl₄⟩ := Accounted.addSupport hg₃ hl htook₃ horigin
        (hcalls.mono fun _ _ => Announced.grow hl₃)
      exact ⟨hg₄, hl₄, hne⟩

/-- A derivative that is known is taken, and another one is made. -/
theorem ends_known {chain : Chain} (hchain : ∀ u ∈ chain, u.name ≠ Intrinsic.centralDifferenceName)
    {key : Key} {m : Derivation String} (hg : Accounted s r st)
    (hc : callee ∈ s.program ∨ callee ∈ st.support)
    (hm : ∀ st', Accounted s r st' → (callee ∈ s.program ∨ callee ∈ st'.support) →
      (recorded s r).Ends st' (fun name _ => name ≠ Intrinsic.centralDifferenceName) m) :
    (recorded s r).Ends st (fun name _ => name ≠ Intrinsic.centralDifferenceName)
      (known? chain key callee >>= fun
        | some name => pure name
        | none => m) := by
  refine .bind (ends_known? hchain key callee hg) fun found st₁ hg₁ hl₁ hfound => ?_
  cases found with
  | some name => exact .pure hg₁ (hfound name rfl)
  | none => exact hm st₁ hg₁ ((recorded s r).source_later hl₁ hc)

theorem keptBy_deriveAt (depth : Nat) : ∀ chain : Chain,
    (∀ u ∈ chain, u.name ≠ Intrinsic.centralDifferenceName) →
    KeptBy s r (deriveAt s depth chain) := by
  -- One more derivative is under way each time the depth goes down.
  induction depth with
  | zero =>
    intro chain hchain kind callee st hg hc
    exact ends_known hchain hg hc fun st' hg' _ => .throw ⟨hg', fun _ h => by cases h⟩
  | succ depth ih =>
    intro chain hchain kind callee st hg hc
    refine ends_known hchain hg hc fun st' hg' hc' => ?_
    refine ends_deriveNew (fun name hname => ih _ fun u hu => ?_) hg' hc'
    rcases List.mem_append.mp hu with hu | hu
    · exact hchain u hu
    · exact List.mem_singleton.mp hu ▸ hname

theorem keptBy_derive : KeptBy s r (Derive.derive s) :=
  keptBy_deriveAt _ [] (by simp)

theorem plans_planner (caller : Func) : (announces s r caller).Plans (planner s) :=
  plans_planWith keptBy_derive caller

/-! ### Requests -/

/-- The gradient joins the support before it is pushed forward. -/
theorem ends_pushedGradient (hg : Accounted s r st) :
    (recorded s r).Ends st
      (fun pushed st' => ∀ ref, (announces s r r.target).May st' pushed ref) (do
      let grad ← gradient s (planner s) r
      modify (·.addSupport grad)
      Derive.derive s .pushforward grad) := by
  have hgrad := (ends_gradientWith (plans_planner r.target) r rfl none hg announced_target).run
  simp only [Account.Ends, gradient, bind, EStateM.bind] at hgrad ⊢
  cases hrun : gradientWith s (planner s) r none st with
  | error e st₁ =>
    rw [hrun] at hgrad
    exact hgrad
  | ok grad st₁ =>
    rw [hrun] at hgrad
    obtain ⟨hg₁, hl₁, ⟨htook, hcalls⟩, _⟩ := hgrad
    obtain ⟨hg₂, hl₂⟩ := Accounted.addSupport hg₁ hl₁ htook (.gradient hrun) hcalls
    have hderive := keptBy_derive .pushforward grad _ hg₂ (.inr (by simp [Progress.addSupport]))
    simp only [Account.Ends, state_modify]
      at hderive ⊢
    cases hrun₂ : Derive.derive s .pushforward grad (st₁.addSupport grad) with
    | error e st₂ =>
      rw [hrun₂] at hderive
      exact ⟨hderive.1, Progressed.trans hl₂ hderive.2⟩
    | ok pushed st₂ =>
      rw [hrun₂] at hderive
      exact ⟨hderive.1, Progressed.trans hl₂ hderive.2.1, fun _ _ hname => absurd hname hderive.2.2⟩

/-- What holds of a function that was asked for: it was derived from a function under a new name,
and its estimates are announced. -/
structure Answers (s : Setting) (r : Request) (st : Progress) (g : Func) (st' : Progress) :
    Prop where
  took : (recorded s r).Took st g.name st'
  origin : ∃ f, DerivedFrom s r st'.support g f ∧
    CallsWith (Announced s r f st') (partsOf g.stmts)

/-- What holds of the function that the derivative of order `k` is made from. -/
structure Ordered (s : Setting) (r : Request) (st : Progress) (k : Nat) (f : Func)
    (st' : Progress) : Prop where
  since : Progressed st st'
  iterated : Iterated s r k f
  calls : CallsWith (Announced s r f st') (partsOf f.stmts)
  answers : k ≠ 1 → Answers s r st f st'

/-- Each derivative in forward mode is derived from the one of the order before, or from the
target. -/
theorem ends_directional (hg : Accounted s r st) :
    (recorded s r).Ends st (fun g st' => r.order ≠ 0 → Answers s r st g st')
      (directional s (planner s) r) := by
  suffices hend : (recorded s r).Ends st
      (fun g st' => Ordered s r st (1 + r.order) g st') (directional s (planner s) r) from
    hend.imp fun g st' _ h horder => h.answers (by omega)
  refine Account.ends_directional (P := Ordered s r st) (fun along k st₁ hg₁ f hf => ?_) hg
    ⟨.refl st, .target, announced_target, by simp⟩
  refine .bind (Account.ends_functionName hg₁ _) fun name st₂ hg₂ hl₂ hname => ?_
  obtain ⟨htook, _, n, hvariant⟩ := hname
  have hseeded := Account.ends_seeded (plans_planner f) rfl along name hg₂
    (hf.calls.mono fun _ _ => Announced.grow hl₂)
  refine hseeded.run.imp fun g st₃ hl₃ h => ?_
  obtain ⟨⟨hgname, hgcalls⟩, hrun⟩ := h
  have hseeds : Seeds s r k f g := ⟨along, n, st₂, st₃, hvariant ▸ hrun⟩
  have horigin : DerivedFrom s r st₃.support g f := .seeded hf.iterated hseeds
  exact {
    since := hf.since.trans (Progressed.trans hl₂ hl₃)
    iterated := hf.iterated.next hseeds
    calls := announced_derived horigin hgcalls
    answers := fun _ => ⟨hgname ▸ (htook.later hl₃).since hf.since, f, horigin, hgcalls⟩ }

theorem ends_derivedFunc (hg : Accounted s r st) :
    (recorded s r).Ends st (fun g st' => r.order ≠ 0 → Answers s r st g st') (derivedFunc s r) := by
  have hgrad : ∀ epsilon, (recorded s r).Ends st (fun g st' => r.order ≠ 0 → Answers s r st g st')
      (gradientWith s (planner s) r epsilon) := by
    intro epsilon
    refine (ends_gradientWith (plans_planner r.target) r rfl epsilon hg announced_target).run.imp
      fun g st' _ h _ => ⟨h.1.1, r.target, .gradient h.2, h.1.2⟩
  unfold derivedFunc
  cases hmode : r.mode with
  | forward => exact ends_directional hg
  | reverse => exact hgrad none
  | errorEstimate => exact hgrad s.errorEpsilon
  | hessian =>
    have hfail : ∀ e, r.scalarCount = .error e → (recorded s r).Failed (.request e) st := by
      intro e he
      refine ⟨hg, ?_⟩
      rintro q ⟨⟩
      exact ⟨.inl hmode, he⟩
    exact (ends_hessian r hfail hg (ends_pushedGradient hg)).run.imp
      fun g st' _ h _ => ⟨h.1.1, r.target, .hessian h.2, h.1.2⟩
  | jacobian =>
    have hfail : ∀ e, r.scalarCount = .error e → (recorded s r).Failed (.request e) st := by
      intro e he
      refine ⟨hg, ?_⟩
      rintro q ⟨⟩
      exact ⟨.inr hmode, he⟩
    exact (ends_jacobian (plans_planner r.target) r rfl hfail hg announced_target).run.imp
      fun g st' _ h _ => ⟨h.1.1, r.target, .jacobian h.2, h.1.2⟩

theorem start (p : Program) (hp : s.program = p) : Accounted s r (Progress.start p) where
  program f hf := by
    simp only [Progress.start, NameSupply.mem_reserveAll]
    exact .inl (List.mem_map_of_mem (hp ▸ hf))
  used f hf := by simp [Progress.start] at hf
  foreign f hf := by simp [Progress.start] at hf
  distinct := by simp [Progress.start]
  origin f hf := by simp [Progress.start] at hf
  warnings := by simp [Progress.start]
  plans key plan h := by simp [Progress.start] at h
  memo key g h := by simp [Progress.start] at h

end

end Accounted

end Fluxion.Derive
