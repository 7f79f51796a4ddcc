import Fluxion.Derive.Hessian
import Fluxion.Proofs.Emitted.Adjoint

/-!
Pullbacks, gradients and jacobians call what may be called.
-/

namespace Fluxion.Derive

open Sweep Account

section

variable {s : Setting} {A : Account s} {B : Permit A} {plan : Planner} {st : Progress}
  {storage : Storage}

theorem Permit.SweepEnds.run' {α : Type} {Q : α → Progress → Prop} {m : Sweeping α}
    (h : B.SweepEnds st storage Q m) : A.Ends st Q (m.run' storage) := by
  unfold SweepEnds Account.Ends at *
  simp only [StateT.run', Functor.map, EStateM.map]
  cases hm : m storage st with
  | error e st' =>
    rw [hm] at h
    exact h
  | ok out st' =>
    rw [hm] at h
    exact ⟨h.1, h.2.1, h.2.2.1⟩

theorem Permit.Ready.ofFunc (hg : A.Good st) (f : Func) :
    B.Ready st (.ofFunc f) :=
  ⟨hg, callsWith_nil⟩

theorem name_canonicalize {f g : Func} (h : Canonical.canonicalize f = .ok g) :
    g.name = f.name := by
  unfold Canonical.canonicalize at h
  split at h
  · cases h
    rfl
  · obtain ⟨body, _, rfl⟩ := except_map_eq_ok.mp h
    rfl

/-- The canonical form of a function holds the calls that the function holds. -/
theorem ends_prepare {f : Func} (hg : A.Good st) (hc : B.Covered st (partsOf f.stmts)) :
    A.Ends st (fun g st' => B.Covered st' (partsOf g.stmts) ∧ g.name = f.name) (prepare f) := by
  unfold prepare
  split
  · rename_i g hcanon
    exact .pure hg ⟨callsWith_canonicalize hc hcanon, name_canonicalize hcanon⟩
  · exact .unsupported hg

/-- The statements around the sweeps call nothing unknown. -/
def AdjointParams.Only (S : String → Option String → Prop) (a : AdjointParams) : Prop :=
  CallsWith S (partsOf a.before) ∧ CallsWith S (partsOf a.after)

theorem AdjointParams.Only.later {st st' : Progress} {a : AdjointParams}
    (h : a.Only (B.May st)) (hl : A.Later st st') : a.Only (B.May st') :=
  ⟨hl.calls h.1, hl.calls h.2⟩

theorem AdjointParams.only_none {S : String → Option String → Prop} : AdjointParams.none.Only S :=
  ⟨callsWith_nil, callsWith_nil⟩

theorem AdjointParams.Only.append {S : String → Option String → Prop} {a b : AdjointParams}
    (ha : a.Only S) (hb : b.Only S) : (a.append b).Only S :=
  ⟨by simpa [AdjointParams.append] using ⟨ha.1, hb.1⟩,
    by simpa [AdjointParams.append] using ⟨ha.2, hb.2⟩⟩

theorem ends_localAdjoint (q : Param) (out : String) (hr : B.Ready st storage) :
    B.SweepEnds st storage (fun own st' => own.2.Only (B.May st')) (localAdjoint q out) := by
  refine .bind (.fresh _ hr) fun x st₁ _ hr₁ _ _ => .pure hr₁ ⟨?_, ?_⟩
  · simp [partsOf, Stmt.let_, Stmt.parts, Local.parts, Expr.zero, Expr.parts]
  · simp [partsOf, Stmt.update, Stmt.parts, Assignment.parts, Place.parts, Expr.parts]

theorem ends_pullbackParam (modified : List String) (q : Param) (hr : B.Ready st storage) :
    B.SweepEnds st storage (fun own st' => own.Only (B.May st')) (pullbackParam modified q) := by
  unfold pullbackParam
  split
  · exact .pure hr AdjointParams.only_none
  · refine .bind (.fresh _ hr) fun d st₁ storage₁ hr₁ _ _ => ?_
    split
    · refine .bind (ends_localAdjoint q d hr₁) fun own st₂ storage₂ hr₂ _ hown => ?_
      exact .bind (.bindAdjoint _ _ hr₂) fun _ st₃ _ hr₃ h₃ _ => .pure hr₃ (hown.later h₃)
    · exact .bind (.bindAdjoint _ _ hr₁) fun _ st₂ _ hr₂ _ _ =>
        .pure hr₂ ⟨callsWith_nil, callsWith_nil⟩

theorem ends_pullbackParams (modified : List String) (ps : List Param) (hr : B.Ready st storage) :
    B.SweepEnds st storage (fun own st' => own.Only (B.May st')) (pullbackParams modified ps) := by
  induction ps generalizing st storage with
  | nil => exact .pure hr AdjointParams.only_none
  | cons q ps ih =>
    refine .bind (ends_pullbackParam modified q hr) fun own st₁ storage₁ hr₁ _ hown => ?_
    exact .bind (ih hr₁) fun rest st₂ _ hr₂ h₂ hrest => .pure hr₂ ((hown.later h₂).append hrest)

theorem ends_resultAdjoint (f : Func) (hr : B.Ready st storage) :
    B.SweepEnds st storage (fun _ _ => True) (resultAdjoint f) := by
  unfold resultAdjoint
  split
  · exact .bind (.fresh _ hr) fun _ _ _ hr₁ _ _ => .pure hr₁ trivial
  · exact .pure hr trivial

theorem ends_errorSink (epsilon : Option Float) (countsReturns : Bool) (hr : B.Ready st storage) :
    B.SweepEnds st storage (fun _ _ => True) (errorSink epsilon countsReturns) := by
  unfold errorSink
  split
  · exact .pure hr trivial
  · exact .bind (.fresh _ hr) fun _ _ _ hr₁ _ _ => .pure hr₁ trivial

theorem ends_pullback (hp : B.Plans plan) {callee : Func} (hcaller : callee.name = B.caller)
    (name : String) (hg : A.Good st) (hc : B.Covered st (partsOf callee.stmts)) :
    A.Ends st (Derives B name) (pullback s plan callee name) := by
  unfold pullback
  refine .bind (ends_prepare hg hc) fun source st₁ hg₁ _ hsource => ?_
  refine ends_currentHost_bind ?_
  dsimp only
  refine Permit.SweepEnds.run' (B := B) ?_
  refine .bind (ends_resultAdjoint callee (.ofFunc hg₁ source)) fun dy st₂ storage₂ hr₂ h₂ _ => ?_
  refine .bind (ends_pullbackParams _ callee.params hr₂) fun own st₃ storage₃ hr₃ h₃ hown => ?_
  refine .bind (ends_errorSink s.errorEpsilon false hr₃) fun sink st₄ storage₄ hr₄ h₄ _ => ?_
  have hsound : Sweep.Sound { Sweep.ofFunc s plan source with
      alwaysSave := callee.params.map (·.name)
      seed := dy.map Expr.var
      error := sink } B := by
    refine ⟨hp, hsource.2.trans hcaller, ?_⟩
    intro e he S
    obtain ⟨d, _, rfl⟩ := Option.map_eq_some_iff.mp he
    simp [Expr.parts]
  have h₂₄ := (h₂.trans h₃).trans h₄
  refine .bind (ends_body hsound source.stmts _ st₄ storage₄ hr₄ (h₂₄.calls hsource.1))
    fun sweeps st₅ storage₅ hr₅ h₅ hsweeps => ?_
  refine .get_bind (.pure hr₅ ⟨rfl, ?_⟩)
  have hown₅ := hown.later (h₄.trans h₅)
  simpa [Func.stmts] using ⟨hown₅.1, hr₅.hoisted, hsweeps.1, hsweeps.2, hown₅.2⟩

/-! ### Gradients -/

theorem ends_independentArray (modified : List String) (q : Param)
    (range : Option (Nat × Nat)) (out : String) (hr : B.Ready st storage) :
    B.SweepEnds st storage (fun own st' => own.Only (B.May st'))
      (independentArray modified q range out) := by
  unfold independentArray
  dsimp only
  split
  · exact .bind (.bindAdjoint _ _ hr) fun _ _ _ hr₁ _ _ => .pure hr₁ ⟨callsWith_nil, callsWith_nil⟩
  · refine .bind (.fresh _ hr) fun x st₁ storage₁ hr₁ _ _ => ?_
    refine .bind (.numbered _ hr₁) fun i st₂ storage₂ hr₂ _ _ => ?_
    refine .bind (.bindAdjoint _ _ hr₂) fun _ st₃ _ hr₃ _ _ => .pure hr₃ ?_
    have hlen : B.May st₃ "len" none := B.len st₃
    refine ⟨by simpa [partsOf, Stmt.parts] using callsWith_lenOf hlen q.name, ?_⟩
    have hflush : ∀ lo : Nat, B.Covered st₃
        (partsOf [Stmt.update (.index out (.var i)) .add
          (.index x ((Expr.var i).indexSum (.ofNat lo)))]) := by
      intro lo
      have hindex : B.Covered st₃ ((Expr.var i).indexSum (.ofNat lo)).parts :=
        callsWith_indexSum (by simp [Expr.parts]) (callsWith_ofNat lo)
      simpa [partsOf] using callsWith_update (by simp [Place.parts, Expr.parts])
        (by simpa [Expr.parts] using hindex)
    cases range with
    | none => simpa [partsOf] using callsWith_countedLoop (callsWith_lenOf hlen q.name) (hflush 0)
    | some lohi => simpa [partsOf] using callsWith_countedLoop (callsWith_ofNat _) (hflush lohi.1)

theorem ends_independentScalar (modified : List String) (q : Param) (out : String)
    (hr : B.Ready st storage) :
    B.SweepEnds st storage (fun own st' => own.2.Only (B.May st'))
      (independentScalar modified q out) := by
  unfold independentScalar
  dsimp only
  split
  · refine .bind (ends_localAdjoint q out hr) fun own st₁ storage₁ hr₁ _ hown => ?_
    exact .bind (.bindAdjoint _ _ hr₁) fun _ st₂ _ hr₂ h₂ _ => .pure hr₂ (hown.later h₂)
  · exact .bind (.bindAdjoint _ _ hr) fun _ _ _ hr₁ _ _ => .pure hr₁ ⟨callsWith_nil, callsWith_nil⟩

theorem ends_independents (modified : List String) (params : List Param)
    (vars : List Request.Independent) (hr : B.Ready st storage) :
    B.SweepEnds st storage (fun own st' => own.1.Only (B.May st'))
      (independents modified params vars) := by
  induction vars generalizing st storage with
  | nil => exact .pure hr AdjointParams.only_none
  | cons v vs ih =>
    have hrest : ∀ {st : Progress} {storage : Storage} (own : AdjointParams)
        (scalars : List (String × String)), B.Ready st storage →
        own.Only (B.May st) →
        B.SweepEnds st storage (fun own st' => own.1.Only (B.May st')) (do
          let r ← independents modified params vs
          return (own.append r.1, scalars ++ r.2)) := by
      intro st storage own scalars hr hown
      exact .bind (ih hr) fun rest st₁ _ hr₁ h₁ hrest => .pure hr₁ ((hown.later h₁).append hrest)
    unfold independents
    dsimp only
    refine .bind (.fresh _ hr) fun out st₁ storage₁ hr₁ _ _ => ?_
    split
    · refine .bind (ends_independentArray modified _ v.range out hr₁)
        fun own st₂ storage₂ hr₂ _ hown => ?_
      exact hrest own [] hr₂ hown
    · refine .bind (ends_independentScalar modified _ out hr₁)
        fun own st₂ storage₂ hr₂ _ hown => ?_
      exact hrest own.2 [_] hr₂ hown

/-- The adjoint of a parameter is declared before those of the others. -/
theorem ends_adjointOf (lanes : Option Lanes) (q : Param) {others : Sweeping (List Stmt)}
    (hr : B.Ready st storage) (hothers : ∀ {st' : Progress} {storage' : Storage},
      B.Ready st' storage' →
        B.SweepEnds st' storage' (fun out st' => B.Covered st' (partsOf out)) others) :
    B.SweepEnds st storage (fun out st' => B.Covered st' (partsOf out)) (do
      let d ← Sweeping.fresh ("_d_" ++ q.name)
      Sweeping.bind q.name d
      let len := if q.ty.isArray then some (lenOf q.name) else none
      return adjointDecl lanes d len :: (← others)) := by
  refine .bind (.fresh _ hr) fun d st₁ storage₁ hr₁ _ _ => ?_
  refine .bind (.bindAdjoint _ _ hr₁) fun _ st₂ storage₂ hr₂ _ _ => ?_
  refine .bind (hothers hr₂) fun out st₃ _ hr₃ _ hout => .pure hr₃ ?_
  refine callsWith_append.mpr ⟨callsWith_adjointDecl ?_, hout⟩
  split
  · exact callsWith_lenOf (B.len _) q.name
  · exact callsWith_nil

theorem ends_otherAdjoints (ps : List Param) (hr : B.Ready st storage) :
    B.SweepEnds st storage (fun out st' => B.Covered st' (partsOf out)) (otherAdjoints ps) := by
  induction ps generalizing st storage with
  | nil => exact .pure hr callsWith_nil
  | cons q ps ih =>
    unfold otherAdjoints
    refine .get_bind ?_
    split
    · exact ends_adjointOf _ q hr fun hr' => ih hr'
    · exact ih hr

theorem ends_customSweeps (target custom : Func)
    (hr : B.Ready st storage) (hname : ∀ g, B.May st custom.name g) :
    B.SweepEnds st storage (fun out st' => B.Covered st' (partsOf out))
      (customSweeps target custom) := by
  refine .get_bind (.pure hr ?_)
  have hone : B.Covered st (Expr.partsList (if target.ret = .float then [.one] else [])) := by
    split <;> simp [Expr.partsList, Expr.one, Expr.parts]
  have hadjoints : ∀ ps : List Param, B.Covered st (Expr.partsList
      (ps.filterMap fun p => (storage.adjoint? p.name).map Expr.var)) := by
    intro ps
    induction ps with
    | nil => exact callsWith_nil
    | cons q ps ih =>
      rw [List.filterMap_cons]
      split
      · exact ih
      · rename_i e he
        obtain ⟨d, _, rfl⟩ := Option.map_eq_some_iff.mp he
        simpa [Expr.partsList, Expr.parts] using ih
  simpa [partsOf, Stmt.parts, Expr.parts] using
    ⟨hname _, partsList_vars target.params, hone, hadjoints target.params⟩

theorem ends_gradientSource {target : Func} (custom : Option Func) (hg : A.Good st)
    (hc : B.Covered st (partsOf target.stmts)) :
    A.Ends st (fun g st' => B.Covered st' (partsOf g.stmts) ∧ g.name = target.name)
      (gradientSource target custom) := by
  unfold gradientSource
  split
  · exact .pure hg ⟨hc, rfl⟩
  · exact ends_prepare hg hc
  · exact .unsupported hg

theorem covered_errors (sink : Option ErrorSink) (scalars : List (String × String)) :
    B.Covered st (partsOf (match sink with
      | some sink => scalars.map fun (x, d) => sink.term (.var d) (.var x)
      | none => [])) := by
  cases sink with
  | none => exact callsWith_nil
  | some sink =>
    induction scalars with
    | nil => exact callsWith_nil
    | cons xd rest ih =>
      refine callsWith_append.mpr ⟨callsWith_errorTerm (B.abs st) ?_ ?_, ih⟩ <;> simp [Expr.parts]

theorem ends_gradientWith (hp : B.Plans plan) (r : Request) (hcaller : r.target.name = B.caller)
    (epsilon : Option Float) (hg : A.Good st) (hc : B.Covered st (partsOf r.target.stmts)) :
    A.Ends st (fun g st' => A.Took st g.name st' ∧ B.Covered st' (partsOf g.stmts))
      (gradientWith s plan r epsilon) := by
  unfold gradientWith
  dsimp only
  refine .bind (ends_functionName hg _) fun name st₁ hg₁ h₁ hname => ?_
  refine .bind (ends_gradientSource _ hg₁ (h₁.calls hc)) fun source st₂ hg₂ h₂ hsource => ?_
  refine ends_currentHost_bind ?_
  refine Permit.SweepEnds.run' (B := B) ?_
  refine .bind (ends_independents _ r.target.params r.independents (.ofFunc hg₂ source))
    fun own st₃ storage₃ hr₃ h₃ hown => ?_
  refine .bind (ends_otherAdjoints r.target.params hr₃) fun others st₄ storage₄ hr₄ h₄ hothers => ?_
  refine .bind (ends_errorSink epsilon true hr₄) fun sink st₅ storage₅ hr₅ h₅ _ => ?_
  have h₃₅ := (h₃.trans h₄).trans h₅
  -- the sweeps come from the pullback that the source gives, or from the body
  have hend : ∀ (sweeps errors : List Stmt) (st₆ : Progress) (storage₆ : Storage),
      B.Ready st₆ storage₆ → A.Later st₅ st₆ → B.Covered st₆ (partsOf sweeps) →
      B.Covered st₆ (partsOf errors) →
      B.SweepEnds st₆ storage₆
        (fun (g : Func) st' => A.Took st g.name st' ∧ B.Covered st' (partsOf g.stmts)) (do
          let body := own.1.before ++ others ++ (← get).hoisted ++ sweeps ++ own.1.after ++ errors
          return ⟨name, r.target.params ++ own.1.params ++ sinkParam sink, .void, some body,
            r.target.span⟩) := by
    intro sweeps errors st₆ storage₆ hr₆ h₆ hsweeps herrors
    refine .get_bind (.pure hr₆ ⟨hname.1.later (h₂.trans (h₃₅.trans h₆)), ?_⟩)
    have hown₆ := hown.later ((h₄.trans h₅).trans h₆)
    simpa [Func.stmts] using ⟨hown₆.1, (h₅.trans h₆).calls hothers, hr₆.hoisted, hsweeps, hown₆.2,
      herrors⟩
  cases hcustom : s.registry.get? .pullback r.target.signature with
  | some custom =>
    exact .bind (ends_customSweeps r.target custom hr₅ (B.custom hcustom st₅))
      fun sweeps st₆ storage₆ hr₆ h₆ hsweeps =>
        hend sweeps _ st₆ storage₆ hr₆ h₆ hsweeps (covered_errors sink own.2)
  | none =>
    have hsound : Sweep.Sound { Sweep.ofFunc s plan source with
        alwaysSave := if epsilon.isSome then (s.host st₂).modifiedParams r.target else []
        error := sink } B := by
      refine ⟨hp, hsource.2.trans hcaller, ?_⟩
      rintro e ⟨⟩ S
      simp [Expr.one, Expr.parts]
    refine .bind (ends_body hsound source.stmts _ st₅ storage₅ hr₅ (h₃₅.calls hsource.1))
      fun sweeps st₆ storage₆ hr₆ h₆ hsweeps => ?_
    exact hend (sweeps.primal ++ sweeps.adjoint) _ st₆ storage₆ hr₆ h₆
      (by simpa using ⟨hsweeps.1, hsweeps.2⟩) (covered_errors sink own.2)

/-! ### Jacobians -/

theorem ends_laneAdjoints (lanes : Lanes) (ps : List Param) (hr : B.Ready st storage) :
    B.SweepEnds st storage (fun out st' => B.Covered st' (partsOf out))
      (laneAdjoints lanes ps) := by
  induction ps generalizing st storage with
  | nil => exact .pure hr callsWith_nil
  | cons q ps ih =>
    unfold laneAdjoints
    split
    · exact ends_adjointOf _ q hr fun hr' => ih hr'
    · exact ih hr

theorem covered_laneCount (outputs : List String) :
    B.Covered st (laneCount outputs).parts := by
  have hlen : ∀ x, B.Covered st (lenOf x).parts :=
    callsWith_lenOf (B.len st)
  cases outputs with
  | nil => simp [laneCount, Expr.parts]
  | cons o os =>
    unfold laneCount
    suffices hsum : ∀ (total : Expr), B.Covered st total.parts →
        B.Covered st (os.foldl (fun total x => total.indexSum (lenOf x)) total).parts from
      hsum _ (hlen o)
    induction os with
    | nil => exact fun _ h => h
    | cons x os ih => exact fun total h => ih _ (callsWith_indexSum h (hlen x))

theorem ends_matrixParams (outputs : List String) (hr : B.Ready st storage) :
    B.SweepEnds st storage (fun _ _ => True) (matrixParams outputs) := by
  induction outputs generalizing st storage with
  | nil => exact .pure hr trivial
  | cons o os ih =>
    refine .bind (.fresh _ hr) fun m st₁ storage₁ hr₁ _ _ => ?_
    exact .bind (ih hr₁) fun _ _ _ hr₂ _ _ => .pure hr₂ trivial

theorem ends_rowEntries (target : Func) (lanes : Lanes) (lane : Expr)
    (hlane : ∀ S : String → Option String → Prop, S "len" none → CallsWith S lane.parts)
    (vars : List Request.Independent) (hr : B.Ready st storage) :
    B.SweepEnds st storage (fun out st' => ∀ e ∈ out, B.Covered st' e.parts)
      (rowEntries target lanes lane vars) := by
  induction vars generalizing st storage with
  | nil => exact .pure hr (by simp)
  | cons v vs ih =>
    unfold rowEntries
    refine .get_bind ?_
    dsimp only
    split
    · exact .lift hr (.unsupported hr.good)
    · rename_i d _
      refine .bind (ih hr) fun out st₁ _ hr₁ _ hout => .pure hr₁ ?_
      have hlane₁ : B.Covered st₁ lane.parts := hlane _ (B.len st₁)
      intro e he
      rcases List.mem_append.mp he with he | he
      · obtain ⟨element, _, rfl⟩ := List.mem_map.mp he
        cases element with
        | none => simpa [Expr.parts] using hlane₁
        | some k =>
          have hindex : B.Covered st₁
              (((Expr.ofNat k).indexProduct (.var lanes.count)).indexSum lane).parts :=
            callsWith_indexSum
              (callsWith_indexProduct (callsWith_ofNat k) (by simp [Expr.parts])) hlane₁
          simpa [Expr.parts] using hindex
      · exact hout e he

/-- Writes of entries to the elements of an array that `index` tells. -/
theorem covered_writes {S : String → Option String → Prop} (array : String) (index : Nat → Expr)
    {entries : List Expr} (he : ∀ e ∈ entries, CallsWith S e.parts)
    (hi : ∀ k, CallsWith S (index k).parts) :
    CallsWith S (partsOf (entries.zipIdx.map fun (e, k) =>
      Stmt.update (.index array (index k)) .set e)) := by
  suffices hall : ∀ n, CallsWith S (partsOf ((entries.zipIdx n).map fun (e, k) =>
      Stmt.update (.index array (index k)) .set e)) from hall 0
  induction entries with
  | nil => exact fun _ => callsWith_nil
  | cons e rest ih =>
    intro n
    rw [List.zipIdx_cons]
    exact callsWith_append.mpr ⟨callsWith_update (hi n) (he e (by simp)),
      ih (fun e' he' => he e' (List.mem_cons_of_mem _ he')) (n + 1)⟩

theorem ends_jacobianEnds (target : Func) (lanes : Lanes)
    (vars : List Request.Independent) (width : Nat) (outputs : List (String × String))
    (offset : Expr)
    (hoffset : ∀ S : String → Option String → Prop, S "len" none → CallsWith S offset.parts)
    (hr : B.Ready st storage) :
    B.SweepEnds st storage (fun ends st' => B.Covered st' (partsOf ends.seeds) ∧
        B.Covered st' (partsOf ends.writes))
      (jacobianEnds target lanes vars width offset outputs) := by
  induction outputs generalizing offset st storage with
  | nil => exact .pure hr ⟨callsWith_nil, callsWith_nil⟩
  | cons om rest ih =>
    unfold jacobianEnds
    refine .get_bind ?_
    split
    · exact .lift hr (.unsupported hr.good)
    · rename_i d _
      refine .bind (.numbered _ hr) fun i st₁ storage₁ hr₁ h₁ _ => ?_
      dsimp only
      refine .bind (.numbered _ hr₁) fun r st₂ storage₂ hr₂ h₂ _ => ?_
      refine .bind (ends_rowEntries target lanes _ ?_ vars hr₂)
        fun entries st₃ storage₃ hr₃ h₃ hentries => ?_
      · exact fun S hS => callsWith_indexSum (hoffset S hS) (by simp [Expr.parts])
      refine .bind (ih _ ?_ hr₃) fun more st₄ _ hr₄ h₄ hmore => .pure hr₄ ?_
      · exact fun S hS => callsWith_indexSum (hoffset S hS) (callsWith_lenOf hS om.1)
      have hlen : B.May st₄ "len" none := B.len st₄
      have hslot : B.Covered st₄ (((Expr.var i).indexProduct (.var lanes.count)).indexSum
          (offset.indexSum (.var i))).parts :=
        callsWith_indexSum (callsWith_indexProduct (by simp [Expr.parts]) (by simp [Expr.parts]))
          (callsWith_indexSum (hoffset _ hlen) (by simp [Expr.parts]))
      constructor
      · refine callsWith_append.mpr
          ⟨callsWith_countedLoop (callsWith_lenOf hlen om.1) ?_, hmore.1⟩
        simpa [partsOf] using callsWith_update (by simpa [Place.parts] using hslot)
          (by simp [Expr.one, Expr.parts])
      · refine callsWith_append.mpr
          ⟨callsWith_countedLoop (callsWith_lenOf hlen om.1) ?_, hmore.2⟩
        refine covered_writes om.2 (fun column =>
          ((Expr.var r).indexProduct (.ofNat width)).indexSum (.ofNat column))
          (fun e he => h₄.calls (hentries e he)) fun column => ?_
        exact callsWith_indexSum
          (callsWith_indexProduct (by simp [Expr.parts]) (callsWith_ofNat width))
          (callsWith_ofNat column)

theorem ends_jacobianSteps (hp : B.Plans (planner s)) {source : Func}
    (hcaller : source.name = B.caller) (r : Request) (outputs : List String) (width : Nat)
    (name : String) (hr : B.Ready st storage) (hc : B.Covered st (partsOf source.stmts)) :
    B.SweepEnds st storage (Derives B name) (jacobianSteps s source r outputs width name) := by
  unfold jacobianSteps
  dsimp only
  refine .bind (.fresh _ hr) fun count st₁ storage₁ hr₁ h₁ _ => ?_
  refine .bind (.fresh _ hr₁) fun index st₂ storage₂ hr₂ h₂ _ => ?_
  refine .bind (ends_laneAdjoints _ r.target.params hr₂) fun adjoints st₃ storage₃ hr₃ h₃ hadj => ?_
  refine .bind (ends_matrixParams outputs hr₃) fun matrices st₄ storage₄ hr₄ h₄ _ => ?_
  have hsound : Sweep.Sound { Sweep.ofFunc s (planner s) source with
      seed := none
      lanes := some ⟨count, index⟩ } B := by
    refine ⟨hp, hcaller, ?_⟩
    rintro e ⟨⟩
  have h₁₄ := ((h₁.trans h₂).trans h₃).trans h₄
  refine .bind (ends_body hsound source.stmts _ st₄ storage₄ hr₄ (h₁₄.calls hc))
    fun sweeps st₅ storage₅ hr₅ h₅ hsweeps => ?_
  refine .bind (ends_jacobianEnds r.target _ r.independents width _ (.int 0)
    (fun _ _ => by simp [Expr.parts]) hr₅) fun ends st₆ storage₆ hr₆ h₆ hends => ?_
  refine .get_bind (.pure hr₆ ⟨rfl, ?_⟩)
  have hadj₆ := ((h₄.trans h₅).trans h₆).calls hadj
  have hlet : B.Covered st₆
      (Stmt.let_ count .int (some (laneCount outputs))).parts := by
    simpa [Stmt.let_, Stmt.parts, Local.parts] using covered_laneCount outputs
  simpa [Func.stmts, partsOf] using ⟨hlet, hadj₆, hr₆.hoisted, h₆.calls hsweeps.1, hends.1,
    h₆.calls hsweeps.2, hends.2⟩

theorem ends_jacobian (hp : B.Plans (planner s)) (r : Request) (hcaller : r.target.name = B.caller)
    (hcount : ∀ e, r.scalarCount = .error e → A.Failed (.request e) st) (hg : A.Good st)
    (hc : B.Covered st (partsOf r.target.stmts)) :
    A.Ends st (fun g st' => A.Took st g.name st' ∧ B.Covered st' (partsOf g.stmts))
      (jacobian s r) := by
  unfold jacobian
  dsimp only
  split
  · rename_i e he
    exact .throw (hcount e he)
  · exact .unsupported hg
  · refine ends_currentHost_bind ?_
    split
    · exact .unsupported hg
    · split
      · exact .unsupported hg
      · refine .bind (ends_prepare hg hc) fun source st₁ hg₁ h₁ hsource => ?_
        refine .bind (ends_functionName hg₁ _) fun name st₂ hg₂ h₂ hname => ?_
        refine (ends_jacobianSteps hp (hsource.2.trans hcaller) r _ _ name (.ofFunc hg₂ source)
          (h₂.calls hsource.1)).run'.imp fun g st₃ h₃ hderives => ⟨?_, hderives.2⟩
        rw [hderives.1]
        exact (hname.1.later h₃).since h₁

end

/-! ### Columns of a hessian -/

section

variable {S : String → Option String → Prop}

theorem callsWith_flatMap {α : Type} {xs : List α} {code : α → List Stmt}
    (h : ∀ x ∈ xs, CallsWith S (partsOf (code x))) : CallsWith S (partsOf (xs.flatMap code)) := by
  induction xs with
  | nil => exact callsWith_nil
  | cons x xs ih =>
    rw [List.flatMap_cons, partsOf_append]
    exact callsWith_append.mpr ⟨h x (by simp), ih fun y hy => h y (List.mem_cons_of_mem _ hy)⟩

theorem callsWith_map {α : Type} {xs : List α} {code : α → Stmt}
    (h : ∀ x ∈ xs, CallsWith S (code x).parts) : CallsWith S (partsOf (xs.map code)) := by
  rw [← List.flatMap_singleton' (xs.map code), List.flatMap_map]
  exact callsWith_flatMap fun x hx => by simpa [partsOf] using h x hx

theorem callsWith_partsList {es : List Expr} (h : ∀ e ∈ es, CallsWith S e.parts) :
    CallsWith S (Expr.partsList es) := by
  induction es with
  | nil => exact callsWith_nil
  | cons e es ih =>
    exact callsWith_append.mpr ⟨h e (by simp), ih fun e' he' => h e' (List.mem_cons_of_mem _ he')⟩

theorem callsWith_primalArg (hlen : S "len" none) (p : Param) (copy counter : String)
    (written : Bool) :
    CallsWith S (partsOf (primalArg p copy counter written).1) ∧
      CallsWith S (primalArg p copy counter written).2.parts := by
  have hvar : ∀ x, CallsWith S (Expr.var x).parts := fun x => by simp [Expr.parts]
  unfold primalArg
  split
  · exact ⟨by simp [partsOf, Stmt.let_, Stmt.parts, Local.parts, Expr.parts], hvar _⟩
  · split
    · refine ⟨?_, hvar _⟩
      simpa [partsOf, Stmt.arrayDecl, Stmt.parts, Local.parts] using
        ⟨callsWith_lenOf hlen _, callsWith_copyLoop hlen counter copy p.name⟩
    · exact ⟨callsWith_nil, hvar _⟩
  · exact ⟨callsWith_nil, hvar _⟩

theorem callsWith_tangentArg (hlen : S "len" none) (p : Param) (seed : String) (here : Bool)
    (element : Option Nat) :
    CallsWith S (partsOf (tangentArg p seed here element).1) ∧
      ∀ e ∈ (tangentArg p seed here element).2, CallsWith S e.parts := by
  have hstart : CallsWith S (if here then Expr.one else Expr.zero).parts := by
    cases here <;> simp [Expr.one, Expr.zero, Expr.parts]
  unfold tangentArg
  split
  · exact ⟨callsWith_nil, by simp⟩
  dsimp only
  generalize (if here then Expr.one else Expr.zero) = start at hstart ⊢
  split
  · refine ⟨callsWith_nil, ?_⟩
    rintro e ⟨⟩
    exact hstart
  · refine ⟨by simpa [partsOf, Stmt.let_, Stmt.parts, Local.parts] using hstart, ?_⟩
    rintro e ⟨⟩
    simp [Expr.parts]
  · refine ⟨callsWith_append.mpr ⟨callsWith_lenOf hlen _, ?_⟩, ?_⟩
    · split
      · simpa [partsOf] using callsWith_update (by simp [Place.parts])
          (by simp [Expr.one, Expr.parts])
      · exact callsWith_nil
    · rintro e ⟨⟩
      simp [Expr.parts]

/-- A parameter in a column calls nothing but `len`. -/
theorem callsWith_hessianArgs (hlen : S "len" none) (names : HessianNames) (written : List Nat)
    (along : Direction) (ps : List Param) (i : Nat) :
    ∀ a ∈ hessianArgs names written along i ps, CallsWith S (partsOf a.before) ∧
      CallsWith S a.primal.parts ∧ ∀ e ∈ a.tangent, CallsWith S e.parts := by
  induction ps generalizing i with
  | nil => simp [hessianArgs]
  | cons p ps ih =>
    intro a ha
    rcases List.mem_cons.mp ha with rfl | ha
    · have hprimal := callsWith_primalArg hlen p (names.copies[i]?.getD "") names.counter
        (written.contains i)
      have htangent := callsWith_tangentArg hlen p (names.seeds[i]?.getD "") (along.param == i)
        along.element
      refine ⟨?_, hprimal.2, htangent.2⟩
      rw [partsOf_append]
      exact callsWith_append.mpr ⟨hprimal.1, htangent.1⟩
    · exact ih (i + 1) a ha

theorem callsWith_hessianColumn (hlen : S "len" none) {pushed : String} (hpushed : ∀ g, S pushed g)
    (target : Func) (shapes : List (Option Nat)) (written : List Nat) (names : HessianNames)
    (matrix : String) (n c : Nat) (along : Direction) :
    CallsWith S (hessianColumn target shapes written names pushed matrix n c along).parts := by
  have hargs := callsWith_hessianArgs hlen names written along target.params 0
  have hdecl : ∀ shape x, CallsWith S (outputDecl shape x).parts := by
    intro shape x
    cases shape <;> simp [outputDecl, Stmt.let_, Stmt.parts, Local.parts, Expr.zero, Expr.parts]
  unfold hessianColumn
  simp only [Stmt.parts, partsOf_append, callsWith_append]
  refine ⟨⟨⟨callsWith_flatMap fun a ha => (hargs a ha).1, callsWith_flatMap fun o _ => ?_⟩, ?_⟩, ?_⟩
  · simpa [partsOf] using ⟨hdecl _ _, hdecl _ _⟩
  · simp only [partsOf, Stmt.parts, Expr.parts, List.append_nil, callsWith_cons,
      Expr.call.injEq]
    refine ⟨fun f args h => h.1 ▸ hpushed _, callsWith_partsList fun e he => ?_⟩
    simp only [List.mem_append, List.mem_map, List.mem_filterMap] at he
    rcases he with ((⟨a, ha, rfl⟩ | ⟨o, _, rfl⟩) | ⟨a, ha, he⟩) | ⟨o, _, rfl⟩
    · exact (hargs a ha).2.1
    · simp [Expr.parts]
    · exact (hargs a ha).2.2 e he
    · simp [Expr.parts]
  · refine covered_writes matrix (fun row => .ofNat (row * n + c)) (fun e he => ?_)
      fun _ => callsWith_ofNat _
    obtain ⟨⟨_, shape⟩, _, he⟩ := List.mem_flatMap.mp he
    cases shape with
    | none => simp_all [columnEntries, Expr.parts]
    | some k =>
      obtain ⟨j, _, rfl⟩ := List.mem_map.mp he
      simp [Expr.parts]

end

section

variable {s : Setting} {A : Account s} {B : Permit A} {st : Progress}

/-- The columns of a hessian call the pushforward of the gradient, once that is derived. -/
theorem ends_hessian (r : Request)
    (hcount : ∀ e, r.scalarCount = .error e → A.Failed (.request e) st) (hg : A.Good st)
    (hpushed : A.Ends st (fun pushed st' => ∀ g, B.May st' pushed g) (do
      let grad ← gradient s (planner s) r
      modify (·.addSupport grad)
      derive s .pushforward grad)) :
    A.Ends st (fun g st' => A.Took st g.name st' ∧ B.Covered st' (partsOf g.stmts))
      (hessian s r) := by
  have hbind : ∀ {Q : Func → Progress → Prop} {k : String → Derivation Func},
      (∀ pushed st₁, A.Good st₁ → A.Later st st₁ → (∀ g, B.May st₁ pushed g) →
        A.Ends st₁ Q (k pushed)) →
      A.Ends st Q (do
        let grad ← gradient s (planner s) r
        modify (·.addSupport grad)
        let pushed ← derive s .pushforward grad
        k pushed) := by
    intro Q k hk
    have hend := Ends.bind hpushed hk
    simpa only [bind_assoc] using hend
  unfold hessian
  dsimp only
  split
  · rename_i e he
    exact .throw (hcount e he)
  · exact .unsupported hg
  · refine hbind fun pushed st₁ hg₁ hl₁ hmay => ends_currentHost_bind ?_
    refine .bind (ends_functionName hg₁ _) fun name st₂ hg₂ hl₂ hname => ?_
    refine .pure hg₂ ⟨hname.1.since hl₁, ?_⟩
    refine callsWith_map fun x _ => ?_
    exact callsWith_hessianColumn (B.len st₂) (fun g => B.later hl₂ (hmay g)) _ _ _ _ _ _ _ _

end

end Fluxion.Derive
