import Fluxion.Derive.Jacobian
import Fluxion.Proofs.Emitted.Tangent

/-!
Code of reverse mode calls what the source calls and the derivatives that were planned.
-/

namespace Fluxion.Derive

namespace Permit

variable {s : Setting} {A : Account s} {B : Permit A} {α β : Type} {st : Progress}
  {storage : Storage}

/-- What holds between the steps of a sweep that succeed. -/
structure Ready (B : Permit A) (st : Progress) (storage : Storage) : Prop where
  good : A.Good st
  hoisted : B.Covered st (partsOf storage.hoisted)

/-- A step of a sweep ends well. -/
def SweepEnds (B : Permit A) (st : Progress) (storage : Storage) (Q : α → Progress → Prop)
    (m : Sweeping α) : Prop :=
  A.Ends st (fun out st' => Q out.1 st' ∧ B.Covered st' (partsOf out.2.hoisted)) (m storage)

theorem SweepEnds.pure {Q : α → Progress → Prop} {a : α} (hr : B.Ready st storage)
    (h : Q a st) : B.SweepEnds st storage Q (pure a) :=
  Account.Ends.pure hr.good ⟨h, hr.hoisted⟩

theorem SweepEnds.lift {Q : α → Progress → Prop} {m : Derivation α}
    (hr : B.Ready st storage) (h : A.Ends st Q m) :
    B.SweepEnds st storage Q (liftM m) :=
  Account.Ends.bind h fun _ _ hg hl hq => .pure hg ⟨hq, hl.calls hr.hoisted⟩

theorem SweepEnds.bind {Q : α → Progress → Prop} {R : β → Progress → Prop} {m : Sweeping α}
    {f : α → Sweeping β} (hm : B.SweepEnds st storage Q m)
    (hf : ∀ a st' storage', B.Ready st' storage' → A.Later st st' → Q a st' →
      B.SweepEnds st' storage' R (f a)) :
    B.SweepEnds st storage R (m >>= f) :=
  Account.Ends.bind hm fun out st' hg hl hq => hf out.1 st' out.2 ⟨hg, hq.2⟩ hl hq.1

theorem SweepEnds.get_bind {R : β → Progress → Prop} {f : Storage → Sweeping β}
    (h : B.SweepEnds st storage R (f storage)) :
    B.SweepEnds st storage R (get >>= f) := h

theorem SweepEnds.fail {Q : α → Progress → Prop} (c : Sweep) (o : Obstacle)
    (hr : B.Ready st storage) : B.SweepEnds st storage Q (c.fail o) :=
  .lift hr (.unsupported hr.good)

/-- Steps that take a name or bind an adjoint leave what is hoisted. -/
theorem SweepEnds.modifyGet {Q : α → Progress → Prop} {g : Storage → α × Storage}
    (hr : B.Ready st storage) (hg : (g storage).2.hoisted = storage.hoisted)
    (h : Q (g storage).1 st) :
    B.SweepEnds st storage Q (modifyGet g) :=
  Account.Ends.pure hr.good ⟨h, hg ▸ hr.hoisted⟩

theorem SweepEnds.fresh (base : String) (hr : B.Ready st storage) :
    B.SweepEnds st storage (fun _ _ => True) (Sweeping.fresh base) :=
  .modifyGet hr rfl trivial

theorem SweepEnds.numbered (stem : String) (hr : B.Ready st storage) :
    B.SweepEnds st storage (fun _ _ => True) (Sweeping.numbered stem) :=
  .modifyGet hr rfl trivial

theorem SweepEnds.bindAdjoint (x d : String) (hr : B.Ready st storage) :
    B.SweepEnds st storage (fun _ _ => True) (Sweeping.bind x d) :=
  .modifyGet hr rfl trivial

theorem SweepEnds.hoist {stmt : Stmt} (hr : B.Ready st storage) (h : B.Covered st stmt.parts) :
    B.SweepEnds st storage (fun _ _ => True) (Sweeping.hoist stmt) :=
  Account.Ends.pure hr.good ⟨trivial, by simpa [partsOf] using ⟨hr.hoisted, h⟩⟩

theorem SweepEnds.hoistNew (stem : String) (ty : Ty) (hr : B.Ready st storage) :
    B.SweepEnds st storage (fun _ _ => True) (Sweeping.hoistNew stem ty) := by
  refine .bind (.numbered stem hr) fun x st₁ _ hr₁ _ _ => ?_
  refine .bind (.hoist hr₁ (by simp [Stmt.let_, Stmt.parts, Local.parts])) fun _ _ _ hr₂ _ _ => ?_
  exact .pure hr₂ trivial

end Permit

/-- A sweep of the function of a permit whose plans can be followed, with a seed that calls
nothing. -/
structure Sweep.Sound (c : Sweep) {A : Account c.setting} (B : Permit A) : Prop where
  plan : B.Plans c.plan
  function : c.function = B.caller
  seed : ∀ e ∈ c.seed, ∀ S, CallsWith S e.parts

namespace Sweep

/-! ### Places and pieces -/

section

variable {S : String → Option String → Prop} {c : Sweep} {storage : Storage}

theorem callsWith_toExpr {place : Place} (h : CallsWith S place.parts) :
    CallsWith S place.toExpr.parts := by
  cases place with
  | var x => simp [Place.toExpr, Expr.parts]
  | index x i => simpa [Place.toExpr, Place.parts, Expr.parts] using h

theorem callsWith_lanePlace {lanes : Option Lanes} {d : String} {place : Place}
    (h : CallsWith S place.parts) : CallsWith S (lanePlace lanes d place).parts := by
  cases place with
  | var x => cases lanes <;> simp [lanePlace, Place.renamed, Place.parts, Expr.parts]
  | index x i =>
    have hi : CallsWith S i.parts := by simpa [Place.parts] using h
    cases lanes with
    | none => simpa [lanePlace, Place.renamed, Place.parts] using hi
    | some l =>
      exact callsWith_indexSum (callsWith_indexProduct hi (by simp [Expr.parts]))
        (by simp [Expr.parts])

theorem callsWith_adjointPlace? {place q : Place} (h : CallsWith S place.parts)
    (hq : c.adjointPlace? storage place = some q) : CallsWith S q.parts := by
  obtain ⟨d, _, rfl⟩ := Option.map_eq_some_iff.mp hq
  exact callsWith_lanePlace h

theorem callsWith_place? {arg : Expr} {place : Place} (h : CallsWith S arg.parts)
    (hp : arg.place? = some place) : CallsWith S place.parts := by
  cases arg with
  | var x =>
    obtain rfl : place = .var x := by simpa [Expr.place?] using hp.symm
    exact callsWith_nil
  | index x i =>
    obtain rfl : place = .index x i := by simpa [Expr.place?] using hp.symm
    simpa [Place.parts, Expr.parts] using h
  | _ => simp [Expr.place?] at hp

theorem callsWith_argPlace? {arg : Expr} {q : Place} (h : CallsWith S arg.parts)
    (hq : c.argPlace? storage arg = some q) : CallsWith S q.parts := by
  obtain ⟨place, hplace, hq⟩ := Option.bind_eq_some_iff.mp hq
  exact callsWith_adjointPlace? (callsWith_place? h hplace) hq

theorem callsWith_update {place : Place} {op : AssignOp} {value : Expr}
    (hp : CallsWith S place.parts) (hv : CallsWith S value.parts) :
    CallsWith S (Stmt.update place op value).parts :=
  callsWith_append.mpr ⟨hp, hv⟩

theorem callsWith_countedLoop {i : String} {count : Expr} {body : List Stmt}
    (hc : CallsWith S count.parts) (hb : CallsWith S (partsOf body)) :
    CallsWith S (countedLoop i count body).parts := by
  simp [countedLoop, Stmt.parts, LoopInit.parts, Local.parts, Assignment.parts, Place.parts,
    Expr.less, Expr.parts, hc, hb]

theorem callsWith_lenOf (hlen : S "len" none) (x : String) : CallsWith S (lenOf x).parts := by
  simpa [lenOf, Expr.parts, Expr.partsList] using hlen

theorem callsWith_copyLoop (hlen : S "len" none) (i target source : String) :
    CallsWith S (copyLoop i target source).parts :=
  callsWith_countedLoop (callsWith_lenOf hlen source)
    (by simp [partsOf, Stmt.update, Stmt.parts, Assignment.parts, Place.parts, Expr.parts])

theorem callsWith_perLane {group : List Stmt} (h : CallsWith S (partsOf group)) :
    CallsWith S (partsOf (c.perLane group)) := by
  unfold perLane
  split
  · split
    · exact callsWith_nil
    · simpa [partsOf] using callsWith_countedLoop (by simp [Expr.parts]) h
  · exact h

theorem callsWith_adjointDecl {lanes : Option Lanes} {d : String} {len : Option Expr}
    (h : CallsWith S ((len.map Expr.parts).getD [])) :
    CallsWith S (adjointDecl lanes d len).parts := by
  cases len with
  | none =>
    cases lanes <;>
      simp [adjointDecl, Stmt.let_, Stmt.parts, Local.parts, Expr.zero, Expr.parts]
  | some n =>
    cases lanes with
    | none => simpa [adjointDecl, Stmt.parts] using h
    | some l => exact callsWith_indexProduct h (by simp [Expr.parts])

theorem callsWith_errorTerm (habs : ∀ g, S "abs" g) {e : ErrorSink} {adjoint value : Expr}
    (ha : CallsWith S adjoint.parts) (hv : CallsWith S value.parts) :
    CallsWith S (e.term adjoint value).parts := by
  have hproduct : CallsWith S ((adjoint.times value).times (.float e.epsilon)).parts :=
    callsWith_times (callsWith_times ha hv) (by simp [Expr.parts])
  simpa [ErrorSink.term, Stmt.update, Stmt.parts, Assignment.parts, Place.parts, Expr.parts,
    Expr.partsList] using ⟨habs _, hproduct⟩

/-- What a pullback gets calls nothing unknown. -/
def PullbackArg.Only (S : String → Option String → Prop) (a : PullbackArg) : Prop :=
  CallsWith S (partsOf a.before) ∧ CallsWith S a.adjoint.parts ∧ CallsWith S (partsOf a.after)

theorem callsWith_pullbackCall {callee : Func} {d : String} {args : List Expr} {seed : Expr}
    {derived : Bool} {pieces : List PullbackArg} (hd : ∀ g, S d g)
    (hargs : CallsWith S (Expr.partsList args)) (hseed : CallsWith S seed.parts)
    (hpieces : ∀ a ∈ pieces, a.Only S) :
    CallsWith S (partsOf (c.pullbackCall callee d args seed derived pieces)) := by
  have hall : CallsWith S (partsOf (pieces.map (·.before)).flatten) ∧
      CallsWith S (Expr.partsList (pieces.map (·.adjoint))) ∧
      CallsWith S (partsOf (pieces.map (·.after)).flatten) := by
    induction pieces with
    | nil => exact ⟨callsWith_nil, callsWith_nil, callsWith_nil⟩
    | cons a rest ih =>
      have ha := hpieces a (by simp)
      have hrest := ih fun b hb => hpieces b (List.mem_cons_of_mem _ hb)
      simp [Expr.partsList, ha.1, ha.2.1, ha.2.2, hrest.1, hrest.2.1, hrest.2.2]
  have hsink : CallsWith S (Expr.partsList
      (if derived then (c.error.map fun e => Expr.var e.accumulator).toList else [])) := by
    split
    · cases c.error <;> simp [Expr.partsList, Expr.parts]
    · exact callsWith_nil
  have hresult : CallsWith S (Expr.partsList (if callee.ret = .float then [seed] else [])) := by
    split
    · simpa [Expr.partsList] using hseed
    · exact callsWith_nil
  simpa [pullbackCall, pullbackArgs, partsOf, Stmt.parts, Expr.parts] using
    ⟨hall.1, hd _, hargs, hresult, hall.2.1, hsink, hall.2.2⟩

theorem callsWith_seedsOf? {op : BinOp} {l r seed toL toR : Expr} (hl : CallsWith S l.parts)
    (hr : CallsWith S r.parts) (hs : CallsWith S seed.parts)
    (h : seedsOf? op l r seed = some (toL, toR)) :
    CallsWith S toL.parts ∧ CallsWith S toR.parts := by
  cases op <;> simp only [seedsOf?, Option.some.injEq, Prod.mk.injEq, reduceCtorEq] at h
  case add => exact ⟨h.1 ▸ hs, h.2 ▸ hs⟩
  case sub => exact ⟨h.1 ▸ hs, h.2 ▸ callsWith_negate hs⟩
  case mul => exact ⟨h.1 ▸ callsWith_times hs hr, h.2 ▸ callsWith_times hl hs⟩
  case div =>
    exact ⟨h.1 ▸ callsWith_dividedBy hs hr,
      h.2 ▸ callsWith_negate (callsWith_dividedBy (callsWith_times hs hl) (callsWith_times hr hr))⟩

end

/-! ### Statements -/

/-- Both sweeps call nothing unknown. -/
def SweepsOnly (S : String → Option String → Prop) (w : Sweeps) : Prop :=
  CallsWith S (partsOf w.primal) ∧ CallsWith S (partsOf w.adjoint)

section

variable {c : Sweep} {A : Account c.setting} {B : Permit A} {st : Progress} {storage : Storage}

theorem PullbackArg.Only.later {st st' : Progress} {a : PullbackArg}
    (h : a.Only (B.May st)) (hl : A.Later st st') : a.Only (B.May st') :=
  ⟨hl.calls h.1, hl.calls h.2.1, hl.calls h.2.2⟩

theorem ends_arrayArg (callee : Func) (arg : Expr) (hr : B.Ready st storage) :
    B.SweepEnds st storage (fun a st' => a.Only (B.May st')) (c.arrayArg callee arg) := by
  unfold arrayArg
  refine .get_bind ?_
  dsimp only
  split
  · exact .fail c _ hr
  · rename_i array d _
    split
    · exact .pure hr ⟨callsWith_nil, by simp [Expr.parts], callsWith_nil⟩
    · rename_i l _
      refine .bind (.numbered _ hr) fun scratch st₁ _ hr₁ _ _ => ?_
      refine .bind (.numbered _ hr₁) fun i st₂ _ hr₂ _ _ => .pure hr₂ ?_
      have hlen : B.May st₂ "len" none := B.len st₂
      have hslot : B.Covered st₂
          (((Expr.var i).indexProduct (.var l.count)).indexSum (.var l.index)).parts :=
        callsWith_indexSum (callsWith_indexProduct (by simp [Expr.parts]) (by simp [Expr.parts]))
          (by simp [Expr.parts])
      refine ⟨?_, by simp [Expr.parts], ?_⟩
      · simp only [partsOf, callsWith_append, callsWith_nil, and_true]
        refine ⟨callsWith_lenOf hlen array, callsWith_countedLoop (callsWith_lenOf hlen array) ?_⟩
        simpa [partsOf] using callsWith_update (by simp [Place.parts, Expr.parts])
          (by simpa [Expr.parts] using hslot)
      · simp only [partsOf, callsWith_append, callsWith_nil, and_true]
        refine callsWith_countedLoop (callsWith_lenOf hlen array) ?_
        simpa [partsOf] using callsWith_update (by simpa [Place.parts] using hslot)
          (by simp [Expr.parts])

theorem ends_refArg (callee : Func) {arg : Expr} (hr : B.Ready st storage)
    (ha : B.Covered st arg.parts) :
    B.SweepEnds st storage (fun a st' => a.Only (B.May st')) (c.refArg callee arg) := by
  unfold refArg
  refine .get_bind ?_
  split
  · rename_i place hplace
    exact .pure hr ⟨callsWith_nil, callsWith_toExpr (callsWith_argPlace? ha hplace), callsWith_nil⟩
  · exact .fail c _ hr

mutual

theorem ends_accumulate (hc : c.Sound B) :
    ∀ (e seed : Expr) (st : Progress) (storage : Storage),
      B.Ready st storage →
      B.Covered st seed.parts →
      B.Covered st e.parts →
      B.SweepEnds st storage
        (fun out st' => B.Covered st' (partsOf out)) (c.accumulate seed e)
  | e, seed, st, storage, hr, hseed, he => by
    rw [accumulate.eq_def]
    split
    · exact .pure hr callsWith_nil
    · cases e with
      | float v | int v | bool v | funcRef f => exact .pure hr callsWith_nil
      | var x =>
        refine .get_bind (.pure hr ?_)
        cases hq : c.adjointPlace? storage (.var x) with
        | none => exact callsWith_nil
        | some q =>
          simpa [partsOf] using callsWith_update
            (callsWith_adjointPlace? (by simp [Place.parts]) hq) hseed
      | index x i =>
        refine .get_bind (.pure hr ?_)
        cases hq : c.adjointPlace? storage (.index x i) with
        | none => exact callsWith_nil
        | some q =>
          simpa [partsOf] using callsWith_update
            (callsWith_adjointPlace? (by simpa [Place.parts, Expr.parts] using he) hq) hseed
      | unary op inner =>
        cases op with
        | neg =>
          exact ends_accumulate hc inner seed.negate st storage hr (callsWith_negate hseed)
            (by simpa [Expr.parts] using he)
        | not => exact .pure hr callsWith_nil
      | binary op l r =>
        simp only [Expr.parts, callsWith_cons, callsWith_append] at he
        dsimp only
        split
        · rename_i toL toR hseeds
          obtain ⟨hL, hR⟩ := callsWith_seedsOf? he.2.1 he.2.2 hseed hseeds
          refine .bind (ends_accumulate hc l toL st storage hr hL he.2.1)
            fun ls st₁ storage₁ hr₁ h₁ hls => ?_
          refine .bind (ends_accumulate hc r toR st₁ storage₁ hr₁ (h₁.calls hR) (h₁.calls he.2.2))
            fun rs st₂ _ hr₂ h₂ hrs => .pure hr₂ ?_
          simpa using ⟨h₂.calls hls, hrs⟩
        · exact .pure hr callsWith_nil
      | call f args =>
        simp only [Expr.parts, callsWith_cons] at he
        dsimp only
        split
        · exact .pure hr callsWith_nil
        · exact .fail c _ hr
        · refine .bind (.lift hr (Account.ends_calleeOf hr.good c.function c.env f args))
            fun callee st₁ storage₁ hr₁ h₁ hcal => ?_
          refine .bind (.lift hr₁ (hc.plan.at hc.function .pullback hr₁.good hcal))
            fun made st₂ storage₂ hr₂ h₂ hmade => ?_
          have h₁₂ := h₁.trans h₂
          have hargs := h₁₂.calls he.2
          have hcall : ∀ (d : String) (derived : Bool), (∀ g, B.May st₂ d g) →
              B.SweepEnds st₂ storage₂ (fun out st' => B.Covered st' (partsOf out)) (do
                let pieces ← c.adjointArgs callee callee.params args
                return c.pullbackCall callee d args seed derived pieces) := by
            intro d derived hd
            refine .bind (ends_adjointArgs hc callee callee.params args st₂ storage₂ hr₂ hargs)
              fun pieces st₃ _ hr₃ h₃ hpieces => .pure hr₃ ?_
            exact callsWith_pullbackCall (fun g => B.later h₃ (hd g)) (h₃.calls hargs)
              ((h₁₂.trans h₃).calls hseed) hpieces
          split
          · exact .pure hr₂ callsWith_nil
          · exact hcall _ false hmade
          · exact hcall _ true hmade
          · exact ends_accumulateNumerical hc callee args seed 0 callee.params args st₂ storage₂
              hr₂ hmade hargs (h₁₂.calls hseed) hargs
termination_by e => (sizeOf e, 0)

theorem ends_adjointArgs (hc : c.Sound B) (callee : Func) :
    ∀ (ps : List Param) (es : List Expr) (st : Progress) (storage : Storage),
      B.Ready st storage →
      B.Covered st (Expr.partsList es) →
      B.SweepEnds st storage
        (fun out st' => ∀ a ∈ out, PullbackArg.Only (B.May st') a)
        (c.adjointArgs callee ps es)
  | [], _, _, _, hr, _ | _ :: _, [], _, _, hr, _ => by
    simp only [adjointArgs]
    exact .pure hr (by simp)
  | p :: ps, e :: es, st, storage, hr, he => by
    simp only [Expr.partsList, callsWith_append] at he
    -- whatever the first piece is made from, the others follow
    have hrest : ∀ (m : Sweeping PullbackArg) (st : Progress) (storage : Storage),
        B.Covered st (Expr.partsList es) →
        B.SweepEnds st storage
          (fun a st' => a.Only (B.May st')) m →
        B.SweepEnds st storage
          (fun out st' => ∀ a ∈ out, PullbackArg.Only (B.May st') a)
          (do
            let piece ← m
            return piece :: (← c.adjointArgs callee ps es)) := by
      intro m st storage hes hm
      refine .bind hm fun a st₁ storage₁ hr₁ h₁ ha => ?_
      refine .bind (ends_adjointArgs hc callee ps es st₁ storage₁ hr₁ (h₁.calls hes))
        fun out st₂ _ hr₂ h₂ hout => .pure hr₂ ?_
      intro b hb
      rcases List.mem_cons.mp hb with rfl | hb
      · exact ha.later h₂
      · exact hout b hb
    rw [adjointArgs]
    split
    · exact ends_adjointArgs hc callee ps es st storage hr he.2
    · split
      · exact hrest _ st storage he.2 (ends_arrayArg callee e hr)
      · exact hrest _ st storage he.2 (ends_refArg callee hr he.1)
      · refine .get_bind ?_
        split
        · rename_i place hplace
          exact hrest (pure ⟨[], place.toExpr, []⟩) st storage he.2
            (.pure hr ⟨callsWith_nil, callsWith_toExpr (callsWith_argPlace? he.1 hplace),
              callsWith_nil⟩)
        · refine .bind (.hoistNew _ _ hr) fun temp st₁ storage₁ hr₁ h₁ _ => ?_
          refine .bind (ends_accumulate hc e (.var temp) st₁ storage₁ hr₁ (by simp [Expr.parts])
            (h₁.calls he.1)) fun after st₂ storage₂ hr₂ h₂ hafter => ?_
          refine hrest (pure ⟨[.set temp .zero], .var temp, after⟩) st₂ storage₂
            ((h₁.trans h₂).calls he.2) (.pure hr₂ ⟨?_, by simp [Expr.parts], hafter⟩)
          simp [partsOf, Stmt.set, Stmt.parts, Assignment.parts, Place.parts, Expr.zero, Expr.parts]
termination_by _ es => (sizeOf es, 1)

theorem ends_accumulateNumerical (hc : c.Sound B) (callee : Func) (args : List Expr) :
    ∀ (seed : Expr) (k : Nat) (ps : List Param) (es : List Expr) (st : Progress)
      (storage : Storage), B.Ready st storage → B.Planned callee .numerical st →
      B.Covered st (Expr.partsList args) → B.Covered st seed.parts →
      B.Covered st (Expr.partsList es) →
      B.SweepEnds st storage
        (fun out st' => B.Covered st' (partsOf out))
        (c.accumulateNumerical callee args seed k ps es)
  | _, _, [], _, _, _, hr, _, _, _, _ | _, _, _ :: _, [], _, _, hr, _, _, _, _ => by
    simp only [accumulateNumerical]
    exact .pure hr callsWith_nil
  | seed, k, p :: ps, e :: es, st, storage, hr, hmade, hargs, hseed, he => by
    simp only [Expr.partsList, callsWith_append] at he
    rw [accumulateNumerical]
    split
    · refine .bind (ends_accumulate hc e _ st storage hr
        (callsWith_times hseed (Account.covered_centralDifference hmade hargs)) he.1)
        fun own st₁ storage₁ hr₁ h₁ hown => ?_
      refine .bind (ends_accumulateNumerical hc callee args seed (k + 1) ps es st₁ storage₁ hr₁
        (hmade.later h₁) (h₁.calls hargs) (h₁.calls hseed) (h₁.calls he.2))
        fun out st₂ _ hr₂ h₂ hout => .pure hr₂ ?_
      simpa using ⟨h₂.calls hown, hout⟩
    · exact ends_accumulateNumerical hc callee args seed (k + 1) ps es st storage hr hmade hargs
        hseed he.2
termination_by _ _ _ es => (sizeOf es, 1)

end

theorem sweepEnds_host_bind {α : Type} {Q : α → Progress → Prop} {f : Host → Sweeping α}
    (h : B.SweepEnds st storage Q (f (c.setting.host st))) :
    B.SweepEnds st storage Q (c.host >>= f) := h

theorem ends_checkPure (e : Expr) (hr : B.Ready st storage) :
    B.SweepEnds st storage (fun _ _ => True) (c.checkPure e) := by
  unfold checkPure
  refine sweepEnds_host_bind ?_
  split
  · exact .fail c _ hr
  · exact .pure hr trivial

theorem ends_save (inLoop : Bool) {place : Place} (ty : Ty) (hr : B.Ready st storage)
    (hp : B.Covered st place.parts) :
    B.SweepEnds st storage (fun out st' => B.Covered st' out.1.parts ∧
        B.Covered st' out.2.parts) (save inLoop place ty) := by
  unfold save
  split
  · refine .bind (.hoistNew _ _ hr) fun tape st₁ _ hr₁ h₁ _ => .pure hr₁ ⟨?_, ?_⟩
    · simpa [pushTo, Stmt.parts, Expr.parts, Expr.partsList] using
        ⟨B.intrinsic (by decide) (by decide) _ _, callsWith_toExpr (h₁.calls hp)⟩
    · refine callsWith_update (h₁.calls hp) ?_
      simpa [popFrom, Expr.parts, Expr.partsList] using B.intrinsic (by decide) (by decide) _ _
  · refine .bind (.hoistNew _ _ hr) fun slot st₁ _ hr₁ h₁ _ => .pure hr₁ ⟨?_, ?_⟩
    · exact callsWith_update callsWith_nil (callsWith_toExpr (h₁.calls hp))
    · exact callsWith_update (h₁.calls hp) (by simp [Expr.parts])

theorem ends_moveAdjoint (hc : c.Sound B) {place adjoint : Place} (op : AssignOp)
    {value : Expr} (hr : B.Ready st storage) (hp : B.Covered st place.parts)
    (ha : B.Covered st adjoint.parts) (hv : B.Covered st value.parts) :
    B.SweepEnds st storage (fun out st' => B.Covered st' (partsOf out))
      (c.moveAdjoint place adjoint op value) := by
  unfold moveAdjoint
  refine .bind (.numbered _ hr) fun r st₁ storage₁ hr₁ h₁ _ => ?_
  have hreset : ∀ st₂, A.Later st₁ st₂ → B.Covered st₂ (partsOf
      (if (op == .set || op == .mul || op == .div)
        then [Stmt.update adjoint .set .zero] else [])) := by
    intro st₂ h₂
    split
    · simpa [partsOf] using callsWith_update ((h₁.trans h₂).calls ha)
        (by simp [Expr.zero, Expr.parts])
    · exact callsWith_nil
  -- what is accumulated differs with the operator, the rest does not
  have hall : ∀ (reset : List Stmt) (seed e : Expr), B.Covered st₁ e.parts →
      B.Covered st₁ seed.parts → (∀ st₂, A.Later st₁ st₂ → B.Covered st₂ (partsOf reset)) →
      B.SweepEnds st₁ storage₁ (fun out st' => B.Covered st' (partsOf out)) (do
        let accumulated ← c.accumulate seed e
        if accumulated.isEmpty then return reset
        else
          Sweeping.hoist (.let_ r .float none)
          return .set r adjoint.toExpr :: (reset ++ accumulated)) := by
    intro reset seed e he hseed hreset
    refine .bind (ends_accumulate hc e seed st₁ storage₁ hr₁ hseed he)
      fun out st₂ storage₂ hr₂ h₂ hout => ?_
    split
    · exact .pure hr₂ (hreset st₂ h₂)
    · refine .bind (.hoist hr₂ (by simp [Stmt.let_, Stmt.parts, Local.parts]))
        fun _ st₃ _ hr₃ h₃ _ => .pure hr₃ ?_
      simp only [partsOf, partsOf_append, callsWith_append]
      exact ⟨callsWith_update callsWith_nil (callsWith_toExpr (((h₁.trans h₂).trans h₃).calls ha)),
        hreset st₃ (h₂.trans h₃), h₃.calls hout⟩
  have hr' : B.Covered st₁ (Expr.var r).parts := by simp [Expr.parts]
  have hv₁ := h₁.calls hv
  have hb : ∀ op', B.Covered st₁ (Expr.binary op' place.toExpr value).parts := by
    intro op'
    simpa [Expr.parts] using ⟨callsWith_toExpr (h₁.calls hp), hv₁⟩
  cases op with
  | set => exact hall _ _ _ hv₁ hr' hreset
  | add => exact hall _ _ _ hv₁ hr' hreset
  | sub => exact hall _ _ _ hv₁ (callsWith_negate hr') hreset
  | mul => exact hall _ _ _ (hb .mul) hr' hreset
  | div => exact hall _ _ _ (hb .div) hr' hreset

theorem SweepsOnly.later {st st' : Progress} {w : Sweeps}
    (h : SweepsOnly (B.May st) w) (hl : A.Later st st') :
    SweepsOnly (B.May st') w :=
  ⟨hl.calls h.1, hl.calls h.2⟩

theorem callsWith_inverse? {S : String → Option String → Prop} {ty : Ty} {a : Assignment}
    {back : Stmt} (h : CallsWith S a.parts) (hb : inverse? ty a = some back) :
    CallsWith S back.parts := by
  unfold inverse? at hb
  split at hb
  · split at hb <;> simp only [Option.some.injEq, reduceCtorEq] at hb <;>
      exact hb ▸ callsWith_update (callsWith_append.mp h).1 (callsWith_append.mp h).2
  · cases hb

/-- After the value is saved, if it is, the adjoint moves. -/
theorem ends_moved (hc : c.Sound B) {a : Assignment} (ty : Ty) (saved : Option (Stmt × Stmt))
    (hr : B.Ready st storage) (ha : B.Covered st a.parts)
    (hsaved : ∀ w ∈ saved, B.Covered st w.1.parts ∧ B.Covered st w.2.parts) :
    B.SweepEnds st storage (fun w st' => SweepsOnly (B.May st') w) (do
      let storage ← get
      let adjoint := if ty = .float then c.adjointPlace? storage a.place else none
      let errors := match adjoint, c.error with
        | some p, some sink => [sink.term p.toExpr a.place.toExpr]
        | _, _ => []
      let moved ← match adjoint with
        | some p => c.moveAdjoint a.place p a.op a.value
        | none => pure []
      return ⟨(saved.map (·.1)).toList ++ [.assign a],
        errors ++ (saved.map (·.2)).toList ++ c.perLane moved⟩) := by
  refine .get_bind ?_
  dsimp only
  have hsaves : ∀ st', A.Later st st' → B.Covered st' (partsOf (saved.map (·.1)).toList) ∧
      B.Covered st' (partsOf (saved.map (·.2)).toList) := by
    intro st' h'
    cases saved with
    | none => exact ⟨callsWith_nil, callsWith_nil⟩
    | some w => simpa [partsOf] using ⟨h'.calls (hsaved w rfl).1, h'.calls (hsaved w rfl).2⟩
  cases hadj : (if ty = .float then c.adjointPlace? storage a.place else none) with
  | none =>
    refine .pure hr ⟨?_, ?_⟩
    · simpa [partsOf, Stmt.parts] using ⟨(hsaves st (.refl _)).1, ha⟩
    · simpa using ⟨(hsaves st (.refl _)).2, callsWith_perLane callsWith_nil⟩
  | some q =>
    have hq : B.Covered st q.parts := by
      split at hadj
      · exact callsWith_adjointPlace? (callsWith_append.mp ha).1 hadj
      · cases hadj
    refine .bind (ends_moveAdjoint hc a.op hr (callsWith_append.mp ha).1 hq
      (callsWith_append.mp ha).2) fun moved st₁ _ hr₁ h₁ hmoved => .pure hr₁ ⟨?_, ?_⟩
    · simpa [partsOf, Stmt.parts] using ⟨(hsaves st₁ h₁).1, h₁.calls ha⟩
    · simp only [partsOf_append, callsWith_append]
      refine ⟨⟨?_, (hsaves st₁ h₁).2⟩, callsWith_perLane hmoved⟩
      cases c.error with
      | none => exact callsWith_nil
      | some sink =>
        simpa [partsOf] using callsWith_errorTerm (B.abs _) (callsWith_toExpr (h₁.calls hq))
          (callsWith_toExpr (h₁.calls (callsWith_append.mp ha).1))

theorem ends_assignment (hc : c.Sound B) (inLoop : Bool) {a : Assignment} (first : Bool)
    (hr : B.Ready st storage) (ha : B.Covered st a.parts) :
    B.SweepEnds st storage (fun w st' => SweepsOnly (B.May st') w)
      (c.assignment inLoop a first) := by
  unfold assignment
  refine .bind (ends_checkPure a.value hr) fun _ st₁ storage₁ hr₁ h₁ _ => ?_
  have ha₁ := h₁.calls ha
  split
  · exact .fail c _ hr₁
  · rename_i ty _
    split
    · rename_i back hback
      exact .pure hr₁ ⟨by simpa [partsOf, Stmt.parts] using ha₁,
        by simpa [partsOf] using callsWith_inverse? ha₁ hback⟩
    · dsimp only
      split
      · refine .bind (ends_save inLoop ty hr₁ (callsWith_append.mp ha₁).1)
          fun saved st₂ storage₂ hr₂ h₂ hsaved => ?_
        exact ends_moved hc ty (some saved) hr₂ (h₂.calls ha₁) (by simpa using hsaved)
      · exact ends_moved hc ty none hr₁ ha₁ (by simp)

theorem ends_declaration (hc : c.Sound B) (inLoop : Bool) {d : Local} (hr : B.Ready st storage)
    (hd : B.Covered st d.parts) :
    B.SweepEnds st storage (fun w st' => SweepsOnly (B.May st') w) (c.declaration inLoop d) := by
  have hvalue : B.Covered st
      (⟨.var d.name, .set, d.init.getD (zeroLiteral d.ty)⟩ : Assignment).parts := by
    cases hi : d.init with
    | none =>
      cases d.ty <;> simp [zeroLiteral, Assignment.parts, Place.parts, Expr.zero, Expr.parts]
    | some e => simpa [Assignment.parts, Place.parts, Local.parts, hi] using hd
  unfold declaration
  split
  · refine .bind (.hoist hr (by simp [Stmt.let_, Stmt.parts, Local.parts]))
      fun _ st₁ storage₁ hr₁ h₁ _ => ?_
    split
    · refine .bind (.fresh _ hr₁) fun x st₂ storage₂ hr₂ h₂ _ => ?_
      refine .bind (.hoist hr₂ (callsWith_adjointDecl (by simp)))
        fun _ st₃ storage₃ hr₃ h₃ _ => ?_
      refine .bind (.bindAdjoint _ _ hr₃) fun _ st₄ storage₄ hr₄ h₄ _ => ?_
      exact ends_assignment hc inLoop _ hr₄
        ((((h₁.trans h₂).trans h₃).trans h₄).calls hvalue)
    · exact ends_assignment hc inLoop _ hr₁ (h₁.calls hvalue)
  · exact .fail c _ hr

theorem ends_arrayDeclaration (inControl : Bool) (x : String) (elem : Ty) {len : Expr}
    (hr : B.Ready st storage) (hl : B.Covered st len.parts) :
    B.SweepEnds st storage (fun w st' => SweepsOnly (B.May st') w)
      (c.arrayDeclaration inControl x elem len) := by
  unfold arrayDeclaration
  split
  · exact .fail c _ hr
  · split
    · refine .bind (.fresh _ hr) fun d st₁ storage₁ hr₁ h₁ _ => ?_
      refine .bind (.bindAdjoint _ _ hr₁) fun _ st₂ _ hr₂ h₂ _ => .pure hr₂ ⟨?_, callsWith_nil⟩
      have hl₂ := (h₁.trans h₂).calls hl
      simp only [partsOf, callsWith_append, callsWith_nil, and_true]
      exact ⟨hl₂, callsWith_adjointDecl hl₂⟩
    · exact .pure hr ⟨by simpa [partsOf, Stmt.parts] using hl, callsWith_nil⟩

theorem ends_saveArg (at_ : Nesting) (f : String) (p : Param) {arg : Expr} (hr : B.Ready st storage)
    (ha : B.Covered st arg.parts) :
    B.SweepEnds st storage (fun w st' => SweepsOnly (B.May st') w) (c.saveArg at_ f p arg) := by
  unfold saveArg
  split
  · split
    · exact .fail c _ hr
    · rename_i place hplace
      split
      · exact .fail c _ hr
      · refine .bind (ends_save at_.inLoop _ hr (callsWith_place? ha hplace))
          fun saved st₁ _ hr₁ _ hsaved => .pure hr₁ ?_
        simpa [SweepsOnly, partsOf] using hsaved
  · split
    · exact .fail c _ hr
    · split
      · refine .bind (.numbered _ hr) fun copy st₁ storage₁ hr₁ _ _ => ?_
        refine .bind (.numbered _ hr₁) fun i st₂ storage₂ hr₂ _ _ => ?_
        refine .bind (.numbered _ hr₂) fun j st₃ _ hr₃ _ _ => .pure hr₃ ?_
        have hlen : B.May st₃ "len" none := B.len st₃
        simp only [SweepsOnly, partsOf, callsWith_append, callsWith_nil, and_true]
        exact ⟨⟨callsWith_lenOf hlen _, callsWith_copyLoop hlen _ _ _⟩,
          callsWith_copyLoop hlen _ _ _⟩
      · exact .fail c _ hr
  · exact .pure hr ⟨callsWith_nil, callsWith_nil⟩

theorem ends_saveArgs (at_ : Nesting) (f : String) (written : List Nat) (ps : List Param) :
    ∀ (es : List Expr) (i : Nat) (st : Progress) (storage : Storage), B.Ready st storage →
      B.Covered st (Expr.partsList es) → B.SweepEnds st storage
        (fun w st' => SweepsOnly (B.May st') w) (c.saveArgs at_ f written i ps es) := by
  induction ps with
  | nil => exact fun es i st storage hr _ => .pure hr ⟨callsWith_nil, callsWith_nil⟩
  | cons p ps ih =>
    intro es i st storage hr he
    cases es with
    | nil => exact .pure hr ⟨callsWith_nil, callsWith_nil⟩
    | cons e es =>
      simp only [Expr.partsList, callsWith_append] at he
      unfold saveArgs
      have hrest : ∀ (own : Sweeps) (st₁ : Progress) (storage₁ : Storage),
          B.Ready st₁ storage₁ → A.Later st st₁ →
          SweepsOnly (B.May st₁) own →
          B.SweepEnds st₁ storage₁
            (fun w st' => SweepsOnly (B.May st') w) (do
              let rest ← c.saveArgs at_ f written (i + 1) ps es
              return ⟨own.primal ++ rest.primal, own.adjoint ++ rest.adjoint⟩) := by
        intro own st₁ storage₁ hr₁ h₁ hown
        refine .bind (ih es (i + 1) st₁ storage₁ hr₁ (h₁.calls he.2))
          fun rest st₂ _ hr₂ h₂ hrest => .pure hr₂ ?_
        have hown₂ := hown.later h₂
        exact ⟨by simpa using ⟨hown₂.1, hrest.1⟩, by simpa using ⟨hown₂.2, hrest.2⟩⟩
      dsimp only
      split
      · exact .bind (ends_saveArg at_ f p hr he.1) fun own st₁ storage₁ hr₁ h₁ hown =>
          hrest own st₁ storage₁ hr₁ h₁ hown
      · exact hrest ⟨[], []⟩ st storage hr (.refl _) ⟨callsWith_nil, callsWith_nil⟩

theorem ends_effectPullback (hc : c.Sound B) {callee : Func} {args : List Expr}
    (hr : B.Ready st storage) (hcal : A.Source st callee)
    (ha : B.Covered st (Expr.partsList args)) :
    B.SweepEnds st storage (fun out st' => B.Covered st' (partsOf out))
      (c.effectPullback callee args) := by
  unfold effectPullback
  refine .bind (.lift hr (hc.plan.at hc.function .pullback hr.good hcal))
    fun made st₁ storage₁ hr₁ h₁ hmade => ?_
  have hcall : ∀ (d : String) (derived : Bool), (∀ g, B.May st₁ d g) →
      B.SweepEnds st₁ storage₁
        (fun out st' => B.Covered st' (partsOf out)) (do
          let pieces ← c.adjointArgs callee callee.params args
          return c.perLane (c.pullbackCall callee d args .zero derived pieces)) := by
    intro d derived hd
    refine .bind (ends_adjointArgs hc callee callee.params args st₁ storage₁ hr₁ (h₁.calls ha))
      fun pieces st₂ _ hr₂ h₂ hpieces => .pure hr₂ ?_
    exact callsWith_perLane (callsWith_pullbackCall (fun g => B.later h₂ (hd g))
      ((h₁.trans h₂).calls ha) (by simp [Expr.zero, Expr.parts]) hpieces)
  split
  · rename_i d
    exact hcall d false (hmade)
  · rename_i d
    exact hcall d true (hmade)
  · exact .pure hr₁ callsWith_nil
  · exact .pure hr₁ callsWith_nil

theorem ends_callStmt (hc : c.Sound B) (at_ : Nesting) (f : String) {args : List Expr}
    (hr : B.Ready st storage) (ha : B.Covered st (Expr.call f args).parts) :
    B.SweepEnds st storage (fun w st' => SweepsOnly (B.May st') w) (c.callStmt at_ f args) := by
  have hargs : B.Covered st (Expr.partsList args) := by
    simp only [Expr.parts, callsWith_cons] at ha
    exact ha.2
  unfold callStmt
  split
  · exact .fail c _ hr
  · exact .fail c _ hr
  · exact .pure hr ⟨by simpa [partsOf, Stmt.parts] using ha, callsWith_nil⟩
  · refine .bind (.lift hr (Account.ends_calleeOf hr.good c.function c.env f args))
      fun callee st₁ storage₁ hr₁ h₁ hcal => ?_
    refine sweepEnds_host_bind ?_
    refine .bind (ends_saveArgs at_ f _ callee.params args 0 st₁ storage₁ hr₁ (h₁.calls hargs))
      fun saved st₂ storage₂ hr₂ h₂ hsaved => ?_
    have h₁₂ := h₁.trans h₂
    refine sweepEnds_host_bind ?_
    have hend : ∀ (pulled : List Stmt) (st₃ : Progress) (storage₃ : Storage),
        B.Ready st₃ storage₃ → A.Later st₂ st₃ →
        B.Covered st₃ (partsOf pulled) →
        B.SweepEnds st₃ storage₃
          (fun w st' => SweepsOnly (B.May st') w)
          (pure ⟨saved.primal ++ [.expr (.call f args)], saved.adjoint ++ pulled⟩) := by
      intro pulled st₃ storage₃ hr₃ h₃ hpulled
      have hsaved₃ := hsaved.later h₃
      refine .pure hr₃ ⟨?_, ?_⟩
      · simp only [partsOf_append, callsWith_append]
        exact ⟨hsaved₃.1, by simpa [partsOf, Stmt.parts] using (h₁₂.trans h₃).calls ha⟩
      · simpa using ⟨hsaved₃.2, hpulled⟩
    split
    · exact .bind (ends_effectPullback hc hr₂ (A.source_later h₂ hcal) (h₁₂.calls hargs))
        fun pulled st₃ storage₃ hr₃ h₃ hpulled => hend pulled st₃ storage₃ hr₃ h₃ hpulled
    · exact hend [] st₂ storage₂ hr₂ (.refl _) callsWith_nil

theorem ends_branch (inLoop : Bool) {test : Expr} {yes no : Sweeps} (hr : B.Ready st storage)
    (ht : B.Covered st test.parts) (hyes : SweepsOnly (B.May st) yes)
    (hno : SweepsOnly (B.May st) no) :
    B.SweepEnds st storage (fun w st' => SweepsOnly (B.May st') w) (branch inLoop test yes no) := by
  have hcond : ∀ (st' : Progress) (e : Expr), A.Later st st' →
      B.Covered st' e.parts →
      B.Covered st' (partsOf [.cond e yes.primal no.primal]) ∧
      B.Covered st' (partsOf [.cond e yes.adjoint no.adjoint]) := by
    intro st' e h' he
    simp [partsOf, Stmt.parts, he, h'.calls hyes.1, h'.calls hyes.2, h'.calls hno.1, h'.calls hno.2]
  unfold branch
  split
  · exact .pure hr ⟨(hcond st test (.refl _) ht).1, callsWith_nil⟩
  · split
    · refine .bind (.hoistNew _ _ hr) fun tape st₁ _ hr₁ h₁ _ => .pure hr₁ ⟨?_, ?_⟩
      · refine (hcond st₁ _ h₁ ?_).1
        simpa [pushTo, Expr.parts, Expr.partsList] using
          ⟨B.intrinsic (by decide) (by decide) _ _, h₁.calls ht⟩
      · refine (hcond st₁ _ h₁ ?_).2
        simpa [popFrom, Expr.parts, Expr.partsList] using B.intrinsic (by decide) (by decide) _ _
    · refine .bind (.hoistNew _ _ hr) fun slot st₁ _ hr₁ h₁ _ => .pure hr₁ ⟨?_, ?_⟩
      · exact callsWith_append.mpr ⟨callsWith_update callsWith_nil (h₁.calls ht),
          (hcond st₁ _ h₁ (by simp [Expr.parts])).1⟩
      · exact (hcond st₁ _ h₁ (by simp [Expr.parts])).2

theorem ends_loop (inLoop : Bool) {init step body : Sweeps} {test : Option Expr}
    (hr : B.Ready st storage) (ht : B.Covered st ((test.map Expr.parts).getD []))
    (hinit : SweepsOnly (B.May st) init) (hstep : SweepsOnly (B.May st) step)
    (hbody : SweepsOnly (B.May st) body) :
    B.SweepEnds st storage (fun w st' => SweepsOnly (B.May st') w)
      (loop inLoop init test step body) := by
  have htest : B.Covered st (test.getD (.bool true)).parts := by
    cases test with
    | none => simp [Expr.parts]
    | some e => exact ht
  -- the loop of the primal sweep and its replay, both with any counter
  have hloops : ∀ (st' : Progress) (counter : String), A.Later st st' →
      B.Covered st' (partsOf (init.primal ++ [.set counter (.int 0),
        .while_ (test.getD (.bool true)) (.update (.var counter) .add (.int 1)
          :: (body.primal ++ step.primal))])) ∧
      B.Covered st' (Stmt.for_ none
        (some (.greater (.var counter) (.int 0))) (some ⟨.var counter, .sub, .int 1⟩)
        (step.adjoint ++ body.adjoint)).parts := by
    intro st' counter h'
    constructor
    · simp [partsOf, Stmt.set, Stmt.update, Stmt.parts, Assignment.parts, Place.parts, Expr.parts,
        h'.calls hinit.1, h'.calls htest, h'.calls hbody.1, h'.calls hstep.1]
    · simp [Stmt.parts, Assignment.parts, Place.parts, Expr.greater, Expr.parts,
        h'.calls hstep.2, h'.calls hbody.2]
  unfold loop
  dsimp only
  split
  · refine .pure hr ⟨?_, hinit.2⟩
    simp [partsOf, Stmt.parts, hinit.1, htest, hbody.1, hstep.1]
  · refine .bind (.hoistNew _ _ hr) fun counter st₁ storage₁ hr₁ h₁ _ => ?_
    split
    · refine .bind (.hoistNew _ _ hr₁) fun trips st₂ _ hr₂ h₂ _ => .pure hr₂ ?_
      obtain ⟨hprimal, hreplay⟩ := hloops st₂ counter (h₁.trans h₂)
      constructor
      · refine partsOf_append _ _ ▸ callsWith_append.mpr ⟨hprimal, ?_⟩
        simpa [partsOf, Stmt.parts, pushTo, Expr.parts, Expr.partsList] using
          B.intrinsic (by decide) (by decide) _ _
      · have hpop : B.Covered st₂
            (Stmt.set counter (popFrom trips)).parts := by
          simpa [Stmt.set, Stmt.parts, Assignment.parts, Place.parts, popFrom, Expr.parts,
            Expr.partsList] using B.intrinsic (by decide) (by decide) _ _
        simpa [partsOf] using ⟨hpop, hreplay, (h₁.trans h₂).calls hinit.2⟩
    · obtain ⟨hprimal, hreplay⟩ := hloops st₁ counter h₁
      exact .pure hr₁ ⟨hprimal, callsWith_append.mpr ⟨hreplay, h₁.calls hinit.2⟩⟩

theorem ends_returned (hc : c.Sound B) {value : Option Expr} (hr : B.Ready st storage)
    (hv : B.Covered st ((value.map Expr.parts).getD [])) :
    B.SweepEnds st storage (fun w st' => SweepsOnly (B.May st') w) (c.returned value) := by
  unfold returned
  split
  · rename_i value seed hseed
    refine .bind (ends_checkPure value hr) fun _ st₁ storage₁ hr₁ h₁ _ => ?_
    refine sweepEnds_host_bind ?_
    have hseed' := hc.seed seed hseed
    split
    · dsimp only
      refine .bind (ends_accumulate hc value seed st₁ storage₁ hr₁ (hseed' _) (h₁.calls hv))
        fun out st₂ _ hr₂ h₂ hout => .pure hr₂ ⟨callsWith_nil, ?_⟩
      refine partsOf_append _ _ ▸ callsWith_append.mpr ⟨?_, hout⟩
      split
      · split
        · simpa [partsOf] using callsWith_errorTerm (B.abs _) (hseed' _)
            ((h₁.trans h₂).calls hv)
        · exact callsWith_nil
      · exact callsWith_nil
    · exact .pure hr₁ ⟨callsWith_nil, callsWith_nil⟩
  · exact .pure hr ⟨callsWith_nil, callsWith_nil⟩

theorem ends_loopInit (hc : c.Sound B) (inLoop : Bool) {init : Option LoopInit}
    (hr : B.Ready st storage) (hi : B.Covered st ((init.map LoopInit.parts).getD [])) :
    B.SweepEnds st storage (fun w st' => SweepsOnly (B.May st') w) (c.loopInit inLoop init) := by
  unfold loopInit
  split
  · exact .pure hr ⟨callsWith_nil, callsWith_nil⟩
  · exact ends_declaration hc inLoop hr hi
  · exact ends_assignment hc inLoop false hr hi

theorem ends_loopStep (hc : c.Sound B) {step : Option Assignment} (hr : B.Ready st storage)
    (hs : B.Covered st ((step.map Assignment.parts).getD [])) :
    B.SweepEnds st storage (fun w st' => SweepsOnly (B.May st') w) (c.loopStep step) := by
  unfold loopStep
  split
  · exact .pure hr ⟨callsWith_nil, callsWith_nil⟩
  · exact ends_assignment hc true false hr hs

theorem ends_checkTest (test : Option Expr) (hr : B.Ready st storage) :
    B.SweepEnds st storage (fun _ _ => True) (c.checkTest test) := by
  unfold checkTest
  split
  · exact .pure hr trivial
  · exact ends_checkPure _ hr

mutual

theorem ends_stmt (hc : c.Sound B) :
    ∀ (stmt : Stmt) (at_ : Nesting) (st : Progress) (storage : Storage),
      B.Ready st storage →
      B.Covered st stmt.parts →
      B.SweepEnds st storage
        (fun w st' => SweepsOnly (B.May st') w) (c.stmt at_ stmt)
  | .decl d, at_, st, storage, hr, h => ends_declaration hc at_.inLoop hr h
  | .arrayDecl x elem len, at_, st, storage, hr, h =>
    ends_arrayDeclaration at_.inControl x elem hr h
  | .assign a, at_, st, storage, hr, h => ends_assignment hc at_.inLoop false hr h
  | .cond test yes no, at_, st, storage, hr, h => by
    simp only [Stmt.parts, callsWith_append] at h
    simp only [Sweep.stmt]
    refine .bind (ends_checkPure test hr) fun _ st₁ storage₁ hr₁ h₁ _ => ?_
    refine .bind (ends_body hc yes _ st₁ storage₁ hr₁ (h₁.calls h.2.1))
      fun yes' st₂ storage₂ hr₂ h₂ hyes => ?_
    have h₁₂ := h₁.trans h₂
    refine .bind (ends_body hc no _ st₂ storage₂ hr₂ (h₁₂.calls h.2.2))
      fun no' st₃ storage₃ hr₃ h₃ hno => ?_
    exact ends_branch at_.inLoop hr₃ ((h₁₂.trans h₃).calls h.1) (hyes.later h₃) hno
  | .for_ init test step body, at_, st, storage, hr, h => by
    simp only [Stmt.parts, callsWith_append] at h
    obtain ⟨⟨⟨hinit, htest⟩, hstep⟩, hbody⟩ := h
    simp only [Sweep.stmt]
    refine .bind (ends_checkTest test hr) fun _ st₁ storage₁ hr₁ h₁ _ => ?_
    refine .bind (ends_loopInit hc at_.inLoop hr₁ (h₁.calls hinit))
      fun init' st₂ storage₂ hr₂ h₂ hinit' => ?_
    have h₁₂ := h₁.trans h₂
    refine .bind (ends_loopStep hc hr₂ (h₁₂.calls hstep))
      fun step' st₃ storage₃ hr₃ h₃ hstep' => ?_
    have h₁₃ := h₁₂.trans h₃
    refine .bind (ends_body hc body _ st₃ storage₃ hr₃ (h₁₃.calls hbody))
      fun body' st₄ storage₄ hr₄ h₄ hbody' => ?_
    exact ends_loop at_.inLoop hr₄ ((h₁₃.trans h₄).calls htest) (hinit'.later (h₃.trans h₄))
      (hstep'.later h₄) hbody'
  | .while_ test body, at_, st, storage, hr, h => by
    simp only [Stmt.parts, callsWith_append] at h
    simp only [Sweep.stmt]
    refine .bind (ends_checkPure test hr) fun _ st₁ storage₁ hr₁ h₁ _ => ?_
    refine .bind (ends_body hc body _ st₁ storage₁ hr₁ (h₁.calls h.2))
      fun body' st₂ storage₂ hr₂ h₂ hbody => ?_
    exact ends_loop at_.inLoop hr₂ ((h₁.trans h₂).calls h.1) ⟨callsWith_nil, callsWith_nil⟩
      ⟨callsWith_nil, callsWith_nil⟩ hbody
  | .ret value, at_, st, storage, hr, h => ends_returned hc hr h
  | .expr e, at_, st, storage, hr, h => by
    cases e with
    | call f args => exact ends_callStmt hc at_ f hr h
    | _ =>
      simp only [Sweep.stmt]
      refine .bind (ends_checkPure _ hr) fun _ st₁ _ hr₁ h₁ _ => .pure hr₁ ⟨?_, callsWith_nil⟩
      simpa [partsOf, Stmt.parts] using h₁.calls h
  | .block body, at_, st, storage, hr, h => by
    simp only [Sweep.stmt]
    exact ends_body hc body at_ st storage hr h

theorem ends_body (hc : c.Sound B) :
    ∀ (body : List Stmt) (at_ : Nesting) (st : Progress) (storage : Storage),
      B.Ready st storage →
      B.Covered st (partsOf body) →
      B.SweepEnds st storage
        (fun w st' => SweepsOnly (B.May st') w) (c.body at_ body)
  | [], _, _, _, hr, _ => by
    simp only [Sweep.body]
    exact .pure hr ⟨callsWith_nil, callsWith_nil⟩
  | stmt :: rest, at_, st, storage, hr, h => by
    simp only [partsOf, callsWith_append] at h
    simp only [Sweep.body]
    refine .bind (ends_stmt hc stmt at_ st storage hr h.1)
      fun first st₁ storage₁ hr₁ h₁ hfirst => ?_
    refine .bind (ends_body hc rest at_ st₁ storage₁ hr₁ (h₁.calls h.2))
      fun others st₂ _ hr₂ h₂ hothers => .pure hr₂ ?_
    have hfirst₂ := hfirst.later h₂
    exact ⟨by simpa using ⟨hfirst₂.1, hothers.1⟩, by simpa using ⟨hothers.2, hfirst₂.2⟩⟩

end

end

end Sweep

end Fluxion.Derive
