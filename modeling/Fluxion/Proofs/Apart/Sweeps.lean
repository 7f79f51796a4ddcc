import Fluxion.Proofs.Apart.Tangents

/-!
Reverse mode keeps what a function declares, in the sweeps or before them, and adds storage with
new names.
-/

namespace Fluxion.Derive

/-! ### Steps of a sweep -/

section

variable {α β : Type} {lane : Option String} {σ : Storage} {own own' : Vars} {code : α → Vars}
  {total : α → Storage → Vars} {total' : β → Storage → Vars}

/-- What came about in some steps of a sweep: what was hoisted before, `own`, and variables with
new names. -/
def Accounts (lane : Option String) (σ : Storage) (own : Vars) (total : α → Storage → Vars)
    (r : α × Storage) : Prop :=
  ∃ new, Supplied lane σ.names r.2.names new ∧ total r.1 r.2 = varsOf σ.hoisted + own + new

/-- Steps of a sweep add to what is hoisted no more and no less than `own` and variables with new
names. -/
def Adds (lane : Option String) (σ : Storage) (own : Vars) (m : Sweeping α)
    (total : α → Storage → Vars) : Prop :=
  Returns (m σ) (Accounts lane σ own total)

/-- What steps of a sweep hoist and what the code that they give declares. -/
abbrev Declares (lane : Option String) (σ : Storage) (own : Vars) (m : Sweeping α)
    (code : α → Vars) : Prop :=
  Adds lane σ own m fun a σ' => varsOf σ'.hoisted + code a

theorem Accounts.trans {r : α × Storage} {r' : β × Storage}
    (h : Accounts lane σ own (fun a σ' => varsOf σ'.hoisted + code a) r)
    (h' : Accounts lane r.2 (own' + code r.1) total' r') :
    Accounts lane σ (own' + own) total' r' := by
  obtain ⟨new, hnew, hvars⟩ := h
  obtain ⟨new', hnew', hvars'⟩ := h'
  dsimp only at hvars
  refine ⟨new + new', hnew.trans hnew', ?_⟩
  calc total' r'.1 r'.2 = varsOf r.2.hoisted + (own' + code r.1) + new' := hvars'
    _ = own' + (varsOf r.2.hoisted + code r.1) + new' := by abel
    _ = own' + (varsOf σ.hoisted + own + new) + new' := by rw [hvars]
    _ = varsOf σ.hoisted + (own' + own) + (new + new') := by abel

namespace Adds

theorem pureWith {a : α} {extra : Vars} (hextra : Supplied lane σ.names σ.names extra)
    (h : code a = own + extra) : Declares lane σ own (pure a) code := by
  refine Returns.pure ⟨extra, hextra, ?_⟩
  dsimp only
  rw [h, add_assoc]

theorem pure {a : α} (h : code a = own) : Declares lane σ own (pure a) code :=
  pureWith (.refl _) (by simpa using h)

theorem of_eq {m : Sweeping α} (h : Adds lane σ own m total) (heq : own = own') :
    Adds lane σ own' m total := heq ▸ h

theorem bind {m : Sweeping α} {f : α → Sweeping β} (hm : Declares lane σ own m code)
    (hf : ∀ a σ', Adds lane σ' (own' + code a) (f a) total') :
    Adds lane σ (own' + own) (m >>= f) total' :=
  Returns.bind hm fun r h st r' st' hrun => h.trans (hf r.1 r.2 st r' st' hrun)

/-- A step that takes nothing over. -/
theorem step {m : Sweeping α} {f : α → Sweeping β} (hm : Declares lane σ 0 m code)
    (hf : ∀ a σ', Adds lane σ' (own + code a) (f a) total') : Adds lane σ own (m >>= f) total' := by
  simpa using hm.bind hf

/-- A step that declares nothing. -/
theorem after {m : Sweeping α} {f : α → Sweeping β} (hm : Declares lane σ 0 m fun _ => 0)
    (hf : ∀ a σ', Adds lane σ' own (f a) total') : Adds lane σ own (m >>= f) total' :=
  hm.step fun a σ' => by simpa using hf a σ'

/-- A name that is used only in some cases. -/
theorem numberedOr {stem : String} (ty : Ty) {f : String → Sweeping β}
    (hf : ∀ x σ', Returns (f x σ') fun r =>
      Accounts lane σ' own total' r ∨ Accounts lane σ' (own + {(x, ty)}) total' r) :
    Adds lane σ own (Sweeping.numbered stem >>= f) total' := by
  intro st r st' hrun
  have hdrawn : Drawn σ.names (σ.names.numbered stem).2 {(σ.names.numbered stem).1} :=
    .numbered stem
  have hend := hf (σ.names.numbered stem).1 { σ with names := (σ.names.numbered stem).2 }
    st r st' hrun
  rcases hend with ⟨new, hnew, hvars⟩ | ⟨new, hnew, hvars⟩
  · exact ⟨0 + new, (Supplied.unused hdrawn).trans hnew, by simpa using hvars⟩
  · refine ⟨_, (Supplied.single hdrawn ty).trans hnew, hvars.trans ?_⟩
    dsimp only
    abel

theorem get_bind {f : Storage → Sweeping β} (h : Adds lane σ own (f σ) total') :
    Adds lane σ own (get >>= f) total' := h

theorem fail (c : Sweep) (o : Obstacle) : Adds lane σ own (c.fail o : Sweeping α) total := by
  intro st r st' hrun
  cases hrun

end Adds

namespace Declares

theorem lift (m : Derivation α) : Declares lane σ 0 (liftM m : Sweeping α) fun _ => 0 :=
  Returns.after fun _ => Returns.pure ⟨0, .refl _, by simp⟩

theorem fresh (base : String) (ty : Ty) :
    Declares lane σ 0 (Sweeping.fresh base) fun x => {(x, ty)} :=
  Returns.pure ⟨_, .fresh base ty, by simp⟩

theorem numbered (stem : String) (ty : Ty) :
    Declares lane σ 0 (Sweeping.numbered stem) fun x => {(x, ty)} :=
  Returns.pure ⟨_, .numbered stem ty, by simp⟩

/-- A name for so many counters. -/
theorem counters (stem : String) (n : Nat) :
    Declares lane σ 0 (Sweeping.numbered stem) fun i => Multiset.replicate n (i, .int) :=
  Returns.pure ⟨_, .counters stem n, by simp⟩

theorem bindAdjoint (x d : String) : Declares lane σ 0 (Sweeping.bind x d) fun _ => 0 :=
  Returns.pure ⟨0, .refl _, by simp⟩

theorem hoist (stmt : Stmt) : Declares lane σ stmt.vars (Sweeping.hoist stmt) fun _ => 0 :=
  Returns.pure ⟨0, .refl _, by simp⟩

theorem hoistNew (stem : String) (ty : Ty) :
    Declares lane σ 0 (Sweeping.hoistNew stem ty) fun _ => 0 := by
  refine (numbered stem ty).step fun x σ₁ => ?_
  exact (hoist (.let_ x ty none)).bind fun _ σ₂ => .pure (by simp)

end Declares

end

/-! ### Pieces of code -/

/-- What both sweeps declare. -/
def Sweeps.vars (w : Sweeps) : Vars := varsOf w.primal + varsOf w.adjoint

@[simp] theorem Sweeps.vars_mk (primal adjoint : List Stmt) :
    (Sweeps.mk primal adjoint).vars = varsOf primal + varsOf adjoint := rfl

namespace Sweep

/-- The counter of the lanes, if there are any. -/
def lane? (c : Sweep) : Option String := c.lanes.map (·.index)

variable {c : Sweep} {σ : Storage}

/-- What goes around the call of a pullback for one argument declares. -/
def PullbackArg.vars (a : PullbackArg) : Vars := varsOf a.before + varsOf a.after

@[simp] theorem PullbackArg.vars_mk (before : List Stmt) (adjoint : Expr) (after : List Stmt) :
    (PullbackArg.mk before adjoint after).vars = varsOf before + varsOf after := rfl

theorem vars_pullbackCall (callee : Func) (d : String) (args : List Expr) (seed : Expr)
    (derived : Bool) (pieces : List PullbackArg) :
    varsOf (c.pullbackCall callee d args seed derived pieces) =
      (pieces.map PullbackArg.vars).sum := by
  have hpieces : varsOf (pieces.map (·.before)).flatten + varsOf (pieces.map (·.after)).flatten =
      (pieces.map PullbackArg.vars).sum := by
    induction pieces with
    | nil => rfl
    | cons a rest ih =>
      simp only [List.map_cons, List.flatten_cons, varsOf_append, List.sum_cons, ← ih,
        PullbackArg.vars]
      abel
  simp [pullbackCall, hpieces]

theorem vars_adjointDecl (lanes : Option Lanes) (len : Option Expr) :
    ∃ ty, ∀ d, (adjointDecl lanes d len).vars = {(d, ty)} := by
  cases len with
  | none =>
    cases lanes with
    | none => exact ⟨.float, fun _ => rfl⟩
    | some l => exact ⟨.arrayOf .float, fun _ => rfl⟩
  | some n => cases lanes <;> exact ⟨.arrayOf .float, fun _ => rfl⟩

/-- A new adjoint of a variable, which may be declared. -/
theorem declares_adjoint {lane : Option String} (base : String) (lanes : Option Lanes)
    (len : Option Expr) :
    Declares lane σ 0 (Sweeping.fresh base) fun d => (adjointDecl lanes d len).vars := by
  obtain ⟨ty, hty⟩ := vars_adjointDecl lanes len
  simpa only [hty] using Declares.fresh base ty

theorem vars_term (e : ErrorSink) (adjoint value : Expr) : (e.term adjoint value).vars = 0 := rfl

/-- Code that runs for each lane declares the counter of the lanes beside its own variables. -/
theorem supplied_perLane (names : NameSupply) (group : List Stmt) :
    ∃ extra, Supplied c.lane? names names extra ∧
      varsOf (c.perLane group) = varsOf group + extra := by
  unfold perLane
  cases hl : c.lanes with
  | none => exact ⟨0, .refl _, by simp⟩
  | some l =>
    cases group with
    | nil => exact ⟨0, .refl _, rfl⟩
    | cons stmt rest =>
      exact ⟨{(l.index, .int)}, .ofLane (by simp [lane?, hl]) names, by simp [add_comm]⟩

/-! ### Expressions -/

theorem declares_arrayArg (callee : Func) (arg : Expr) :
    Declares c.lane? σ 0 (c.arrayArg callee arg) PullbackArg.vars := by
  unfold arrayArg
  refine .get_bind ?_
  dsimp only
  split
  · exact .fail c _
  · split
    · exact .pure (by simp)
    · refine (Declares.numbered "_r" (.arrayOf .float)).step fun scratch σ₁ => ?_
      -- The copy to the lane and the copy back have one counter.
      refine (Declares.counters "_i" 2).step fun i σ₂ => .pure ?_
      simp only [PullbackArg.vars_mk, varsOf_cons, varsOf_nil, Stmt.vars_arrayDecl,
        vars_countedLoop, Stmt.vars_update, Multiset.replicate_succ, Multiset.replicate_zero,
        ← Multiset.singleton_add]
      abel

theorem declares_refArg (callee : Func) (arg : Expr) :
    Declares c.lane? σ 0 (c.refArg callee arg) PullbackArg.vars := by
  unfold refArg
  refine .get_bind ?_
  split
  · exact .pure (by simp)
  · exact .fail c _

mutual

theorem declares_accumulate : ∀ (e seed : Expr) (σ : Storage),
    Declares c.lane? σ 0 (c.accumulate seed e) varsOf
  | e, seed, σ => by
    rw [accumulate.eq_def]
    split
    · exact .pure (by simp)
    · cases e with
      | float v | int v | bool v | funcRef f => exact .pure (by simp)
      | var x =>
        refine .get_bind (.pure ?_)
        cases c.adjointPlace? σ (.var x) <;> simp
      | index x i =>
        refine .get_bind (.pure ?_)
        cases c.adjointPlace? σ (.index x i) <;> simp
      | unary op inner =>
        cases op with
        | neg => exact declares_accumulate inner seed.negate σ
        | not => exact .pure (by simp)
      | binary op l r =>
        dsimp only
        split
        · rename_i toL toR _
          refine (declares_accumulate l toL σ).step fun ls σ₁ => ?_
          exact (declares_accumulate r toR σ₁).step fun rs σ₂ => .pure (by simp)
        · exact .pure (by simp)
      | call f args =>
        dsimp only
        split
        · exact .pure (by simp)
        · exact .fail c _
        · refine (Declares.lift _).after fun callee σ₁ => ?_
          refine (Declares.lift _).after fun made σ₂ => ?_
          split
          · exact .pure (by simp)
          · exact (declares_adjointArgs callee callee.params args σ₂).step
              fun pieces σ₃ => .pure (by simp [vars_pullbackCall])
          · exact (declares_adjointArgs callee callee.params args σ₂).step
              fun pieces σ₃ => .pure (by simp [vars_pullbackCall])
          · exact declares_accumulateNumerical callee args seed 0 callee.params args σ₂
termination_by e => (sizeOf e, 0)

theorem declares_adjointArgs (callee : Func) :
    ∀ (ps : List Param) (es : List Expr) (σ : Storage),
      Declares c.lane? σ 0 (c.adjointArgs callee ps es)
        fun pieces => (pieces.map PullbackArg.vars).sum
  | [], _, _ | _ :: _, [], _ => by
    simp only [adjointArgs]
    exact .pure (by simp)
  | p :: ps, e :: es, σ => by
    -- Whatever the first piece is made from, the others follow.
    have hrest : ∀ (m : Sweeping PullbackArg) (own : Vars) (σ : Storage),
        Declares c.lane? σ own m PullbackArg.vars →
        Declares c.lane? σ own (do
            let piece ← m
            return piece :: (← c.adjointArgs callee ps es))
          fun pieces => (pieces.map PullbackArg.vars).sum := by
      intro m own σ hm
      rw [← zero_add own]
      refine hm.bind fun piece σ₁ => ?_
      exact (declares_adjointArgs callee ps es σ₁).step fun pieces σ₂ => .pure (by simp)
    rw [adjointArgs]
    split
    · exact declares_adjointArgs callee ps es σ
    · split
      · exact hrest _ 0 σ (declares_arrayArg callee e)
      · exact hrest _ 0 σ (declares_refArg callee e)
      · refine .get_bind ?_
        split
        · rename_i place _
          exact hrest (pure ⟨[], place.toExpr, []⟩) 0 σ (.pure (by simp))
        · refine (Declares.hoistNew "_r" .float).after fun temp σ₁ => ?_
          refine (declares_accumulate e (.var temp) σ₁).step fun after σ₂ => ?_
          exact hrest (pure ⟨[.set temp .zero], .var temp, after⟩) _ σ₂ (.pure (by simp))
termination_by _ es => (sizeOf es, 1)

theorem declares_accumulateNumerical (callee : Func) (args : List Expr) :
    ∀ (seed : Expr) (k : Nat) (ps : List Param) (es : List Expr) (σ : Storage),
      Declares c.lane? σ 0 (c.accumulateNumerical callee args seed k ps es) varsOf
  | _, _, [], _, _ | _, _, _ :: _, [], _ => by
    simp only [accumulateNumerical]
    exact .pure (by simp)
  | seed, k, p :: ps, e :: es, σ => by
    rw [accumulateNumerical]
    split
    · refine (declares_accumulate e _ σ).step fun own σ₁ => ?_
      exact (declares_accumulateNumerical callee args seed (k + 1) ps es σ₁).step
        fun rest σ₂ => .pure (by simp)
    · exact declares_accumulateNumerical callee args seed (k + 1) ps es σ
termination_by _ _ _ es => (sizeOf es, 1)

end

theorem declares_checkPure (e : Expr) : Declares c.lane? σ 0 (c.checkPure e) fun _ => 0 := by
  unfold checkPure
  refine (Declares.lift _).after fun host σ₁ => ?_
  split
  · exact .fail c _
  · exact .pure rfl

/-! ### Statements -/

theorem declares_save (inLoop : Bool) (place : Place) (ty : Ty) :
    Declares c.lane? σ 0 (save inLoop place ty) fun w => w.1.vars + w.2.vars := by
  unfold save
  split
  · exact (Declares.hoistNew "_t" (.tape ty)).after fun tape σ₁ => .pure (by simp)
  · exact (Declares.hoistNew "_t" ty).after fun slot σ₁ => .pure (by simp)

theorem declares_moveAdjoint (place adjoint : Place) (op : AssignOp) (value : Expr) :
    Declares c.lane? σ 0 (c.moveAdjoint place adjoint op value) varsOf := by
  unfold moveAdjoint
  refine .numberedOr .float fun r σ₁ => ?_
  have hreset : varsOf (if (op == .set || op == .mul || op == .div)
      then [Stmt.update adjoint .set .zero] else []) = 0 := by
    split <;> simp
  -- What is accumulated differs with the operator, the rest does not.
  have hall : ∀ (reset : List Stmt) (seed e : Expr), varsOf reset = 0 →
      Returns ((do
        let accumulated ← c.accumulate seed e
        if accumulated.isEmpty then return reset
        else
          Sweeping.hoist (.let_ r .float none)
          return .set r adjoint.toExpr :: (reset ++ accumulated) : Sweeping (List Stmt)) σ₁)
        fun w => Accounts c.lane? σ₁ 0 (fun out σ' => varsOf σ'.hoisted + varsOf out) w ∨
          Accounts c.lane? σ₁ (0 + {(r, .float)})
            (fun out σ' => varsOf σ'.hoisted + varsOf out) w := by
    intro reset seed e hreset
    refine Returns.bind (declares_accumulate e seed σ₁) fun ⟨out, σ₂⟩ hout => ?_
    dsimp only
    split
    · rename_i hempty
      have hend : Declares c.lane? σ₂ (0 + varsOf out) (pure reset) varsOf :=
        .pure (by simp [hreset, List.isEmpty_iff.mp hempty])
      exact fun st w st' hrun => .inl (hout.trans (hend st w st' hrun))
    · have hend : Declares c.lane? σ₂ ({(r, .float)} + varsOf out) (do
          Sweeping.hoist (.let_ r .float none)
          return .set r adjoint.toExpr :: (reset ++ out)) varsOf := by
        rw [add_comm]
        exact (Declares.hoist (.let_ r .float none)).bind fun _ σ₃ => .pure (by simp [hreset])
      refine fun st w st' hrun => .inr ?_
      rw [add_comm]
      exact hout.trans (hend st w st' hrun)
  cases op with
  | set => exact hall _ _ _ hreset
  | add => exact hall _ _ _ hreset
  | sub => exact hall _ _ _ hreset
  | mul => exact hall _ _ _ hreset
  | div => exact hall _ _ _ hreset

theorem vars_inverse? {ty : Ty} {a : Assignment} {back : Stmt} (h : inverse? ty a = some back) :
    back.vars = 0 := by
  unfold inverse? at h
  split at h
  · split at h <;> simp only [Option.some.injEq, reduceCtorEq] at h <;> exact h ▸ rfl
  · cases h

/-- After the value is saved, if it is, the adjoint moves. -/
theorem declares_moved (a : Assignment) (ty : Ty) (saved : Option (Stmt × Stmt)) :
    Declares c.lane? σ (varsOf (saved.map (·.1)).toList + varsOf (saved.map (·.2)).toList) (do
      let storage ← get
      let adjoint := if ty = .float then c.adjointPlace? storage a.place else none
      let errors := match adjoint, c.error with
        | some p, some sink => [sink.term p.toExpr a.place.toExpr]
        | _, _ => []
      let moved ← match adjoint with
        | some p => c.moveAdjoint a.place p a.op a.value
        | none => pure []
      return ⟨(saved.map (·.1)).toList ++ [.assign a],
        errors ++ (saved.map (·.2)).toList ++ c.perLane moved⟩) Sweeps.vars := by
  refine .get_bind ?_
  dsimp only
  -- Neither the terms of errors nor the restored value declare anything new.
  have hend : ∀ (errors moved : List Stmt) (σ₁ : Storage), varsOf errors = 0 →
      Declares c.lane? σ₁
        (varsOf (saved.map (·.1)).toList + varsOf (saved.map (·.2)).toList + varsOf moved)
        (pure ⟨(saved.map (·.1)).toList ++ [.assign a],
          errors ++ (saved.map (·.2)).toList ++ c.perLane moved⟩) Sweeps.vars := by
    intro errors moved σ₁ herrors
    obtain ⟨extra, hextra, hvars⟩ := supplied_perLane σ₁.names moved
    refine .pureWith hextra ?_
    simp only [Sweeps.vars_mk, varsOf_append, varsOf_cons, varsOf_nil, Stmt.vars_assign, herrors,
      hvars]
    abel
  cases (if ty = .float then c.adjointPlace? σ a.place else none) with
  | none => simpa using hend [] [] σ rfl
  | some q =>
    refine (declares_moveAdjoint a.place q a.op a.value).step fun moved σ₁ => ?_
    refine hend _ moved σ₁ ?_
    cases c.error <;> rfl

theorem declares_assignment (inLoop : Bool) (a : Assignment) (first : Bool) :
    Declares c.lane? σ 0 (c.assignment inLoop a first) Sweeps.vars := by
  unfold assignment
  refine (declares_checkPure a.value).after fun _ σ₁ => ?_
  split
  · exact .fail c _
  · rename_i ty _
    split
    · rename_i back hback
      exact .pure (by simp [vars_inverse? hback])
    · dsimp only
      split
      · refine (declares_save inLoop a.place ty).step fun saved σ₂ => ?_
        exact (declares_moved a ty (some saved)).of_eq (by simp)
      · exact declares_moved a ty none

theorem declares_declaration (inLoop : Bool) (d : Local) :
    Declares c.lane? σ {(d.name, d.ty)} (c.declaration inLoop d) Sweeps.vars := by
  unfold declaration
  split
  · rw [← zero_add {(d.name, d.ty)}]
    refine (Declares.hoist (.let_ d.name d.ty none)).bind fun _ σ₁ => ?_
    split
    · refine (declares_adjoint ("_d_" ++ d.name) c.lanes none).step fun x σ₂ => ?_
      refine (Declares.hoist _).bind fun _ σ₃ => ?_
      refine (Declares.bindAdjoint d.name x).after fun _ σ₄ => ?_
      exact (declares_assignment inLoop _ _).of_eq (by simp)
    · exact (declares_assignment inLoop _ _).of_eq (by simp)
  · exact .fail c _

theorem declares_arrayDeclaration (inControl : Bool) (x : String) (elem : Ty) (len : Expr) :
    Declares c.lane? σ {(x, .arrayOf elem)} (c.arrayDeclaration inControl x elem len)
      Sweeps.vars := by
  unfold arrayDeclaration
  split
  · exact .fail c _
  · split
    · refine (declares_adjoint ("_d_" ++ x) c.lanes (some len)).step fun d σ₁ => ?_
      exact (Declares.bindAdjoint x d).after fun _ σ₂ => .pure (by simp)
    · exact .pure (by simp)

theorem declares_saveArg (at_ : Nesting) (f : String) (p : Param) (arg : Expr) :
    Declares c.lane? σ 0 (c.saveArg at_ f p arg) Sweeps.vars := by
  unfold saveArg
  split
  · split
    · exact .fail c _
    · split
      · exact .fail c _
      · exact (declares_save _ _ _).step fun saved σ₁ => .pure (by simp)
  · split
    · exact .fail c _
    · split
      · rename_i array
        refine (Declares.numbered "_t" (.arrayOf ((c.env.element? array).getD .float))).step
          fun copy σ₁ => ?_
        refine (Declares.numbered "_i" .int).step fun i σ₂ => ?_
        refine (Declares.numbered "_i" .int).step fun j σ₃ => .pure ?_
        simp only [Sweeps.vars_mk, varsOf_cons, varsOf_nil, Stmt.vars_arrayDecl, vars_copyLoop]
        abel
      · exact .fail c _
  · exact .pure (by simp)

theorem declares_saveArgs (at_ : Nesting) (f : String) (written : List Nat) (ps : List Param)
    (es : List Expr) (i : Nat) (σ : Storage) :
    Declares c.lane? σ 0 (c.saveArgs at_ f written i ps es) Sweeps.vars := by
  induction ps generalizing es i σ with
  | nil => exact .pure (by simp)
  | cons p ps ih =>
    cases es with
    | nil => exact .pure (by simp)
    | cons e es =>
      unfold saveArgs
      have hrest : ∀ (own : Sweeps) (σ₁ : Storage), Declares c.lane? σ₁ own.vars (do
          let rest ← c.saveArgs at_ f written (i + 1) ps es
          return ⟨own.primal ++ rest.primal, own.adjoint ++ rest.adjoint⟩) Sweeps.vars := by
        intro own σ₁
        refine (ih es (i + 1) σ₁).step fun rest σ₂ => .pure ?_
        simp only [Sweeps.vars, varsOf_append]
        abel
      dsimp only
      split
      · refine (declares_saveArg at_ f p e).step fun own σ₁ => ?_
        simpa using hrest own σ₁
      · exact hrest ⟨[], []⟩ σ

theorem declares_effectPullback (callee : Func) (args : List Expr) :
    Declares c.lane? σ 0 (c.effectPullback callee args) varsOf := by
  unfold effectPullback
  refine (Declares.lift _).after fun made σ₁ => ?_
  have hcall : ∀ (d : String) (derived : Bool), Declares c.lane? σ₁ 0 (do
      let pieces ← c.adjointArgs callee callee.params args
      return c.perLane (c.pullbackCall callee d args .zero derived pieces)) varsOf := by
    intro d derived
    refine (declares_adjointArgs callee callee.params args σ₁).step fun pieces σ₂ => ?_
    obtain ⟨extra, hextra, hvars⟩ := supplied_perLane σ₂.names
      (c.pullbackCall callee d args .zero derived pieces)
    exact .pureWith hextra (by simpa [vars_pullbackCall] using hvars)
  split
  · exact hcall _ false
  · exact hcall _ true
  · exact .pure (by simp)
  · exact .pure (by simp)

theorem declares_callStmt (at_ : Nesting) (f : String) (args : List Expr) :
    Declares c.lane? σ 0 (c.callStmt at_ f args) Sweeps.vars := by
  unfold callStmt
  split
  · exact .fail c _
  · exact .fail c _
  · exact .pure (by simp)
  · refine (Declares.lift _).after fun callee σ₁ => ?_
    refine (Declares.lift _).after fun host σ₂ => ?_
    refine (declares_saveArgs at_ f _ callee.params args 0 σ₂).step fun saved σ₃ => ?_
    refine (Declares.lift _).after fun host' σ₄ => ?_
    split
    · refine (declares_effectPullback callee args).step fun pulled σ₅ => .pure ?_
      simp [Sweeps.vars, add_assoc]
    · exact .pure (by simp [Sweeps.vars])

theorem declares_branch (inLoop : Bool) (test : Expr) (yes no : Sweeps) :
    Declares c.lane? σ (yes.vars + no.vars) (branch inLoop test yes no) Sweeps.vars := by
  have hboth : varsOf yes.primal + varsOf no.primal + (varsOf yes.adjoint + varsOf no.adjoint) =
      yes.vars + no.vars := by
    simp only [Sweeps.vars]
    abel
  unfold branch
  split
  · rename_i hempty
    simp only [Bool.and_eq_true, List.isEmpty_iff] at hempty
    exact .pure (by simp [Sweeps.vars, hempty.1, hempty.2])
  · split
    · exact (Declares.hoistNew "_cond" (.tape .bool)).after fun tape σ₁ => .pure (by simp [hboth])
    · exact (Declares.hoistNew "_cond" .bool).after fun slot σ₁ => .pure (by simp [hboth])

theorem declares_loop (inLoop : Bool) (init step body : Sweeps) (test : Option Expr) :
    Declares c.lane? σ (init.vars + step.vars + body.vars) (loop inLoop init test step body)
      Sweeps.vars := by
  have hnone : initVars none = 0 := rfl
  unfold loop
  dsimp only
  split
  · rename_i hempty
    simp only [Bool.and_eq_true, List.isEmpty_iff] at hempty
    refine .pure ?_
    simp only [Sweeps.vars, varsOf_append, varsOf_cons, varsOf_nil, Stmt.vars_while, hempty]
    abel
  · refine (Declares.hoistNew "_loop" .int).after fun counter σ₁ => ?_
    split
    · refine (Declares.hoistNew "_trips" (.tape .int)).after fun trips σ₂ => .pure ?_
      simp only [Sweeps.vars, varsOf_append, varsOf_cons, varsOf_nil, Stmt.vars_set,
        Stmt.vars_while, Stmt.vars_for, Stmt.vars_update, Stmt.vars_expr, hnone]
      abel
    · refine .pure ?_
      simp only [Sweeps.vars, varsOf_append, varsOf_cons, varsOf_nil, Stmt.vars_set,
        Stmt.vars_while, Stmt.vars_for, Stmt.vars_update, hnone]
      abel

theorem declares_returned (value : Option Expr) :
    Declares c.lane? σ 0 (c.returned value) Sweeps.vars := by
  unfold returned
  split
  · rename_i value seed _
    refine (declares_checkPure value).after fun _ σ₁ => ?_
    refine (Declares.lift _).after fun host σ₂ => ?_
    split
    · refine (declares_accumulate value seed σ₂).step fun out σ₃ => .pure ?_
      simp only [Sweeps.vars_mk, varsOf_nil, varsOf_append]
      congr 1
      cases c.error with
      | none => rfl
      | some sink => cases hcounts : sink.countsReturns <;> simp [hcounts, vars_term]
    · exact .pure (by simp)
  · exact .pure (by simp)

theorem declares_loopInit (inLoop : Bool) (init : Option LoopInit) :
    Declares c.lane? σ (initVars init) (c.loopInit inLoop init) Sweeps.vars := by
  rcases init with _ | d | a
  · exact .pure rfl
  · exact declares_declaration inLoop d
  · exact declares_assignment inLoop a false

theorem declares_loopStep (step : Option Assignment) :
    Declares c.lane? σ 0 (c.loopStep step) Sweeps.vars := by
  cases step with
  | none => exact .pure (by simp)
  | some a => exact declares_assignment true a false

theorem declares_checkTest (test : Option Expr) :
    Declares c.lane? σ 0 (c.checkTest test) fun _ => 0 := by
  cases test with
  | none => exact .pure rfl
  | some e => exact declares_checkPure e

mutual

theorem declares_stmt (at_ : Nesting) : ∀ (stmt : Stmt) (σ : Storage),
    Declares c.lane? σ stmt.vars (c.stmt at_ stmt) Sweeps.vars
  | .decl d, σ => by
    rw [Sweep.stmt]
    exact declares_declaration at_.inLoop d
  | .arrayDecl x elem len, σ => by
    rw [Sweep.stmt]
    exact declares_arrayDeclaration at_.inControl x elem len
  | .assign a, σ => by
    rw [Sweep.stmt]
    exact declares_assignment at_.inLoop a false
  | .cond test yes no, σ => by
    rw [Sweep.stmt, Stmt.vars_cond, add_comm]
    refine (declares_checkPure test).after fun _ σ₁ => ?_
    refine (declares_body _ yes σ₁).bind fun yes' σ₂ => ?_
    rw [add_comm]
    refine (declares_body _ no σ₂).bind fun no' σ₃ => ?_
    exact declares_branch at_.inLoop test yes' no'
  | .for_ init test step body, σ => by
    rw [Sweep.stmt, Stmt.vars_for, add_comm]
    refine (declares_checkTest test).after fun _ σ₁ => ?_
    refine (declares_loopInit at_.inLoop init).bind fun init' σ₂ => ?_
    refine (declares_loopStep step).step fun step' σ₃ => ?_
    rw [add_assoc, add_comm]
    refine (declares_body _ body σ₃).bind fun body' σ₄ => ?_
    exact declares_loop at_.inLoop init' step' body' test
  | .while_ test body, σ => by
    rw [Sweep.stmt, Stmt.vars_while, ← zero_add (varsOf body)]
    refine (declares_checkPure test).after fun _ σ₁ => ?_
    refine (declares_body _ body σ₁).bind fun body' σ₂ => ?_
    exact (declares_loop at_.inLoop ⟨[], []⟩ ⟨[], []⟩ body' (some test)).of_eq (by simp)
  | .ret value, σ => by
    rw [Sweep.stmt]
    exact declares_returned value
  | .expr e, σ => by
    cases e with
    | call f args =>
      rw [Sweep.stmt]
      exact declares_callStmt at_ f args
    | _ =>
      simp only [Sweep.stmt]
      exact (declares_checkPure _).after fun _ σ₁ => .pure (by simp)
  | .block body, σ => by
    rw [Sweep.stmt, Stmt.vars_block]
    exact declares_body at_ body σ

theorem declares_body (at_ : Nesting) : ∀ (body : List Stmt) (σ : Storage),
    Declares c.lane? σ (varsOf body) (c.body at_ body) Sweeps.vars
  | [], σ => by
    rw [Sweep.body]
    exact .pure (by simp)
  | stmt :: rest, σ => by
    rw [Sweep.body, varsOf_cons, add_comm]
    refine (declares_stmt at_ stmt σ).bind fun first σ₁ => ?_
    rw [add_comm]
    refine (declares_body at_ rest σ₁).bind fun others σ₂ => .pure ?_
    simp only [Sweeps.vars, varsOf_append]
    abel

end

/-- The sweeps of a body declare what it declares and storage with new names. -/
theorem declares_run {lane : Option String} (hlane : c.lane? = lane) (body : List Stmt)
    (σ : Storage) : Declares lane σ (varsOf body) (c.run body) Sweeps.vars :=
  hlane ▸ declares_body _ body σ

end Sweep

end Fluxion.Derive
