import Fluxion.Proofs.Apart.Supply

/-!
Forward mode keeps what a function declares, and adds tangents with new names.
-/

namespace Fluxion.Derive

/-! ### Results of derivations -/

/-- What holds of the result of a derivation, if it gives one. -/
def Returns {α : Type} (m : Derivation α) (Q : α → Prop) : Prop :=
  ∀ st a st', m st = .ok a st' → Q a

section

variable {α β : Type} {Q : α → Prop} {R : β → Prop}

theorem Returns.pure {a : α} (h : Q a) : Returns (pure a) Q := by
  intro st b st' hrun
  cases hrun
  exact h

theorem Returns.any (m : Derivation α) : Returns m fun _ => True := fun _ _ _ _ => trivial

theorem Returns.unsupported (f : String) (o : Obstacle) : Returns (Derive.unsupported f o) Q := by
  intro st b st' hrun
  cases hrun

theorem Returns.bind {m : Derivation α} {f : α → Derivation β} (hm : Returns m Q)
    (hf : ∀ a, Q a → Returns (f a) R) : Returns (m >>= f) R := by
  intro st b st'' hrun
  simp only [Bind.bind, EStateM.bind] at hrun
  cases hms : m st with
  | error e st' =>
    rw [hms] at hrun
    cases hrun
  | ok a st' =>
    rw [hms] at hrun
    exact hf a (hm st a st' hms) st' b st'' hrun

/-- Steps before the last matter only for what the last one gives. -/
theorem Returns.after {m : Derivation α} {f : α → Derivation β} (hf : ∀ a, Returns (f a) R) :
    Returns (m >>= f) R :=
  (Returns.any m).bind fun a _ => hf a

end

/-! ### Tangents -/

section

variable {s : Setting} {plan : Planner}

/-- Code that comes with tangents of new names declares `own` and those. -/
def TangentsAdd (t : TangentScope) (own : Vars) (m : Derivation (List Stmt × TangentScope)) :
    Prop :=
  Returns m fun r => ∃ new, Supplied none t.names r.2.names new ∧ varsOf r.1 = own + new

variable {t : TangentScope} {own own' : Vars}

theorem TangentsAdd.pure {out : List Stmt} (h : varsOf out = own) :
    TangentsAdd t own (pure (out, t)) :=
  Returns.pure ⟨0, .refl _, by simpa using h⟩

theorem TangentsAdd.after {α : Type} {m : Derivation α}
    {f : α → Derivation (List Stmt × TangentScope)} (h : ∀ a, TangentsAdd t own (f a)) :
    TangentsAdd t own (m >>= f) :=
  Returns.after h

/-- A variable gets a tangent, which the code declares. -/
theorem TangentsAdd.declare (x : String) (ty : Ty) {out : List Stmt}
    (h : varsOf out = own + {((t.declare x).1, ty)}) :
    TangentsAdd t own (Pure.pure (out, (t.declare x).2)) :=
  Returns.pure ⟨_, .fresh ("_d_" ++ x) ty, h⟩

/-- Code after other code. -/
theorem TangentsAdd.bind {m : Derivation (List Stmt × TangentScope)}
    {f : List Stmt × TangentScope → Derivation (List Stmt × TangentScope)}
    (hm : TangentsAdd t own m)
    (hf : ∀ out t', TangentsAdd t' (varsOf out + own') (f (out, t'))) :
    TangentsAdd t (own + own') (m >>= f) := by
  refine Returns.bind hm fun r h => ?_
  obtain ⟨new, hnew, hvars⟩ := h
  intro st r' st' hrun
  obtain ⟨new', hnew', hvars'⟩ := hf r.1 r.2 st r' st' hrun
  refine ⟨new + new', hnew.trans hnew', ?_⟩
  rw [hvars', hvars]
  abel

theorem tangentsAdd_local (d : Local) : TangentsAdd t 0 (tangentLocal s plan t d) := by
  have hdeclare : ∀ (ty : Ty) (init : Option Expr), TangentsAdd t 0
      (pure ([.let_ (t.declare d.name).1 ty init], (t.declare d.name).2)) :=
    fun ty init => .declare d.name ty (by simp)
  unfold tangentLocal
  split
  · cases d.init with
    | none => exact hdeclare .float (some .zero)
    | some e => exact .after fun init => hdeclare .float (some init)
  · exact hdeclare d.ty none
  · split
    · dsimp only
      split
      · exact Returns.unsupported _ _
      · exact hdeclare (.arrayOf .float) _
    · exact .pure (by simp)
  · exact .pure (by simp)

theorem returns_assignment (a : Assignment) :
    Returns (tangentAssignment s plan t a) fun out => varsOf out = 0 := by
  unfold tangentAssignment
  split
  · exact .pure rfl
  · refine .after fun value => ?_
    split
    · exact .pure (by simp)
    · split <;> exact .pure (by simp)
    · split <;> exact .pure (by simp)
    · exact .after fun copy => .pure (by simp)
    · exact .after fun copy => .pure (by simp)

theorem tangentsAdd_init (init : Option LoopInit) :
    TangentsAdd t 0 (tangentInit s plan t init) := by
  unfold tangentInit
  split
  · exact .pure (by simp)
  · exact tangentsAdd_local _
  · exact Returns.bind (returns_assignment _) fun out h => TangentsAdd.pure (by simp [h])

theorem returns_step (step : Option Assignment) :
    Returns (tangentStep s plan t step) fun out => varsOf out = 0 := by
  unfold tangentStep
  split
  · exact .pure rfl
  · exact returns_assignment _

theorem vars_toStmt (init : Option LoopInit) :
    varsOf (init.map LoopInit.toStmt).toList = initVars init := by
  rcases init with _ | d | a <;> simp [LoopInit.toStmt, initVars]

theorem vars_loopWith (init : Option LoopInit) (test : Option Expr) (step : Option Assignment)
    (dInit dStep body : List Stmt) :
    (loopWith init test step dInit dStep body).vars =
      varsOf dInit + varsOf dStep + (initVars init + varsOf body) := by
  unfold loopWith
  split
  · rename_i hempty
    simp only [Bool.and_eq_true, List.isEmpty_iff] at hempty
    simp [hempty.1, hempty.2]
  · have hstep : varsOf (step.map Stmt.assign).toList = 0 := by cases step <;> simp
    have hnone : initVars none = 0 := rfl
    simp only [Stmt.vars_block, varsOf_append, varsOf_cons, varsOf_nil, Stmt.vars_for, vars_toStmt,
      hstep, hnone]
    abel

theorem returns_call (f : String) (args : List Expr) :
    Returns (tangentCall s plan t f args) fun out => varsOf out = 0 := by
  unfold tangentCall
  split
  · refine .after fun d => .pure ?_
    split <;> simp
  · refine .after fun d => .pure ?_
    split <;> simp
  · exact .pure (by simp)
  · refine .after fun callee => .after fun host => ?_
    split
    · refine .after fun made => ?_
      split
      · exact .after fun _ => .after fun _ => .pure (by simp)
      · exact .after fun _ => .after fun _ => .pure (by simp)
      · exact .pure (by simp)
      · exact .pure (by simp)
    · exact .pure (by simp)

mutual

theorem tangentsAdd_stmt (returns : Bool) : ∀ (stmt : Stmt) (t : TangentScope),
    TangentsAdd t stmt.vars (tangentStmt s plan returns t stmt)
  | .decl d, t => by
    simp only [tangentStmt]
    rw [← zero_add (Stmt.decl d).vars]
    exact (tangentsAdd_local d).bind fun before t' => .pure (by simp)
  | .arrayDecl x elem len, t => by
    simp only [tangentStmt]
    split
    · refine .declare x (.arrayOf .float) ?_
      simp [add_comm]
    · exact .pure (by simp)
  | .assign a, t => by
    simp only [tangentStmt]
    exact Returns.bind (returns_assignment a) fun before h => TangentsAdd.pure (by simp [h])
  | .cond test yes no, t => by
    simp only [tangentStmt, Stmt.vars_cond]
    refine (tangentsAdd_body returns yes t).bind fun yes' t₁ => ?_
    rw [add_comm]
    exact (tangentsAdd_body returns no t₁).bind fun no' t₂ => .pure (by simp [add_comm])
  | .for_ init test step body, t => by
    simp only [tangentStmt, Stmt.vars_for]
    rw [← zero_add (initVars init + varsOf body)]
    refine (tangentsAdd_init init).bind fun dInit t₁ => ?_
    refine Returns.bind (returns_step step) fun dStep hstep => ?_
    have hown : varsOf dInit + (initVars init + varsOf body) =
        varsOf body + (varsOf dInit + initVars init) := by abel
    show TangentsAdd t₁ _ _
    rw [hown]
    refine (tangentsAdd_body returns body t₁).bind fun body' t₂ => .pure ?_
    simp only [varsOf_cons, varsOf_nil, vars_loopWith, hstep]
    abel
  | .while_ test body, t => by
    simp only [tangentStmt, Stmt.vars_while]
    rw [← add_zero (varsOf body)]
    exact (tangentsAdd_body returns body t).bind fun body' t₁ => .pure (by simp)
  | .ret value, t => by
    simp only [tangentStmt]
    exact .after fun out => .pure (by simp)
  | .expr e, t => by
    cases e with
    | call f args =>
      simp only [tangentStmt]
      exact Returns.bind (returns_call f args) fun out h => TangentsAdd.pure (by simp [h])
    | _ =>
      simp only [tangentStmt]
      exact .pure (by simp)
  | .block body, t => by
    simp only [tangentStmt, Stmt.vars_block]
    rw [← add_zero (varsOf body)]
    exact (tangentsAdd_body returns body t).bind fun body' t₁ => .pure (by simp)

theorem tangentsAdd_body (returns : Bool) : ∀ (body : List Stmt) (t : TangentScope),
    TangentsAdd t (varsOf body) (tangentBody s plan returns t body)
  | [], t => by
    simp only [tangentBody]
    exact .pure (by simp)
  | stmt :: rest, t => by
    simp only [tangentBody, varsOf_cons]
    refine (tangentsAdd_stmt returns stmt t).bind fun first t₁ => ?_
    rw [add_comm]
    refine (tangentsAdd_body returns rest t₁).bind fun others t₂ => .pure ?_
    rw [varsOf_append, add_comm]

end

/-! ### Functions of forward mode -/

theorem supplied_tangentParams (ps : List Param) (t : TangentScope) :
    Supplied none t.names (tangentParams t ps).2.names (paramVars (tangentParams t ps).1) := by
  induction ps generalizing t with
  | nil => exact .refl _
  | cons p ps ih =>
    unfold tangentParams
    split
    · exact ih t
    · rename_i ty _
      have hd : Supplied none t.names (t.declare p.name).2.names {((t.declare p.name).1, ty)} :=
        .fresh _ ty
      simpa using hd.trans (ih (t.declare p.name).2)

theorem supplied_seedParams (along : Direction) (ps : List Param) (t : TangentScope) (i : Nat) :
    Supplied none t.names (seedParams t along i ps).2.2.names
      (varsOf (seedParams t along i ps).1) := by
  induction ps generalizing t i with
  | nil => exact .refl _
  | cons p ps ih =>
    unfold seedParams
    split
    · exact ih t (i + 1)
    · have hd : ∀ ty, Supplied none t.names (t.declare p.name).2.names
          {((t.declare p.name).1, ty)} := fun ty => .fresh _ ty
      have hrest := ih (t.declare p.name).2 (i + 1)
      dsimp only
      rw [varsOf_append]
      split
      · have hown := (hd (.arrayOf .float)).trans hrest
        split <;> simpa using hown
      · simpa using (hd .float).trans hrest

theorem builtOn_pushforward (callee : Func) (name : String) :
    Returns (pushforward s plan callee name)
      (BuiltOn (Canonical.uniqueLocals callee).vars (Canonical.uniqueLocals callee)) := by
  unfold pushforward
  dsimp only
  split
  · exact .unsupported _ _
  · rename_i body hbody
    have hparams := supplied_tangentParams (Canonical.uniqueLocals callee).params
      (.ofFunc (Canonical.uniqueLocals callee))
    refine Returns.bind (tangentsAdd_body _ body _) fun out h => .pure ?_
    obtain ⟨new, hnew, hvars⟩ := h
    refine ⟨_, _, hparams.trans hnew, ?_⟩
    simp only [Func.vars, Func.stmts, Option.getD_some, hbody, paramVars_append, hvars]
    abel

/-- A pushforward that the source gives does it all, so that only the parameters are kept. -/
theorem builtOn_seeded (f : Func) (along : Direction) (name : String) :
    Returns (seeded s plan f along name) fun g =>
      BuiltOn (Canonical.uniqueLocals f).vars (Canonical.uniqueLocals f) g ∨
      (s.registry.get? .pushforward f.signature).isSome ∧
        BuiltOn (paramVars f.params) (Canonical.uniqueLocals f) g := by
  have hseeds := supplied_seedParams along (Canonical.uniqueLocals f).params
    (.ofFunc (Canonical.uniqueLocals f)) 0
  unfold seeded
  dsimp only
  split
  · rename_i custom hcustom
    refine .pure (.inr ⟨by simp [hcustom], _, _, hseeds, ?_⟩)
    simp only [Func.vars, Func.stmts, Option.getD_some, varsOf_append, varsOf_cons, varsOf_nil,
      Stmt.vars_ret, add_zero]
    rfl
  · rename_i body _ hbody
    refine Returns.bind (tangentsAdd_body _ body _) fun out h => .pure (.inl ?_)
    obtain ⟨new, hnew, hvars⟩ := h
    refine ⟨_, _, hseeds.trans hnew, ?_⟩
    simp only [Func.vars, Func.stmts, Option.getD_some, hbody, varsOf_append, hvars]
    abel
  · exact .unsupported _ _

end

end Fluxion.Derive
