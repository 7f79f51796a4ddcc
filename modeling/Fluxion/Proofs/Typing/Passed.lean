import Fluxion.Proofs.Runs.Code
import Fluxion.Proofs.Runs.Reached
import Fluxion.Proofs.Typing.Inversion

/-!
What the checker went through in a function that passed it: every expression of the body has a type
in the variables that are in scope where it stands.
-/

namespace Fluxion

/-! ### Points of a body -/

mutual

/-- The expressions in a statement, at any depth and in the order of the source, with the variables
in scope where they stand. -/
def Stmt.points (env : TyEnv) : Stmt → List (TyEnv × Expr)
  | .decl d => d.parts.map (env, ·)
  | .arrayDecl _ _ len => len.parts.map (env, ·)
  | .assign a => a.parts.map (env, ·)
  | .cond test yes no => test.parts.map (env, ·) ++ (pointsIn env yes ++ pointsIn env no)
  | .for_ init test step body =>
    ((init.map LoopInit.parts).getD []).map (env, ·) ++
      (((test.map Expr.parts).getD []).map (env.afterInit init, ·) ++
        (((step.map Assignment.parts).getD []).map (env.afterInit init, ·) ++
          pointsIn (env.afterInit init) body))
  | .while_ test body => test.parts.map (env, ·) ++ pointsIn env body
  | .ret value => ((value.map Expr.parts).getD []).map (env, ·)
  | .expr e => e.parts.map (env, ·)
  | .block body => pointsIn env body

/-- The expressions in statements with the variables in scope. -/
def pointsIn (env : TyEnv) : List Stmt → List (TyEnv × Expr)
  | [] => []
  | s :: rest => s.points env ++ pointsIn (env.after s) rest

end

/-- The expressions in a function's body with the variables in scope. -/
def Func.points (f : Func) : List (TyEnv × Expr) := pointsIn f.scope f.stmts

mutual

theorem Stmt.map_points (env : TyEnv) : ∀ s : Stmt, (s.points env).map (·.2) = s.parts
  | .decl _ | .arrayDecl _ _ _ | .assign _ | .ret _ | .expr _ => by
    simp [Stmt.points, Stmt.parts, Function.comp_def]
  | .cond _ yes no => by
    simp [Stmt.points, Stmt.parts, Function.comp_def, map_pointsIn env yes, map_pointsIn env no]
  | .for_ init _ _ body => by
    simp [Stmt.points, Stmt.parts, Function.comp_def, map_pointsIn (env.afterInit init) body]
  | .while_ _ body | .block body => by
    simp [Stmt.points, Stmt.parts, Function.comp_def, map_pointsIn env body]

/-- Every expression of a body stands at one of its points. -/
theorem map_pointsIn (env : TyEnv) : ∀ body : List Stmt, (pointsIn env body).map (·.2) = partsOf body
  | [] => rfl
  | s :: rest => by
    simp [pointsIn, partsOf, Stmt.map_points env s, map_pointsIn (env.after s) rest]

end

/-- The checker gives every part of the expression a type; functions that are only named have none. -/
def Rule.checked (resolve : Resolver) (env : TyEnv) : Rule where
  part e := (∃ f, e = .funcRef f) ∨ ∃ t, Typing.checkExpr resolve env e = .ok t
  target _ := True
  declares _ := True
  returns := True

namespace Typing

variable {resolve : Resolver} {ret : Ty} {env env' : TyEnv}

/-! ### Expressions -/

theorem exists_checkExpr_of_checkExprs {es : List Expr} {ts : List Ty}
    (h : checkExprs resolve env es = .ok ts) {e : Expr} (he : e ∈ es) :
    ∃ t, checkExpr resolve env e = .ok t := by
  induction es generalizing ts with
  | nil => cases he
  | cons e' es ih =>
    obtain ⟨t, rest, he', hrest, rfl⟩ := of_checkExprs_cons h
    rcases List.mem_cons.mp he with rfl | he
    · exact ⟨t, he'⟩
    · exact ih hrest he

theorem exists_checkExpr_of_checkArgs {es : List Expr} {ts : List Ty}
    (h : checkArgs resolve env es = .ok ts) {e : Expr} (he : e ∈ es) :
    ∃ t, checkExpr resolve env e = .ok t :=
  exists_checkExpr_of_checkExprs (checkExprs_of_checkArgs h) he

theorem checked_of_checkExpr (e : Expr) :
    ∀ {t}, checkExpr resolve env e = .ok t → (Rule.checked resolve env).Expr e := by
  have hleaf : ∀ e : Expr, e.parts = [e] → (Rule.checked resolve env).part e →
      (Rule.checked resolve env).Expr e := by
    intro e hparts he part hpart
    rw [hparts, List.mem_singleton] at hpart
    exact hpart ▸ he
  have hvar : ∀ {x t}, env.lookup x = some t → (Rule.checked resolve env).Expr (.var x) :=
    fun hx => hleaf _ rfl (.inr ⟨_, by simp [checkExpr_var, lookup_eq_ok.mpr hx]; rfl⟩)
  induction e using Expr.induct with
  | float v | int v | bool v | var x | funcRef f => exact fun ht => hleaf _ rfl (.inr ⟨_, ht⟩)
  | index x i ih =>
    intro t ht
    exact Rule.expr_index.mpr ⟨.inr ⟨t, ht⟩, ih (of_checkExpr_index ht).1⟩
  | unary op e ih =>
    intro t ht
    obtain ⟨te, he, _⟩ := of_checkExpr_unary ht
    exact Rule.expr_unary.mpr ⟨.inr ⟨t, ht⟩, ih he⟩
  | binary op l r ihl ihr =>
    intro t ht
    obtain ⟨tl, tr, hl, hr, _⟩ := of_checkExpr_binary ht
    exact Rule.expr_binary.mpr ⟨.inr ⟨t, ht⟩, ihl hl, ihr hr⟩
  | call f args ih =>
    intro t ht
    refine Rule.expr_call.mpr ⟨.inr ⟨t, ht⟩, ?_⟩
    cases hf : Intrinsic.ofName? f with
    | none =>
      obtain ⟨ts, callee, hts, _⟩ := of_checkExpr_call ht hf
      intro e he
      obtain ⟨te, hte⟩ := exists_checkExpr_of_checkArgs hts he
      exact ih e he hte
    | some intrinsic =>
      -- the first argument of an intrinsic is a name
      cases intrinsic with
      | len =>
        obtain ⟨x, _, _, rfl, hx, _⟩ := of_checkExpr_len ht hf
        exact Rule.exprs_cons.mpr ⟨hvar hx, Rule.exprs_nil⟩
      | push =>
        obtain ⟨x, v, _, rfl, hx, hv, _⟩ := of_checkExpr_push ht hf
        exact Rule.exprs_cons.mpr ⟨hvar hx,
          Rule.exprs_cons.mpr ⟨ih v (by simp) hv, Rule.exprs_nil⟩⟩
      | pop =>
        obtain ⟨x, rfl, hx⟩ := of_checkExpr_pop ht hf
        exact Rule.exprs_cons.mpr ⟨hvar hx, Rule.exprs_nil⟩
      | centralDifference =>
        obtain ⟨target, k, print, rest, _, _, rfl, hk, hprint, hrest, _⟩ :=
          of_checkExpr_difference ht hf
        refine Rule.exprs_cons.mpr ⟨hleaf _ rfl (.inl ⟨target, rfl⟩),
          Rule.exprs_cons.mpr ⟨ih k (by simp) hk, Rule.exprs_cons.mpr ⟨ih print (by simp) hprint,
            fun e he => ?_⟩⟩⟩
        obtain ⟨te, hte⟩ := exists_checkExpr_of_checkExprs hrest he
        exact ih e (by simp [he]) hte

theorem checked_of_checkLocal {d : Local} (h : checkLocal resolve env d = .ok env') :
    ∀ e ∈ d.parts, (Rule.checked resolve env).part e := by
  refine Rule.part_of_local ⟨trivial, fun e he => ?_⟩
  obtain ⟨t, ht, _⟩ := (of_checkLocal h).2.2 e he
  exact checked_of_checkExpr e ht

theorem checked_of_checkAssignment {a : Assignment} {u : Unit}
    (h : checkAssignment resolve env a = .ok u) :
    ∀ e ∈ a.parts, (Rule.checked resolve env).part e := by
  obtain ⟨place, op, value⟩ := a
  obtain ⟨_, _, hplace, hvalue, _⟩ := of_checkAssignment h
  cases place with
  | var x => exact checked_of_checkExpr value hvalue
  | index x i =>
    exact List.forall_mem_append.mpr ⟨checked_of_checkExpr i (of_checkPlace_index hplace).1,
      checked_of_checkExpr value hvalue⟩

/-! ### Variables in scope -/

theorem eq_afterInit_of_checkInit? {init : Option LoopInit}
    (h : checkInit? resolve env init = .ok env') : env' = env.afterInit init := by
  rcases init with _ | (d | a)
  · cases h
    rfl
  · exact (of_checkLocal h).1
  · simp only [checkInit?, checkLoopInit, except_bind_eq_ok, except_pure_eq_ok] at h
    exact h.choose_spec.2.symm

/-- The checker knows the variables after a statement. -/
theorem eq_after_of_checkStmt {st : Stmt} (h : checkStmt resolve ret env st = .ok env') :
    env' = env.after st := by
  cases st with
  | decl d =>
    rw [checkStmt] at h
    exact (of_checkLocal h).1
  | arrayDecl x elem len => exact (of_checkStmt_arrayDecl h).2.2
  | for_ init test step body =>
    rw [checkStmt_for] at h
    simp only [except_bind_eq_ok, except_pure_eq_ok] at h
    obtain ⟨_, _, _, _, _, _, _, _, rfl⟩ := h
    rfl
  | cond test yes no =>
    simp only [checkStmt, except_bind_eq_ok, except_pure_eq_ok] at h
    obtain ⟨_, _, _, _, _, _, rfl⟩ := h
    rfl
  | while_ test body =>
    simp only [checkStmt, except_bind_eq_ok, except_pure_eq_ok] at h
    obtain ⟨_, _, _, _, rfl⟩ := h
    rfl
  | assign a | ret value | expr e | block body =>
    simp only [checkStmt, except_bind_eq_ok, except_pure_eq_ok] at h
    obtain ⟨_, _, rfl⟩ := h
    rfl

theorem of_checkParams {ps : List Param} (h : checkParams env ps = .ok env') :
    env' = (ps.map fun p => (p.name, p.ty)).reverse ++ env ∧
      ∀ p ∈ ps, p.ty ≠ .void ∧ ∀ t, p.ty ≠ .tape t := by
  induction ps generalizing env with
  | nil =>
    cases h
    exact ⟨rfl, by simp⟩
  | cons p ps ih =>
    unfold checkParams at h
    split at h
    · cases h
    · cases h
    · rename_i t hvoid htape
      obtain ⟨rfl, hps⟩ := ih h
      refine ⟨by simp, fun q hq => ?_⟩
      rcases List.mem_cons.mp hq with rfl | hq
      · exact ⟨hvoid, htape⟩
      · exact hps q hq

/-- A function that passed the checker has parameters that can be bound, and a body that passed. -/
theorem of_checkFunc {f : Func} (h : checkFunc resolve f = .ok ()) :
    (∀ p ∈ f.params, p.ty ≠ .void ∧ ∀ t, p.ty ≠ .tape t) ∧
      ∀ body, f.body = some body → checkBody resolve f.ret f.scope body = .ok () := by
  simp only [checkFunc, except_bind_eq_ok] at h
  obtain ⟨env, hparams, h⟩ := h
  obtain ⟨rfl, hps⟩ := of_checkParams hparams
  refine ⟨hps, fun body hbody => ?_⟩
  simpa only [hbody, List.append_nil, Func.scope] using h

theorem ne_tape_of_checkFunc {f : Func} (h : checkFunc resolve f = .ok ()) :
    ∀ q ∈ f.params, ∀ t, q.ty ≠ .tape t :=
  fun q hq => ((of_checkFunc h).1 q hq).2

/-! ### Statements -/

/-- What is known of code that passed: the checker gives its expressions types, and no local is
another name of an array. -/
structure Passed (resolve : Resolver) (points : List (TyEnv × Expr)) (locals : List Local) :
    Prop where
  checked : ∀ p ∈ points, (Rule.checked resolve p.1).part p.2
  arrays : ∀ d ∈ locals, d.ty.isArray = true → d.init = none

theorem Passed.append {ps ps' : List (TyEnv × Expr)} {ls ls' : List Local}
    (h : Passed resolve ps ls) (h' : Passed resolve ps' ls') :
    Passed resolve (ps ++ ps') (ls ++ ls') :=
  ⟨List.forall_mem_append.mpr ⟨h.checked, h'.checked⟩,
    List.forall_mem_append.mpr ⟨h.arrays, h'.arrays⟩⟩

theorem passed_parts {es : List Expr} (h : ∀ e ∈ es, (Rule.checked resolve env).part e) :
    Passed resolve (es.map (env, ·)) [] :=
  ⟨List.forall_mem_map.mpr h, by simp⟩

theorem passed_local {d : Local} (h : checkLocal resolve env d = .ok env') :
    Passed resolve (d.parts.map (env, ·)) [d] := by
  refine ⟨(passed_parts (checked_of_checkLocal h)).checked, fun d' hd harray => ?_⟩
  obtain rfl := List.mem_singleton.mp hd
  -- only a declaration with a length declares an array
  rcases (of_checkLocal h).2.1 with hscalar | ⟨elem, htape, _⟩
  · cases hty : d'.ty <;> simp_all [Ty.isScalar, Ty.isArray]
  · simp [htape, Ty.isArray] at harray

theorem passed_condition {e : Expr} {u : Unit} (h : checkCondition resolve env e = .ok u) :
    Passed resolve (e.parts.map (env, ·)) [] :=
  passed_parts (checked_of_checkExpr e (of_checkCondition h))

mutual

theorem passed_stmt : ∀ {s : Stmt} {env env' : TyEnv}, checkStmt resolve ret env s = .ok env' →
    Passed resolve (s.points env) s.locals
  | .decl d, env, env', h => passed_local (by rwa [checkStmt] at h)
  | .arrayDecl x elem len, env, env', h => by
    have hlen := checked_of_checkExpr len (of_checkStmt_arrayDecl h).2.1
    refine ⟨(passed_parts hlen).checked, fun d hd _ => ?_⟩
    rw [List.mem_singleton.mp hd]
  | .assign a, env, env', h => by
    simp only [checkStmt, except_bind_eq_ok] at h
    obtain ⟨_, ha, _⟩ := h
    exact passed_parts (checked_of_checkAssignment ha)
  | .cond test yes no, env, env', h => by
    simp only [checkStmt, except_bind_eq_ok] at h
    obtain ⟨_, htest, _, hyes, _, hno, _⟩ := h
    exact (passed_condition htest).append ((passed_body hyes).append (passed_body hno))
  | .for_ init test step body, env, env', h => by
    simp only [checkStmt_for, except_bind_eq_ok] at h
    obtain ⟨inner, hinit, _, htest, _, hstep, _, hbody, _⟩ := h
    obtain rfl := eq_afterInit_of_checkInit? hinit
    have htests : ∀ e ∈ (test.map Expr.parts).getD [],
        (Rule.checked resolve (env.afterInit init)).part e := by
      cases test with
      | none => simp
      | some e => exact checked_of_checkExpr e (of_checkCondition htest)
    have hsteps : ∀ e ∈ (step.map Assignment.parts).getD [],
        (Rule.checked resolve (env.afterInit init)).part e := by
      cases step with
      | none => simp
      | some a => exact checked_of_checkAssignment hstep
    refine Passed.append ?_ ((passed_parts htests).append
      ((passed_parts hsteps).append (passed_body hbody)))
    rcases init with _ | (d | a)
    · exact passed_parts (by simp)
    · exact passed_local hinit
    · simp only [checkInit?, checkLoopInit, except_bind_eq_ok] at hinit
      obtain ⟨_, ha, _⟩ := hinit
      exact passed_parts (checked_of_checkAssignment ha)
  | .while_ test body, env, env', h => by
    simp only [checkStmt, except_bind_eq_ok] at h
    obtain ⟨_, htest, _, hbody, _⟩ := h
    exact (passed_condition htest).append (passed_body hbody)
  | .ret value, env, env', h => by
    simp only [checkStmt, except_bind_eq_ok] at h
    obtain ⟨_, hret, _⟩ := h
    refine passed_parts ?_
    cases value with
    | none => simp
    | some e =>
      obtain ⟨t, ht, _⟩ := of_checkReturn_some hret
      exact checked_of_checkExpr e ht
  | .expr e, env, env', h => by
    simp only [checkStmt, except_bind_eq_ok] at h
    obtain ⟨t, ht, _⟩ := h
    exact passed_parts (checked_of_checkExpr e ht)
  | .block body, env, env', h => by
    simp only [checkStmt, except_bind_eq_ok] at h
    obtain ⟨_, hbody, _⟩ := h
    exact passed_body hbody

theorem passed_body : ∀ {body : List Stmt} {env : TyEnv} {u : Unit},
    checkBody resolve ret env body = .ok u → Passed resolve (pointsIn env body) (localsIn body)
  | [], _, _, _ => ⟨by simp [pointsIn], by simp [localsIn]⟩
  | s :: rest, env, _, h => by
    simp only [checkBody, except_bind_eq_ok] at h
    obtain ⟨env', hs, hrest⟩ := h
    obtain rfl := eq_after_of_checkStmt hs
    exact (passed_stmt hs).append (passed_body hrest)

end

theorem passed_of_checkFunc {f : Func} (h : checkFunc resolve f = .ok ()) :
    Passed resolve f.points (localsIn f.stmts) := by
  unfold Func.points Func.stmts
  cases hbody : f.body with
  | none => exact ⟨by simp [pointsIn], by simp [localsIn]⟩
  | some body => exact passed_body ((of_checkFunc h).2 body hbody)

/-- Every expression of a checked function is checked somewhere. -/
theorem exists_checked_of_mem {f : Func} (h : checkFunc resolve f = .ok ()) {e : Expr}
    (he : e ∈ partsOf f.stmts) : ∃ env, (Rule.checked resolve env).part e := by
  rw [← map_pointsIn f.scope] at he
  obtain ⟨⟨env, _⟩, hp, rfl⟩ := List.mem_map.mp he
  exact ⟨env, (passed_of_checkFunc h).checked _ hp⟩

end Typing

end Fluxion
