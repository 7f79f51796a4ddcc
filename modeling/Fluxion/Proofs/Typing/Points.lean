import Fluxion.Proofs.Typing.Calls

/-!
Types hold at every point that a run passes through: the variables in scope stand for storage of
their types, and all storage keeps the type that it had at earlier points.
-/

namespace Fluxion

variable {K : Type}

namespace Typing

variable {resolve : Resolver} {types : TyEnv}

theorem checkArgs_take {es : List Expr} {ts : List Ty} (h : checkArgs resolve types es = .ok ts)
    (i : Nat) : checkArgs resolve types (es.take i) = .ok (ts.take i) := by
  induction es generalizing ts i with
  | nil =>
    cases h
    simp [checkArgs]
  | cons e es ih =>
    cases i with
    | zero => simp [checkArgs]
    | succ i =>
      obtain ⟨te, t, rest, he, ht, hrest, rfl⟩ := of_checkArgs_cons h
      simp only [List.take_succ_cons, checkArgs, except_bind_eq_ok, ht, except_pure_eq_ok]
      exact ⟨te, he, _, ih hrest i, rfl⟩

theorem checkExprs_take {es : List Expr} {ts : List Ty} (h : checkExprs resolve types es = .ok ts)
    (i : Nat) : checkExprs resolve types (es.take i) = .ok (ts.take i) := by
  induction es generalizing ts i with
  | nil =>
    cases h
    simp [checkExprs]
  | cons e es ih =>
    cases i with
    | zero => simp [checkExprs]
    | succ i =>
      obtain ⟨t, rest, ht, hrest, rfl⟩ := of_checkExprs_cons h
      simp only [List.take_succ_cons, checkExprs, except_bind_eq_ok, except_pure_eq_ok]
      exact ⟨t, ht, _, ih hrest i, rfl⟩

end Typing

/-- The code passed the checker with these variables, and keeps to the rule on numerical
derivatives. -/
def Code.Checked (p : Program) (types : TyEnv) : Code → Prop
  | .expr e => (∃ t, Typing.checkExpr p.resolve types e = .ok t) ∧ (differenceRule False p).Expr e
  | .assignment a =>
    Typing.checkAssignment p.resolve types a = .ok () ∧ (differenceRule False p).Assignment a
  | .stmt st =>
    (∃ ret types', Typing.checkStmt p.resolve ret types st = .ok types') ∧
      (differenceRule False p).Stmt st
  | .body b =>
    (∃ ret, Typing.checkBody p.resolve ret types b = .ok ()) ∧ (differenceRule False p).Body b
  | .loop test step b =>
    (Typing.checkTest? p.resolve types test = .ok () ∧
      ∀ e, test = some e → (differenceRule False p).Expr e) ∧
    (Typing.checkStep? p.resolve types step = .ok () ∧
      ∀ a, step = some a → (differenceRule False p).Assignment a) ∧
    (∃ ret, Typing.checkBody p.resolve ret types b = .ok ()) ∧ (differenceRule False p).Body b

/-- What is in scope at the point has the types that the checker knows it by. -/
def Point.Typed [Scalar K] (p : Program) : Point K → Prop
  | .call _ f bound s =>
    f ∈ p ∧ s.Typed ∧ List.Forall₂ (fun q b => b.HasTy s q.ty) f.params bound
  | .code _ types env c s => Realizes False types env s ∧ c.Checked p types

namespace Machine

open Eval

variable [Scalar K] {m : Machine K} {limit depth : Nat} {types : TyEnv} {env : Env}
  {s s' : Store K}

theorem conforms_context (hm : m.Regular False) (limit depth : Nat) :
    Conforms False (m.context limit depth) :=
  conforms_callAt hm limit depth

section

variable (hm : m.Regular False) (h : Realizes False types env s)

include hm h

theorem retains_of_operands {args : List Expr} {ts : List Ty} {os : List (Operand K)}
    (hts : Typing.checkArgs m.funcs.resolve types args = .ok ts)
    (hr : (differenceRule False m.funcs).Exprs args)
    (hrun : operands (m.context limit depth) env args s = .ok os s') :
    Retains s s' ∧ List.Forall₂ (fun t o => o.HasTy s' t) ts os ∧ List.Forall₂ Placed args os :=
  (sound_operands (fun e _ => sound_operand? (conforms_context hm limit depth) e) h hts
    (fun hst => hst.elim) hr).of_ok hrun

/-- The coordinate of a numerical derivative is read, and whether it is printed. -/
theorem retains_of_coordinate {k print : Expr} {n : Int64} {b : Bool} {s'' : Store K}
    (hk : Typing.checkExpr m.funcs.resolve types k = .ok .int)
    (hprint : Typing.checkExpr m.funcs.resolve types print = .ok .bool)
    (hrk : (differenceRule False m.funcs).Expr k) (hrprint : (differenceRule False m.funcs).Expr print)
    (hindex : evalInt (m.context limit depth) env k s = .ok n s')
    (hbool : evalBool (m.context limit depth) env print s' = .ok b s'') : Retains s s'' := by
  have hctx := conforms_context hm limit depth
  have hr₁ := ((sound_evalInt hctx h hk hrk).of_ok hindex).1
  exact hr₁.trans ((sound_evalBool hctx (h.retained hr₁) hprint hrprint).of_ok hbool).1

theorem retains_of_numbers {args : List Expr} {ts : List Ty} {vs : List (Value K)}
    (hts : Typing.checkExprs m.funcs.resolve types args = .ok ts)
    (hr : (differenceRule False m.funcs).Exprs args)
    (hrun : numbers (m.context limit depth) env args s = .ok vs s') :
    Retains s s' ∧ ∀ v ∈ vs, v.number?.isSome = true :=
  (sound_numbers (fun e _ => sound_operand? (conforms_context hm limit depth) e) id h hts
    hr).of_ok hrun

theorem retains_of_test {e : Expr} {u : Unit} {b : Bool}
    (he : Typing.checkCondition m.funcs.resolve types e = .ok u)
    (hr : (differenceRule False m.funcs).Expr e)
    (hrun : evalBool (m.context limit depth) env e s = .ok b s') : Retains s s' :=
  ((sound_evalBool (conforms_context hm limit depth) h (Typing.of_checkCondition he) hr).of_ok
    hrun).1

theorem retains_of_execBody {body : List Stmt} {ret : Ty} {flow : Flow K}
    (ht : Typing.checkBody m.funcs.resolve ret types body = .ok ())
    (hr : (differenceRule False m.funcs).Body body)
    (hrun : Exec.inScope (execBody (m.context limit depth) limit env body) s = .ok flow s') :
    Retains s s' :=
  ((Sound.inScope (sound_execBody (conforms_context hm limit depth) (fun hst => hst.elim) limit h
    ht hr fun hst => hst.elim)).of_ok hrun).1

end

theorem retains_of_probes (hm : m.Regular False) (hs : s.Typed) {g : Func} (hg : g ∈ m.funcs)
    {point : List (Value K)} {k : Nat}
    (hpoint : ∀ (s : Store K) x, List.Forall₂ (fun p b => b.HasTy s p.ty) g.params
      ((point.set k (.float x)).map (Bound.value (K := K)))) {xs ys : List K}
    (hrun : List.mapM (callAtPoint (m.context limit depth) g point k) xs s = .ok ys s') :
    Retains s s' := by
  have hsound : ∀ (xs : List K) {s : Store K}, s.Typed → Sound False
      (List.mapM (callAtPoint (m.context limit depth) g point k) xs) s fun _ _ => True := by
    intro xs
    induction xs with
    | nil => exact fun hs => Sound.pure hs trivial
    | cons x xs ih =>
      intro s hs
      rw [List.mapM_cons]
      refine (sound_callAtPoint (conforms_context hm limit depth) hs hg (hpoint s x)).bind
        fun _ s₁ hr₁ _ => ?_
      exact (ih hr₁.typed).bind fun _ s₂ hr₂ _ => Sound.pure hr₂.typed trivial
  exact ((hsound xs hs).of_ok hrun).1

section

variable (hm : m.Regular False) {c' : Point K}

include hm

/-- A call enters with the types of its parameters. -/
theorem typed_of_begins_call {f : Func} {bound : List (Bound K)}
    (hc : Point.Typed m.funcs (.call depth f bound s))
    (hbegins : m.Begins limit (.call depth f bound s) c') :
    c'.Typed m.funcs ∧ Retains s c'.store := by
  cases hbegins with
  | @enter depth f bound body env s s' hbody hrun =>
    obtain ⟨hf, hs, hb⟩ := hc
    have hempty : Realizes False [] [] s := ⟨hs, by simp [TyEnv.Describes], by simp⟩
    obtain ⟨hr, h⟩ := (sound_enterAll hempty hb fun hst => hst.elim).of_ok hrun
    rw [List.append_nil] at h
    have hchecked := (Typing.of_checkFunc (Typing.checkFunc_of_check hm.checked hf)).2 body hbody
    exact ⟨⟨h, ⟨_, hchecked⟩, hm.code f hf body hbody⟩, hr⟩

/-- A body's statements begin one after another. -/
theorem typed_of_begins_body {body : List Stmt}
    (hc : Point.Typed m.funcs (.code depth types env (.body body) s))
    (hbegins : m.Begins limit (.code depth types env (.body body) s) c') :
    c'.Typed m.funcs ∧ Retains s c'.store := by
  cases hbegins with
  | first =>
    obtain ⟨h, ⟨ret, ht⟩, hr⟩ := hc
    simp only [Typing.checkBody, except_bind_eq_ok] at ht
    obtain ⟨types', hst, _⟩ := ht
    exact ⟨⟨h, ⟨ret, types', hst⟩, hr.1⟩, .refl h.typed⟩
  | @next depth types env env' st rest s s' hrun =>
    obtain ⟨h, ⟨ret, ht⟩, hr⟩ := hc
    simp only [Typing.checkBody, except_bind_eq_ok] at ht
    obtain ⟨types', hst, hrest⟩ := ht
    have hafter := Typing.eq_after_of_checkStmt hst
    subst hafter
    have hsound : SoundStmt False (m.context limit depth) limit ret st :=
      sound_execStmt (conforms_context hm limit depth) (fun hst => hst.elim) limit st
    obtain ⟨hr', h', _⟩ := (hsound h hst hr.1 fun hst => hst.elim).of_ok hrun
    exact ⟨⟨h', ⟨ret, hrest⟩, hr.2⟩, hr'⟩

/-- The parts of a statement. -/
theorem typed_of_begins_stmt {st : Stmt}
    (hc : Point.Typed m.funcs (.code depth types env (.stmt st) s))
    (hbegins : m.Begins limit (.code depth types env (.stmt st) s) c') :
    c'.Typed m.funcs ∧ Retains s c'.store := by
  cases hbegins with
  | @decl depth types env d e s hinit helem =>
    obtain ⟨h, ⟨ret, types', ht⟩, hr⟩ := hc
    rw [Typing.checkStmt] at ht
    obtain ⟨_, _, hchecked⟩ := Typing.of_checkLocal ht
    obtain ⟨found, hfound, _⟩ := hchecked e hinit
    exact ⟨⟨h, ⟨found, hfound⟩, hr.2 e hinit⟩, .refl h.typed⟩
  | length =>
    obtain ⟨h, ⟨ret, types', ht⟩, hr⟩ := hc
    obtain ⟨_, hlen, _⟩ := Typing.of_checkStmt_arrayDecl ht
    exact ⟨⟨h, ⟨_, hlen⟩, hr.2⟩, .refl h.typed⟩
  | assign =>
    obtain ⟨h, ⟨ret, types', ht⟩, hr⟩ := hc
    simp only [Typing.checkStmt, except_bind_eq_ok] at ht
    obtain ⟨_, ha, _⟩ := ht
    exact ⟨⟨h, ha, hr⟩, .refl h.typed⟩
  | test =>
    obtain ⟨h, ⟨ret, types', ht⟩, hr⟩ := hc
    simp only [Typing.checkStmt, except_bind_eq_ok] at ht
    obtain ⟨_, htest, _⟩ := ht
    exact ⟨⟨h, ⟨_, Typing.of_checkCondition htest⟩, hr.1⟩, .refl h.typed⟩
  | yes hrun =>
    obtain ⟨h, ⟨ret, types', ht⟩, hr⟩ := hc
    simp only [Typing.checkStmt, except_bind_eq_ok] at ht
    obtain ⟨_, htest, _, hyes, _⟩ := ht
    have hr' := retains_of_test hm h htest hr.1 hrun
    exact ⟨⟨h.retained hr', ⟨ret, hyes⟩, hr.2.1⟩, hr'⟩
  | no hrun =>
    obtain ⟨h, ⟨ret, types', ht⟩, hr⟩ := hc
    simp only [Typing.checkStmt, except_bind_eq_ok] at ht
    obtain ⟨_, htest, _, _, _, hno, _⟩ := ht
    have hr' := retains_of_test hm h htest hr.1 hrun
    exact ⟨⟨h.retained hr', ⟨ret, hno⟩, hr.2.2⟩, hr'⟩
  | @init depth types env i test step body s =>
    obtain ⟨h, ⟨ret, types', ht⟩, hr⟩ := hc
    rw [Typing.checkStmt_for] at ht
    simp only [except_bind_eq_ok] at ht
    obtain ⟨inner, hinit, _⟩ := ht
    have hstmt : Typing.checkStmt m.funcs.resolve ret types i.toStmt = .ok inner := by
      cases i <;> rwa [LoopInit.toStmt, Typing.checkStmt]
    have hrule : (differenceRule False m.funcs).Stmt i.toStmt := by
      cases i <;> exact hr.1 _ rfl
    exact ⟨⟨h, ⟨ret, inner, hstmt⟩, hrule⟩, .refl h.typed⟩
  | for_ hrun =>
    obtain ⟨h, ⟨ret, types', ht⟩, hr⟩ := hc
    rw [Typing.checkStmt_for] at ht
    simp only [except_bind_eq_ok] at ht
    obtain ⟨inner, hinit, _, htest, _, hstep, _, hbody, _⟩ := ht
    have hafter := Typing.eq_afterInit_of_checkInit? hinit
    subst hafter
    obtain ⟨hr', h'⟩ :=
      (sound_execInit (conforms_context hm limit depth) h hinit hr.1).of_ok hrun
    exact ⟨⟨h', ⟨htest, hr.2.1⟩, ⟨hstep, hr.2.2.1⟩, ⟨ret, hbody⟩, hr.2.2.2⟩, hr'⟩
  | while_ =>
    obtain ⟨h, ⟨ret, types', ht⟩, hr⟩ := hc
    simp only [Typing.checkStmt, except_bind_eq_ok] at ht
    obtain ⟨_, htest, _, hbody, _⟩ := ht
    refine ⟨⟨h, ⟨htest, fun e he => ?_⟩, ⟨rfl, fun a ha => by cases ha⟩, ⟨ret, hbody⟩, hr.2⟩,
      .refl h.typed⟩
    cases he
    exact hr.1
  | ret =>
    obtain ⟨h, ⟨ret, types', ht⟩, hr⟩ := hc
    simp only [Typing.checkStmt, except_bind_eq_ok] at ht
    obtain ⟨_, hreturn, _⟩ := ht
    obtain ⟨found, hfound, _⟩ := Typing.of_checkReturn_some hreturn
    exact ⟨⟨h, ⟨found, hfound⟩, hr.2 _ rfl⟩, .refl h.typed⟩
  | expr =>
    obtain ⟨h, ⟨ret, types', ht⟩, hr⟩ := hc
    simp only [Typing.checkStmt, except_bind_eq_ok] at ht
    obtain ⟨t, he, _⟩ := ht
    exact ⟨⟨h, ⟨t, he⟩, hr⟩, .refl h.typed⟩
  | block =>
    obtain ⟨h, ⟨ret, types', ht⟩, hr⟩ := hc
    simp only [Typing.checkStmt, except_bind_eq_ok] at ht
    obtain ⟨_, hbody, _⟩ := ht
    exact ⟨⟨h, ⟨ret, hbody⟩, hr⟩, .refl h.typed⟩

/-- A round of a loop. -/
theorem typed_of_begins_loop {test : Option Expr} {step : Option Assignment} {body : List Stmt}
    (hc : Point.Typed m.funcs (.code depth types env (.loop test step body) s))
    (hbegins : m.Begins limit (.code depth types env (.loop test step body) s) c') :
    c'.Typed m.funcs ∧ Retains s c'.store := by
  cases hbegins with
  | loopTest =>
    obtain ⟨h, ⟨htest, hr⟩, _⟩ := hc
    exact ⟨⟨h, ⟨_, Typing.of_checkCondition htest⟩, hr _ rfl⟩, .refl h.typed⟩
  | loopBody htrue =>
    obtain ⟨h, ⟨htest, hrtest⟩, _, hbody, hrbody⟩ := hc
    have hr := ((sound_execTest (conforms_context hm limit depth) h htest hrtest).of_ok htrue).1
    exact ⟨⟨h.retained hr, hbody, hrbody⟩, hr⟩
  | loopStep htrue hround =>
    obtain ⟨h, ⟨htest, hrtest⟩, ⟨hstep, hrstep⟩, ⟨ret, hbody⟩, hrbody⟩ := hc
    have hr₁ := ((sound_execTest (conforms_context hm limit depth) h htest hrtest).of_ok htrue).1
    have hr₂ := retains_of_execBody hm (h.retained hr₁) hbody hrbody hround
    exact ⟨⟨(h.retained hr₁).retained hr₂, hstep, hrstep _ rfl⟩, hr₁.trans hr₂⟩
  | again htrue hround hnext =>
    obtain ⟨h, ⟨htest, hrtest⟩, ⟨hstep, hrstep⟩, ⟨ret, hbody⟩, hrbody⟩ := hc
    have hr₁ := ((sound_execTest (conforms_context hm limit depth) h htest hrtest).of_ok htrue).1
    have hr₂ := hr₁.trans (retains_of_execBody hm (h.retained hr₁) hbody hrbody hround)
    have hsound := sound_execStep (conforms_context hm limit depth) (h.retained hr₂) hstep hrstep
    have hr₃ := hr₂.trans (hsound.of_ok hnext).1
    exact ⟨⟨h.retained hr₃, ⟨htest, hrtest⟩, ⟨hstep, hrstep⟩, ⟨ret, hbody⟩, hrbody⟩, hr₃⟩

/-- An assignment's position and value. -/
theorem typed_of_begins_assignment {a : Assignment}
    (hc : Point.Typed m.funcs (.code depth types env (.assignment a) s))
    (hbegins : m.Begins limit (.code depth types env (.assignment a) s) c') :
    c'.Typed m.funcs ∧ Retains s c'.store := by
  cases hbegins with
  | position hplace =>
    obtain ⟨h, ha, hr⟩ := hc
    obtain ⟨target, _, hchecked, _⟩ := Typing.of_checkAssignment ha
    have hrplace := hr.2.1
    rw [hplace] at hchecked hrplace
    exact ⟨⟨h, ⟨_, (Typing.of_checkPlace_index hchecked).1⟩, hrplace⟩, .refl h.typed⟩
  | value hrun =>
    obtain ⟨h, ha, hr⟩ := hc
    obtain ⟨target, found, hchecked, hvalue, _⟩ := Typing.of_checkAssignment ha
    have hr' := ((sound_slotOf (conforms_context hm limit depth) h hchecked hr.2.1).of_ok hrun).1
    exact ⟨⟨h.retained hr', ⟨found, hvalue⟩, hr.2.2⟩, hr'⟩

/-- The parts of an expression, and the calls that it makes. -/
theorem typed_of_begins_expr {e : Expr}
    (hc : Point.Typed m.funcs (.code depth types env (.expr e) s))
    (hbegins : m.Begins limit (.code depth types env (.expr e) s) c') :
    c'.Typed m.funcs ∧ Retains s c'.store := by
  cases hbegins with
  | index =>
    obtain ⟨h, ⟨t, ht⟩, hr⟩ := hc
    exact ⟨⟨h, ⟨_, (Typing.of_checkExpr_index ht).1⟩, (Rule.expr_index.mp hr).2⟩, .refl h.typed⟩
  | unary =>
    obtain ⟨h, ⟨t, ht⟩, hr⟩ := hc
    obtain ⟨te, he, _⟩ := Typing.of_checkExpr_unary ht
    exact ⟨⟨h, ⟨te, he⟩, (Rule.expr_unary.mp hr).2⟩, .refl h.typed⟩
  | left =>
    obtain ⟨h, ⟨t, ht⟩, hr⟩ := hc
    obtain ⟨tl, _, hl, _⟩ := Typing.of_checkExpr_binary ht
    exact ⟨⟨h, ⟨tl, hl⟩, (Rule.expr_binary.mp hr).2.1⟩, .refl h.typed⟩
  | right hrun _ =>
    obtain ⟨h, ⟨t, ht⟩, hr⟩ := hc
    obtain ⟨tl, tr, hl, hr', _⟩ := Typing.of_checkExpr_binary ht
    obtain ⟨_, hrl, hrr⟩ := Rule.expr_binary.mp hr
    have hsound := sound_eval (conforms_context hm limit depth) h hl hrl fun hst => hst.elim
    have hretains := (hsound.of_ok hrun).1
    exact ⟨⟨h.retained hretains, ⟨tr, hr'⟩, hrr⟩, hretains⟩
  | len hf =>
    obtain ⟨h, ⟨t, ht⟩, hr⟩ := hc
    obtain ⟨x, elem, len, hargs, hx, _⟩ := Typing.of_checkExpr_len ht hf
    cases hargs
    refine ⟨⟨h, ⟨.array elem len, ?_⟩, (Rule.expr_call.mp hr).2 _ List.mem_cons_self⟩,
      .refl h.typed⟩
    simp only [Typing.checkExpr, except_bind_eq_ok, except_pure_eq_ok, Typing.lookup_eq_ok]
    exact ⟨_, hx, rfl⟩
  | push hf =>
    obtain ⟨h, ⟨t, ht⟩, hr⟩ := hc
    obtain ⟨x, v, elem, hargs, _, hvalue, _⟩ := Typing.of_checkExpr_push ht hf
    cases hargs
    exact ⟨⟨h, ⟨t, hvalue⟩, (Rule.expr_call.mp hr).2 _ (by simp)⟩, .refl h.typed⟩
  | @arg depth types env f args i e os s s' hf hrun hi =>
    obtain ⟨h, ⟨t, ht⟩, hr⟩ := hc
    obtain ⟨ts, callee, hts, _⟩ := Typing.of_checkExpr_call ht hf
    have hargs := (Rule.expr_call.mp hr).2
    have hmem := List.mem_of_getElem? hi
    have hr' := (retains_of_operands hm h (Typing.checkArgs_take hts i)
      (fun e he => hargs e (List.mem_of_mem_take he)) hrun).1
    exact ⟨⟨h.retained hr', Typing.exists_checkExpr_of_checkArgs hts hmem, hargs e hmem⟩, hr'⟩
  | @call depth types env f args os g bound s s' s'' hf hrun hres hbind =>
    obtain ⟨h, ⟨t, ht⟩, hr⟩ := hc
    obtain ⟨ts, callee, hts, hstatic, hbinding, _⟩ := Typing.of_checkExpr_call ht hf
    obtain ⟨hr', hos, hplaced⟩ := retains_of_operands hm h hts (Rule.expr_call.mp hr).2 hrun
    have hsame := resolve_operands hm.lengths hos hstatic
    obtain rfl : callee = g := by simpa [hsame] using hres
    obtain ⟨hmem, _⟩ := mem_of_resolve hstatic
    obtain ⟨c, hcost⟩ := exists_cost_of_resolve hstatic
    have hsound : Sound False (bindOperands callee callee.params os) s' fun bound s'' =>
        s'' = s' ∧ List.Forall₂ (fun p b => b.HasTy s' p.ty) callee.params bound :=
      sound_bindOperands hr'.typed hos hplaced hcost hbinding (hm.params hmem) fun hst => hst.elim
    obtain ⟨_, rfl, hbound⟩ := hsound.of_ok hbind
    exact ⟨⟨hmem, hr'.typed, hbound⟩, hr'⟩
  | coordinate hf =>
    obtain ⟨h, ⟨t, ht⟩, hr⟩ := hc
    obtain ⟨_, _, _, _, _, _, hargs, hk, _⟩ := Typing.of_checkExpr_difference ht hf
    cases hargs
    exact ⟨⟨h, ⟨_, hk⟩, (Rule.expr_call.mp hr).2 _ (by simp)⟩, .refl h.typed⟩
  | print hf hindex =>
    obtain ⟨h, ⟨t, ht⟩, hr⟩ := hc
    obtain ⟨_, _, _, _, _, _, hargs, hk, hprint, _⟩ := Typing.of_checkExpr_difference ht hf
    cases hargs
    have hrargs := (Rule.expr_call.mp hr).2
    have hsound := sound_evalInt (conforms_context hm limit depth) h hk (hrargs _ (by simp))
    have hr' := (hsound.of_ok hindex).1
    exact ⟨⟨h.retained hr', ⟨_, hprint⟩, hrargs _ (by simp)⟩, hr'⟩
  | @number depth types env f target k print rest n b i e vs s s' s'' s₃ hf hindex hbool hrun hi =>
    obtain ⟨h, ⟨t, ht⟩, hr⟩ := hc
    obtain ⟨_, _, _, _, ts, _, hargs, hk, hprint, hrest, _⟩ := Typing.of_checkExpr_difference ht hf
    cases hargs
    have hrargs := (Rule.expr_call.mp hr).2
    have hr₂ := retains_of_coordinate hm h hk hprint (hrargs _ (by simp)) (hrargs _ (by simp)) hindex
      hbool
    have hrrest : (differenceRule False m.funcs).Exprs rest :=
      fun e he => hrargs e (by simp [he])
    have hr₃ := hr₂.trans (retains_of_numbers hm (h.retained hr₂) (Typing.checkExprs_take hrest i)
      (fun e he => hrrest e (List.mem_of_mem_take he)) hrun).1
    have hmem := List.mem_of_getElem? hi
    exact ⟨⟨h.retained hr₃, Typing.exists_checkExpr_of_checkExprs hrest hmem, hrrest e hmem⟩, hr₃⟩
  | @probe depth types env f target k print rest n b point g xs ys x s s' s'' s₃ s₄ hf hindex hbool
      hrun hres hprobes =>
    obtain ⟨h, ⟨t, ht⟩, hr⟩ := hc
    obtain ⟨_, _, _, _, ts, _, hargs, hk, hprint, hrest, _⟩ := Typing.of_checkExpr_difference ht hf
    cases hargs
    obtain ⟨hpart, hrargs⟩ := Rule.expr_call.mp hr
    have hr₂ := retains_of_coordinate hm h hk hprint (hrargs _ (by simp)) (hrargs _ (by simp)) hindex
      hbool
    obtain ⟨hr₃, hnumbers⟩ := retains_of_numbers hm (h.retained hr₂) hrest
      (fun e he => hrargs e (by simp [he])) hrun
    obtain ⟨hmem, hname⟩ := mem_of_resolve hres
    obtain ⟨c, hcost⟩ := exists_cost_of_resolve hres
    have hpoint : ∀ (s : Store K) x, List.Forall₂ (fun p b => b.HasTy s p.ty) g.params
        ((point.set n.toInt.toNat (.float x)).map (Bound.value (K := K))) := fun s x =>
      hasTy_point hcost ((hpart hf).2 target rfl g hmem hname) hnumbers _ x
    have hr₄ := retains_of_probes hm hr₃.typed hmem hpoint hprobes
    exact ⟨⟨hmem, hr₄.typed, hpoint s₄ x⟩, (hr₂.trans hr₃).trans hr₄⟩

end

/-- What begins inside of a typed point is typed, and storage keeps its types. -/
theorem typed_of_begins (hm : m.Regular False) {c c' : Point K} (hbegins : m.Begins limit c c')
    (hc : c.Typed m.funcs) : c'.Typed m.funcs ∧ Retains c.store c'.store := by
  cases c with
  | call depth f bound s => exact typed_of_begins_call hm hc hbegins
  | code depth types env code s =>
    cases code with
    | expr e => exact typed_of_begins_expr hm hc hbegins
    | assignment a => exact typed_of_begins_assignment hm hc hbegins
    | stmt st => exact typed_of_begins_stmt hm hc hbegins
    | body b => exact typed_of_begins_body hm hc hbegins
    | loop test step b => exact typed_of_begins_loop hm hc hbegins

/-- Types hold at every point of a run that starts where they hold. -/
theorem typed_of_reaches (hm : m.Regular False) {c c' : Point K} (hreach : m.Reaches limit c c')
    (hc : c.Typed m.funcs) (hs : c.store.Typed) :
    c'.Typed m.funcs ∧ Retains c.store c'.store := by
  induction hreach with
  | refl => exact ⟨hc, .refl hs⟩
  | tail _ hbegins ih =>
    obtain ⟨htyped, hr⟩ := typed_of_begins hm hbegins ih.1
    exact ⟨htyped, ih.2.trans hr⟩

end Machine

end Fluxion
