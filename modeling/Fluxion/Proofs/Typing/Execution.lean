import Fluxion.Proofs.Typing.Evaluation
import Fluxion.Proofs.Typing.Passed

/-!
Executing statements that passed the checker leaves the variables with their types, and a function
returns what its result type promises.
-/

namespace Fluxion

variable {K : Type}

/-- Induction on a statement; where it has a body it is on all statements of the body. -/
@[elab_as_elim]
theorem Stmt.induct {P : Stmt → Prop} (decl : ∀ d, P (.decl d))
    (arrayDecl : ∀ x elem len, P (.arrayDecl x elem len)) (assign : ∀ a, P (.assign a))
    (cond : ∀ test yes no, (∀ st ∈ yes, P st) → (∀ st ∈ no, P st) → P (.cond test yes no))
    (for_ : ∀ init test step body, (∀ st ∈ body, P st) → P (.for_ init test step body))
    (while_ : ∀ test body, (∀ st ∈ body, P st) → P (.while_ test body))
    (ret : ∀ value, P (.ret value)) (expr : ∀ e, P (.expr e))
    (block : ∀ body, (∀ st ∈ body, P st) → P (.block body)) (st : Stmt) : P st :=
  Stmt.rec (motive_2 := fun body => ∀ st ∈ body, P st) decl arrayDecl assign cond for_ while_ ret
    expr block (by simp) (fun _ _ hst hbody => List.forall_mem_cons.mpr ⟨hst, hbody⟩) st

/-! ### Types of scalars -/

theorem Ty.value_of_isScalar {t : Ty} (h : t.isScalar = true) : t.value = t := by
  cases t <;> first | rfl | cases h

theorem Ty.isStorage_of_isScalar {t : Ty} (h : t.isScalar = true) : t.isStorage = true := by
  cases t <;> first | exact h | cases h

section

variable [Scalar K]

theorem Value.zeroOf?_of_isScalar {t : Ty} (h : t.isScalar = true) :
    ∃ v : Value K, Value.zeroOf? t = some v ∧ v.ty = t := by
  rcases Ty.isScalar_iff.mp h with rfl | rfl | rfl <;> exact ⟨_, rfl, rfl⟩

theorem Value.coerce_value {t : Ty} {v : Value K} (h : t.value.isScalar = true) :
    v.coerce t.value = v.coerce t := by
  simp only [Value.coerce, Ty.value_of_isScalar h]

omit [Scalar K] in
/-- What is assigned with an operator has a value of the target's type. -/
theorem AssignOp.result?_of_takes {a : AssignOp} {op : BinOp} {target found : Ty} {v : Value K}
    (hop : a.binOp? = some op) (htarget : target.isNumeric = true) (hv : v.ty = found.value)
    (h : target.takes found = true) : op.result? target found = some target := by
  simp only [BinOp.result?, ← hv]
  rcases Ty.value_of_takes v.isScalar_ty hv.symm h with hvalue | ⟨rfl, hint⟩
  · rw [← hvalue]
    cases target <;> cases htarget <;> cases a <;> cases hop <;> rfl
  · rw [hint]
    cases a <;> cases hop <;> rfl

end

mutual

/-- No expression statement is only the name of an array or a tape. -/
def Stmt.hasValues (types : TyEnv) : Stmt → Bool
  | .expr (.var x) => (types.element? x).isNone
  | .cond _ yes no => bodyHasValues types yes && bodyHasValues types no
  | .for_ init _ _ body => bodyHasValues (types.afterInit init) body
  | .while_ _ body => bodyHasValues types body
  | .block body => bodyHasValues types body
  | _ => true

/-- No expression statement of the body is only the name of an array or a tape. -/
def bodyHasValues (types : TyEnv) : List Stmt → Bool
  | [] => true
  | s :: rest => s.hasValues types && bodyHasValues (types.after s) rest

end

theorem Realizes.cons {strict : Prop} {types : TyEnv} {env : Env} {s s' : Store K}
    (h : Realizes strict types env s) (hr : Retains s s') {x : String} {t : Ty} {b : Binding}
    (hb : b.HasTy s' t) (ht : strict → t.isStorage = true) :
    Realizes strict ((x, t) :: types) ((x, b) :: env) s' := by
  refine ⟨hr.typed, (h.describes.retained hr).cons hb, fun hst y t' hy => ?_⟩
  by_cases hxy : y = x
  · subst hxy
    simp only [List.lookup_cons_self, Option.some.injEq] at hy
    exact hy ▸ ht hst
  · rw [lookup_cons_of_ne hxy] at hy
    exact h.storage hst y t' hy

namespace Eval

/-- What the function returns, if it returns, is taken by its result type. -/
def Flow.HasTy (ret : Ty) : Flow K → Prop
  | .ret (some v) => ∃ found : Ty, ret.takes found = true ∧ v.ty = found.value
  | _ => True

variable {strict : Prop} {ctx : Context K} {types : TyEnv} {env : Env} {s : Store K} {ret : Ty}

theorem sound_rounds {test : Exec K Bool} {body : Exec K (Flow K)} {step : Exec K Unit}
    (htest : ∀ s', Retains s s' → Sound strict test s' fun _ _ => True)
    (hbody : ∀ s', Retains s s' → Sound strict body s' fun flow _ => flow.HasTy ret)
    (hstep : ∀ s', Retains s s' → Sound strict step s' fun _ _ => True) (n : Nat) {s' : Store K}
    (hr : Retains s s') : Sound strict (rounds test body step n) s' fun flow _ => flow.HasTy ret := by
  induction n generalizing s' with
  | zero => exact ⟨.refl hr.typed, fun _ => rfl⟩
  | succ n ih =>
    unfold rounds
    refine (htest s' hr).bind fun b s₁ hr₁ _ => ?_
    have hr₁' := hr.trans hr₁
    split
    · refine (hbody s₁ hr₁').bind fun flow s₂ hr₂ hflow => ?_
      have hr₂' := hr₁'.trans hr₂
      cases flow with
      | ret v => exact Sound.pure hr₂'.typed hflow
      | next => exact (hstep s₂ hr₂').bind fun _ s₃ hr₃ _ => ih (hr₂'.trans hr₃)
    · exact Sound.pure hr₁'.typed trivial

/-- In a strict run only the names of arrays and tapes have no value. -/
theorem element?_of_checkExpr [Scalar K] (hctx : Conforms strict ctx)
    (h : Realizes strict types env s) (hst : strict) {e : Expr} {t : Ty}
    (ht : Typing.checkExpr ctx.funcs.resolve types e = .ok t)
    (hvar : ∀ x, e = .var x → types.element? x = none) : t.element? = none := by
  have hread : ∀ {a : Ty}, a.isScalar = true → a.element? = none := by
    intro a ha
    cases a <;> first | rfl | cases ha
  cases e with
  | float _ | int _ | bool _ =>
    cases ht
    rfl
  | funcRef _ => cases ht
  | var x =>
    obtain ⟨declared, hx, rfl⟩ := Typing.of_checkExpr_var ht
    have hnone := hvar x rfl
    have hstorage := h.storage hst x _ hx
    simp only [TyEnv.element?, hx, Option.bind_some] at hnone
    cases declared with
    | ref a => exact hread hstorage
    | _ => exact hnone
  | index x i =>
    obtain ⟨_, len, hx⟩ := Typing.of_checkExpr_index ht
    exact hread (h.storage hst x _ hx)
  | unary op e =>
    obtain ⟨te, _, hte⟩ := Typing.result?_of_checkExpr_unary ht
    exact hread (UnOp.isScalar_of_result? hte).2
  | binary op l r =>
    obtain ⟨tl, tr, _, _, hres⟩ := Typing.of_checkExpr_binary ht
    exact hread (BinOp.isScalar_of_result? hres).2.2
  | call f args =>
    cases hf : Intrinsic.ofName? f with
    | none =>
      obtain ⟨ts, callee, _, hres, _, rfl⟩ := Typing.of_checkExpr_call ht hf
      rcases hctx.results hst callee (mem_of_resolve hres).1 with hret | hret
      · exact hread hret
      · rw [hret]
        rfl
    | some intrinsic =>
      cases intrinsic with
      | len =>
        obtain ⟨_, _, _, _, _, rfl⟩ := Typing.of_checkExpr_len ht hf
        rfl
      | push =>
        obtain ⟨x, _, elem, _, hx, _, htakes⟩ := Typing.of_checkExpr_push ht hf
        have := Ty.isRead_of_takes (Ty.isScalar_value (h.storage hst x _ hx)) htakes
        cases t <;> first | rfl | cases this
      | pop =>
        obtain ⟨x, _, hx⟩ := Typing.of_checkExpr_pop ht hf
        exact hread (h.storage hst x _ hx)
      | centralDifference =>
        obtain ⟨_, _, _, _, _, _, _, _, _, _, _, rfl⟩ := Typing.of_checkExpr_difference ht hf
        rfl

variable [Scalar K]

section

variable (hctx : Conforms strict ctx) (h : Realizes strict types env s)

include hctx h

theorem sound_eval? {e : Expr} {t : Ty} (ht : Typing.checkExpr ctx.funcs.resolve types e = .ok t)
    (hr : (differenceRule strict ctx.funcs).Expr e) (hvalue : strict → t.element? = none) :
    Sound strict (eval? ctx env e) s fun v _ => Returned t v :=
  (sound_operand? hctx e h ht hr).bind fun _ _ hr₁ ho =>
    (sound_value? e hr₁.typed ho.1 hvalue).imp fun _ _ _ hv => hv.2

theorem sound_eval {e : Expr} {t : Ty} (ht : Typing.checkExpr ctx.funcs.resolve types e = .ok t)
    (hr : (differenceRule strict ctx.funcs).Expr e) (hvalue : strict → t.isRead = true) :
    Sound strict (eval ctx env e) s fun v _ => v.ty = t.value :=
  (sound_operand? hctx e h ht hr).bind fun _ _ hr₁ ho =>
    (sound_value e hr₁.typed ho.1 hvalue).imp fun _ _ _ hv => hv.2

theorem sound_evalInt {e : Expr} (ht : Typing.checkExpr ctx.funcs.resolve types e = .ok .int)
    (hr : (differenceRule strict ctx.funcs).Expr e) :
    Sound strict (evalInt ctx env e) s fun _ _ => True :=
  (sound_operand? hctx e h ht hr).bind fun _ _ hr₁ ho =>
    (sound_int e hr₁.typed ho.1 rfl).imp fun _ _ _ _ => trivial

theorem sound_evalBool {e : Expr} (ht : Typing.checkExpr ctx.funcs.resolve types e = .ok .bool)
    (hr : (differenceRule strict ctx.funcs).Expr e) :
    Sound strict (evalBool ctx env e) s fun _ _ => True :=
  (sound_operand? hctx e h ht hr).bind fun _ _ hr₁ ho =>
    (sound_bool e hr₁.typed ho.1 rfl).imp fun _ _ _ _ => trivial

theorem sound_slotOf {place : Place} {t : Ty}
    (ht : Typing.checkPlace ctx.funcs.resolve types place = .ok t)
    (hr : (differenceRule strict ctx.funcs).Place place) :
    Sound strict (slotOf ctx env place) s fun slot s' => s'.slotTy? slot = some t.value := by
  cases place with
  | var x =>
    obtain ⟨declared, hx, rfl, helem⟩ := Typing.of_checkPlace_var ht
    obtain ⟨b, hb, hty⟩ := h.describes x _ hx
    simp only [slotOf, lookup_eq hb, pure_bind]
    cases b with
    | scalar slot =>
      have hvalue := Ty.value_of_isScalar (Store.isScalar_of_slotTy? hty)
      exact Sound.pure h.typed (hvalue.symm ▸ hty)
    | array id =>
      obtain ⟨_, _, rfl, _⟩ := hty
      cases helem
    | tape id =>
      obtain ⟨_, rfl, _⟩ := hty
      cases helem
  | index x i =>
    obtain ⟨hi, len, hx⟩ := Typing.of_checkPlace_index ht
    obtain ⟨id, hid, hty⟩ := h.array hx
    simp only [slotOf, arrayOf_eq hid, pure_bind]
    refine (sound_evalInt hctx h hi hr).bind fun index s₁ hr₁ _ => ?_
    refine (sound_elementSlot hr₁.typed (hr₁.arrays hty) index).imp fun slot s₂ _ hslot => ?_
    exact hslot.1 ▸ hslot.2

theorem sound_execLocal {d : Local} {types' : TyEnv}
    (ht : Typing.checkLocal ctx.funcs.resolve types d = .ok types')
    (hr : (differenceRule strict ctx.funcs).Local d) :
    Sound strict (execLocal ctx env d) s fun env' s' => Realizes strict types' env' s' := by
  obtain ⟨rfl, hty, hinit⟩ := Typing.of_checkLocal ht
  rcases hty with hscalar | ⟨elem, hty, hscalar, _⟩
  · have hcell : ∀ (v : Value K) s₁, Retains s s₁ → v.ty = d.ty → Sound strict (do
        let slot ← Exec.newCell v
        return (d.name, .scalar slot) :: env) s₁ fun env' s' =>
          Realizes strict ((d.name, d.ty) :: types) env' s' := by
      intro v s₁ hr₁ hv
      have hnew : Sound strict (Exec.newCell v) s₁ fun slot s' =>
          slot = .cell s₁.cells.size ∧ s' = { s₁ with cells := s₁.cells.push v } :=
        ⟨Retains.newCell hr₁.typed v, rfl, rfl⟩
      refine hnew.bind fun slot s₂ hr₂ hslot => ?_
      obtain ⟨rfl, rfl⟩ := hslot
      refine Sound.pure hr₂.typed (h.cons (hr₁.trans hr₂) ?_ fun _ => ?_)
      · simp [Binding.HasTy, Store.slotTy?, hv, Ty.value_of_isScalar hscalar]
      · exact Ty.isStorage_of_isScalar hscalar
    unfold execLocal
    split
    · rename_i hty
      rw [hty] at hscalar
      cases hscalar
    · rename_i hty
      rw [hty] at hscalar
      cases hscalar
    · dsimp only
      split
      · rename_i e he
        obtain ⟨found, hfound, htakes⟩ := hinit e he
        have hread := Ty.isRead_of_takes (Ty.isScalar_value hscalar) htakes
        refine (sound_eval hctx h hfound (hr.2 e he) fun _ => hread).bind fun v s₁ hr₁ hv => ?_
        refine hcell _ s₁ hr₁ ?_
        rw [Value.ty_coerce_of_takes hv htakes, Ty.value_of_isScalar hscalar]
      · obtain ⟨zero, hzero, hzty⟩ := Value.zeroOf?_of_isScalar (K := K) hscalar
        rw [hzero]
        exact hcell zero s (.refl h.typed) hzty
  · unfold execLocal
    simp only [hty]
    have hnew : Sound strict (Exec.newTape ⟨elem, #[]⟩) s fun id s' =>
        id = s.tapes.size ∧ s' = { s with tapes := s.tapes.push ⟨elem, #[]⟩ } :=
      ⟨Retains.newTape h.typed elem, rfl, rfl⟩
    refine hnew.bind fun id s₁ hr₁ hid => ?_
    obtain ⟨rfl, rfl⟩ := hid
    refine Sound.pure hr₁.typed (h.cons hr₁ ⟨elem, rfl, ?_⟩ fun _ => hscalar)
    simp [Store.tapeTy?]

theorem sound_execArray {x : String} {elem : Ty} {len : Expr} (helem : elem.isScalar = true)
    (ht : Typing.checkExpr ctx.funcs.resolve types len = .ok .int)
    (hr : (differenceRule strict ctx.funcs).Expr len) :
    Sound strict (execArray ctx env x elem len) s fun env' s' =>
      Realizes strict ((x, .arrayOf elem) :: types) env' s' := by
  unfold execArray
  refine (sound_evalInt hctx h ht hr).bind fun n s₁ hr₁ _ => ?_
  obtain ⟨zero, hzero, hzty⟩ := Value.zeroOf?_of_isScalar (K := K) helem
  simp only [hzero, Exec.require, pure_bind]
  split
  · exact Sound.fail hr₁.typed fun _ => rfl
  generalize hb : (⟨elem, Array.replicate n.toInt.toNat zero⟩ : Buffer K) = b
  have hbuffer : b.Typed ∧ b.elem = elem := by
    subst hb
    refine ⟨fun v hv => ?_, rfl⟩
    rw [(Array.mem_replicate.mp hv).2, hzty]
    exact (Ty.value_of_isScalar helem).symm
  have hnew : Sound strict (Exec.newArray b) s₁ fun id s' =>
      id = s₁.arrays.size ∧ s' = { s₁ with arrays := s₁.arrays.push b } :=
    ⟨Retains.newArray hr₁.typed hbuffer.1, rfl, rfl⟩
  refine hnew.bind fun id s₂ hr₂ hid => ?_
  obtain ⟨rfl, rfl⟩ := hid
  refine Sound.pure hr₂.typed (h.cons (hr₁.trans hr₂) ⟨elem, none, rfl, ?_⟩ fun _ => helem)
  simp [Store.arrayTy?, hbuffer.2]

theorem sound_execAssignment {a : Assignment} {u : Unit}
    (ht : Typing.checkAssignment ctx.funcs.resolve types a = .ok u)
    (hr : (differenceRule strict ctx.funcs).Assignment a) :
    Sound strict (execAssignment ctx env a) s fun _ _ => True := by
  obtain ⟨target, found, hplace, hvalue, htakes, hnumeric⟩ := Typing.of_checkAssignment ht
  unfold execAssignment
  refine (sound_slotOf hctx h hplace hr.2.1).bind fun slot s₁ hr₁ hslot => ?_
  have hscalar := Store.isScalar_of_slotTy? hslot
  have hread := Ty.isRead_of_takes hscalar htakes
  refine (sound_eval hctx (h.retained hr₁) hvalue hr.2.2 fun _ => hread).bind
    fun v s₂ hr₂ hv => ?_
  have hslot₂ := hr₂.slots hslot
  have hwrite : ∀ w : Value K, (w.coerce target.value).ty = target.value →
      Sound strict (Exec.write slot w) s₂ fun _ _ => True := by
    intro w hw
    refine ⟨Retains.write hr₂.typed fun t ht => ?_, trivial⟩
    obtain rfl : target.value = t := by simpa [hslot₂] using ht
    exact hw
  split
  · refine hwrite v ?_
    rw [Value.coerce_value hscalar]
    exact Value.ty_coerce_of_takes hv htakes
  · rename_i op hop
    refine Sound.get_bind ?_
    have hold := Store.ty_read hslot₂
    have hnumeric := hnumeric fun hset => by simp [hset, AssignOp.binOp?] at hop
    have hres := AssignOp.result?_of_takes hop hnumeric hv htakes
    refine (sound_lift hr₂.typed (BinOp.ty_apply hold hv hres)).bind fun w s₃ _ hw => ?_
    obtain ⟨rfl, hw⟩ := hw
    refine hwrite w ?_
    rw [Value.coerce_value hscalar]
    refine Value.ty_coerce (.inl ?_)
    rw [hw]
    cases target <;> first | rfl | cases hnumeric

theorem sound_execInit {init : Option LoopInit} {types' : TyEnv}
    (ht : Typing.checkInit? ctx.funcs.resolve types init = .ok types')
    (hr : ∀ i, init = some i → (differenceRule strict ctx.funcs).Init i) :
    Sound strict (execInit ctx env init) s fun env' s' => Realizes strict types' env' s' := by
  rcases init with _ | (d | a)
  · cases ht
    exact Sound.pure h.typed h
  · exact sound_execLocal hctx h ht (hr _ rfl)
  · simp only [Typing.checkInit?, Typing.checkLoopInit, except_bind_eq_ok, except_pure_eq_ok] at ht
    obtain ⟨_, ha, rfl⟩ := ht
    exact (sound_execAssignment hctx h ha (hr _ rfl)).bind fun _ _ hr₁ _ =>
      Sound.pure hr₁.typed (h.retained hr₁)

theorem sound_execTest {test : Option Expr} {u : Unit}
    (ht : Typing.checkTest? ctx.funcs.resolve types test = .ok u)
    (hr : ∀ e, test = some e → (differenceRule strict ctx.funcs).Expr e) :
    Sound strict (execTest ctx env test) s fun _ _ => True := by
  cases test with
  | none => exact Sound.pure h.typed trivial
  | some e => exact sound_evalBool hctx h (Typing.of_checkCondition ht) (hr e rfl)

theorem sound_execStep {step : Option Assignment} {u : Unit}
    (ht : Typing.checkStep? ctx.funcs.resolve types step = .ok u)
    (hr : ∀ a, step = some a → (differenceRule strict ctx.funcs).Assignment a) :
    Sound strict (execStep ctx env step) s fun _ _ => True := by
  cases step with
  | none => exact Sound.pure h.typed trivial
  | some a => exact sound_execAssignment hctx h ht (hr a rfl)

end

/-! ### Statements -/

/-- Wherever the statement passes the checker, its execution is sound. -/
def SoundStmt (strict : Prop) (ctx : Context K) (limit : Nat) (ret : Ty) (st : Stmt) : Prop :=
  ∀ {types types' : TyEnv} {env : Env} {s : Store K}, Realizes strict types env s →
    Typing.checkStmt ctx.funcs.resolve ret types st = .ok types' →
    (differenceRule strict ctx.funcs).Stmt st → (strict → st.hasValues types = true) →
    Sound strict (execStmt ctx limit env st) s fun r s' =>
      Realizes strict types' r.1 s' ∧ r.2.HasTy ret

theorem sound_body {limit : Nat} {body : List Stmt}
    (ih : ∀ st ∈ body, SoundStmt strict ctx limit ret st) (h : Realizes strict types env s)
    (ht : Typing.checkBody ctx.funcs.resolve ret types body = .ok ())
    (hr : (differenceRule strict ctx.funcs).Body body)
    (hvalues : strict → bodyHasValues types body = true) :
    Sound strict (execBody ctx limit env body) s fun flow _ => flow.HasTy ret := by
  induction body generalizing types env s with
  | nil =>
    unfold execBody
    exact Sound.pure h.typed trivial
  | cons st rest ihrest =>
    simp only [Typing.checkBody, except_bind_eq_ok] at ht
    obtain ⟨types', hst, hrest⟩ := ht
    have hafter := Typing.eq_after_of_checkStmt hst
    subst hafter
    simp only [bodyHasValues, Bool.and_eq_true] at hvalues
    unfold execBody
    refine (ih st List.mem_cons_self h hst hr.1 fun h => (hvalues h).1).bind fun r s₁ hr₁ h₁ => ?_
    rcases r with ⟨env', _ | v⟩
    · exact ihrest (fun st' hst' => ih st' (List.mem_cons_of_mem _ hst')) h₁.1 hrest hr.2
        fun h => (hvalues h).2
    · exact Sound.pure hr₁.typed h₁.2

theorem sound_scope {limit : Nat} {body : List Stmt}
    (ih : ∀ st ∈ body, SoundStmt strict ctx limit ret st) (h : Realizes strict types env s)
    (ht : Typing.checkBody ctx.funcs.resolve ret types body = .ok ())
    (hr : (differenceRule strict ctx.funcs).Body body)
    (hvalues : strict → bodyHasValues types body = true) :
    Sound strict (Exec.inScope (execBody ctx limit env body)) s fun flow _ => flow.HasTy ret :=
  Sound.inScope (sound_body ih h ht hr hvalues)

/-- Execution of a statement that passed the checker is sound. -/
theorem sound_execStmt (hctx : Conforms strict ctx)
    (hret : strict → ret.isScalar = true ∨ ret = .void) (limit : Nat) (st : Stmt) :
    SoundStmt strict ctx limit ret st := by
  induction st using Stmt.induct with
  | decl d =>
    intro types types' env s h ht hr _
    unfold execStmt
    rw [Typing.checkStmt] at ht
    exact (sound_execLocal hctx h ht hr).bind fun _ _ hr₁ h₁ => Sound.pure hr₁.typed ⟨h₁, trivial⟩
  | arrayDecl x elem len =>
    intro types types' env s h ht hr _
    obtain ⟨helem, hlen, rfl⟩ := Typing.of_checkStmt_arrayDecl ht
    unfold execStmt
    exact (sound_execArray hctx h helem hlen hr.2).bind fun _ _ hr₁ h₁ =>
      Sound.pure hr₁.typed ⟨h₁, trivial⟩
  | assign a =>
    intro types types' env s h ht hr _
    simp only [Typing.checkStmt, except_bind_eq_ok, except_pure_eq_ok] at ht
    obtain ⟨_, ha, rfl⟩ := ht
    unfold execStmt
    exact (sound_execAssignment hctx h ha hr).bind fun _ _ hr₁ _ =>
      Sound.pure hr₁.typed ⟨h.retained hr₁, trivial⟩
  | cond test yes no ihyes ihno =>
    intro types types' env s h ht hr hvalues
    simp only [Typing.checkStmt, except_bind_eq_ok, except_pure_eq_ok] at ht
    obtain ⟨_, htest, _, hyes, _, hno, rfl⟩ := ht
    simp only [Stmt.hasValues, Bool.and_eq_true] at hvalues
    unfold execStmt
    refine (sound_evalBool hctx h (Typing.of_checkCondition htest) hr.1).bind fun b s₁ hr₁ _ => ?_
    have h₁ := h.retained hr₁
    split
    · exact (sound_scope ihyes h₁ hyes hr.2.1 fun h => (hvalues h).1).bind
        fun _ _ hr₂ hflow => Sound.pure hr₂.typed ⟨h₁.retained hr₂, hflow⟩
    · exact (sound_scope ihno h₁ hno hr.2.2 fun h => (hvalues h).2).bind
        fun _ _ hr₂ hflow => Sound.pure hr₂.typed ⟨h₁.retained hr₂, hflow⟩
  | for_ init test step body ihbody =>
    intro types types' env s h ht hr hvalues
    rw [Typing.checkStmt_for] at ht
    simp only [except_bind_eq_ok, except_pure_eq_ok] at ht
    obtain ⟨inner, hinit, _, htest, _, hstep, _, hbody, rfl⟩ := ht
    have hafter := Typing.eq_afterInit_of_checkInit? hinit
    subst hafter
    have hloop : Sound strict (do
        let inner ← execInit ctx env init
        rounds (execTest ctx inner test) (Exec.inScope (execBody ctx limit inner body))
          (execStep ctx inner step) limit) s fun flow _ => flow.HasTy ret := by
      refine (sound_execInit hctx h hinit hr.1).bind fun env' s₁ hr₁ h₁ => ?_
      refine sound_rounds (fun s' hr' => ?_) (fun s' hr' => ?_) (fun s' hr' => ?_) limit
        (.refl hr₁.typed)
      · exact sound_execTest hctx (h₁.retained hr') htest hr.2.1
      · exact sound_scope ihbody (h₁.retained hr') hbody hr.2.2.2 hvalues
      · exact sound_execStep hctx (h₁.retained hr') hstep hr.2.2.1
    unfold execStmt
    exact (Sound.inScope hloop).bind fun _ _ hr₁ hflow =>
      Sound.pure hr₁.typed ⟨h.retained hr₁, hflow⟩
  | while_ test body ihbody =>
    intro types types' env s h ht hr hvalues
    simp only [Typing.checkStmt, except_bind_eq_ok, except_pure_eq_ok] at ht
    obtain ⟨_, htest, _, hbody, rfl⟩ := ht
    have hloop : Sound strict (rounds (evalBool ctx env test)
        (Exec.inScope (execBody ctx limit env body)) (return ()) limit) s
        fun flow _ => flow.HasTy ret := by
      refine sound_rounds (fun s' hr' => ?_) (fun s' hr' => ?_) (fun s' hr' => ?_) limit
        (.refl h.typed)
      · exact sound_evalBool hctx (h.retained hr') (Typing.of_checkCondition htest) hr.1
      · exact sound_scope ihbody (h.retained hr') hbody hr.2 hvalues
      · exact Sound.pure hr'.typed trivial
    unfold execStmt
    exact hloop.bind fun _ _ hr₁ hflow => Sound.pure hr₁.typed ⟨h.retained hr₁, hflow⟩
  | ret value =>
    intro types types' env s h ht hr _
    simp only [Typing.checkStmt, except_bind_eq_ok, except_pure_eq_ok] at ht
    obtain ⟨_, hreturn, rfl⟩ := ht
    cases value with
    | none =>
      unfold execStmt
      exact Sound.pure h.typed ⟨h, trivial⟩
    | some e =>
      obtain ⟨found, hfound, htakes, hvoid⟩ := Typing.of_checkReturn_some hreturn
      have hvalue : strict → found.element? = none := by
        intro hst
        rcases hret hst with hscalar | rfl
        · exact Ty.element?_of_isRead (Ty.isRead_of_takes (Ty.isScalar_value hscalar) htakes)
        · rw [hvoid rfl]
          rfl
      unfold execStmt
      refine (sound_eval? hctx h hfound (hr.2 e rfl) hvalue).bind fun v s₁ hr₁ hv => ?_
      refine Sound.pure hr₁.typed ⟨h.retained hr₁, ?_⟩
      cases v with
      | none => trivial
      | some v => exact ⟨found, htakes, hv⟩
  | expr e =>
    intro types types' env s h ht hr hvalues
    simp only [Typing.checkStmt, except_bind_eq_ok, except_pure_eq_ok] at ht
    obtain ⟨t, he, rfl⟩ := ht
    have hvalue : strict → t.element? = none := fun hst =>
      element?_of_checkExpr hctx h hst he fun x hx => by
        subst hx
        simpa [Stmt.hasValues] using hvalues hst
    unfold execStmt
    exact (sound_eval? hctx h he hr hvalue).bind fun _ _ hr₁ _ =>
      Sound.pure hr₁.typed ⟨h.retained hr₁, trivial⟩
  | block body ihbody =>
    intro types types' env s h ht hr hvalues
    simp only [Typing.checkStmt, except_bind_eq_ok, except_pure_eq_ok] at ht
    obtain ⟨_, hbody, rfl⟩ := ht
    unfold execStmt
    exact (sound_scope ihbody h hbody hr hvalues).bind fun _ _ hr₁ hflow =>
      Sound.pure hr₁.typed ⟨h.retained hr₁, hflow⟩

theorem sound_execBody (hctx : Conforms strict ctx)
    (hret : strict → ret.isScalar = true ∨ ret = .void) (limit : Nat) {body : List Stmt}
    (h : Realizes strict types env s)
    (ht : Typing.checkBody ctx.funcs.resolve ret types body = .ok ())
    (hr : (differenceRule strict ctx.funcs).Body body)
    (hvalues : strict → bodyHasValues types body = true) :
    Sound strict (execBody ctx limit env body) s fun flow _ => flow.HasTy ret :=
  sound_body (fun st _ => sound_execStmt hctx hret limit st) h ht hr hvalues

end Eval

end Fluxion
