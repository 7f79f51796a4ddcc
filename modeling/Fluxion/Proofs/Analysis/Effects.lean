import Fluxion.Derive.Adjoint
import Fluxion.Proofs.Analysis.Writes
import Fluxion.Proofs.Determined.Analyses
import Fluxion.Proofs.Typing.Agreement

/-!
Expressions that a derived function evaluates more than once. An expression is accepted when no
call in it is found to write floats of its caller. Where its calls write no other storage either,
evaluating it leaves all storage as it was.
-/

namespace Fluxion

open Analysis

variable {K : Type}

/-- The rule of expressions without effects: they use no tape, and call only functions for which the
analysis gives no written parameter. -/
def Rule.effectFree (p : Program) (types : TyEnv) : Rule where
  part
    | .call f args =>
      match Intrinsic.ofName? f with
      | some .push | some .pop => False
      | some _ => True
      | none => ∀ g, (Host.ofProgram p).callee? types f args = some g → p.written g = []
    | _ => True
  target _ := False
  declares _ := False
  returns := False

theorem Host.resolve_ofProgram (p : Program) : (Host.ofProgram p).resolve = p.resolve := by
  funext name types
  simp [Host.resolve, Host.ofProgram, Program.resolve, Program.overloads]

theorem Host.callee?_ofProgram (p : Program) (types : TyEnv) (f : String) (args : List Expr) :
    (Host.ofProgram p).callee? types f args = (types? p.resolve types args).bind (p.resolve f) := by
  rw [Host.callee?, Host.resolve_ofProgram]
  rfl

/-- A run keeps what is under guard, and storage keeps its types. -/
theorem Safe.sound {α : Type} {G : Guard} {m : Exec K α} {s : Store K} {Q R : α → Store K → Prop}
    {strict : Prop} (hm : Safe G m s Q) (hs : Sound strict m s R) :
    Safe G m s fun a s' => Q a s' ∧ Retains s s' ∧ R a s' := by
  unfold Safe at hm ⊢
  unfold Sound at hs
  cases hms : m s with
  | ok a s' =>
    rw [hms] at hm hs
    exact ⟨hm.1, hm.2, hs⟩
  | error e s' =>
    rw [hms] at hm
    exact hm

theorem Operand.HasTy.inside {s : Store K} {t : Ty} {o : Operand K} (h : o.HasTy s t) : o.In s := by
  cases o with
  | value v => trivial
  | place slot v => exact Slot.in_of_slotTy? h.2
  | array id =>
    obtain ⟨_, _, _, hid⟩ := h
    obtain ⟨hb, _⟩ := Store.array_of_arrayTy? hid
    exact (Array.getElem?_eq_some_iff.mp hb).1
  | tape id => trivial

/-- An expression that passed the checker and has no effects. -/
structure Expr.Quiet (p : Program) (types : TyEnv) (e : Expr) : Prop where
  checked : ∃ t, Typing.checkExpr p.resolve types e = .ok t
  differences : (differenceRule False p).Expr e
  effectFree : (Rule.effectFree p types).Expr e

theorem Expr.Quiet.of_index {p : Program} {types : TyEnv} {x : String} {i : Expr}
    (h : (Expr.index x i).Quiet p types) : i.Quiet p types := by
  obtain ⟨t, ht⟩ := h.checked
  exact ⟨⟨_, (Typing.of_checkExpr_index ht).1⟩, (Rule.expr_index.mp h.differences).2,
    (Rule.expr_index.mp h.effectFree).2⟩

/-- The guard of all that a store holds. -/
def Store.guard (s : Store K) : Guard :=
  ⟨fun slot => slot.In s, fun id => id < s.tapes.size, True, False, False, fun _ => False⟩

/-- What is under guard is there, and the variables stand for storage of their types. -/
structure Stands (G : Guard) (types : TyEnv) (env : Env) (s : Store K) : Prop where
  guard : G.In s
  realizes : Realizes False types env s

theorem Safe.stands {α : Type} {G : Guard} {types : TyEnv} {env : Env} {m : Exec K α} {s : Store K}
    {Q R : α → Store K → Prop} (h : Stands G types env s) (hm : Safe G m s Q)
    (hs : Sound False m s R) : Safe G m s fun a s' => R a s' ∧ Stands G types env s' :=
  (hm.sound hs).imp fun _ _ hk hQ =>
    ⟨hQ.2.2, hk.guard_in h.guard, h.realizes.retained hQ.2.1⟩

namespace Eval

variable [Scalar K] {G : Guard} {ctx : Context K} {types : TyEnv} {env : Env} {s : Store K}

/-- Evaluating the expression keeps what is under guard. -/
def Calm (G : Guard) (ctx : Context K) (types : TyEnv) (env : Env) (e : Expr) : Prop :=
  e.Quiet ctx.funcs types → ∀ {s : Store K}, Stands G types env s →
    Safe G (operand? ctx env e) s fun _ s' => Stands G types env s'

theorem calm_var (x : String) : Calm G ctx types env (.var x) := by
  intro _ s h
  unfold operand?
  refine (safe_lookup x).bind fun b s' _ hb => ?_
  obtain ⟨_, rfl⟩ := hb
  cases b with
  | scalar slot => exact Safe.pure h
  | array id => exact Safe.pure h
  | tape id => exact Safe.pure h

theorem calm_index {x : String} {i : Expr} (ih : Calm G ctx types env i) :
    Calm G ctx types env (.index x i) := by
  intro he s h
  unfold operand?
  refine (safe_arrayOf x).bind fun id s' _ hid => ?_
  obtain ⟨_, rfl⟩ := hid
  refine (ih he.of_index h).bind fun o s₁ _ h₁ => ?_
  refine (safe_int i o).bind fun index s₂ _ hs₂ => ?_
  subst hs₂
  refine (safe_elementSlot x id index).bind fun slot s₃ _ hslot => ?_
  obtain ⟨_, rfl⟩ := hslot
  exact Safe.get_bind (Safe.pure h₁)

theorem calm_unary {op : UnOp} {e : Expr} (ih : Calm G ctx types env e) :
    Calm G ctx types env (.unary op e) := by
  intro he s h
  obtain ⟨t, ht⟩ := he.checked
  obtain ⟨te, hte, _⟩ := Typing.of_checkExpr_unary ht
  have he' : e.Quiet ctx.funcs types := ⟨⟨te, hte⟩, (Rule.expr_unary.mp he.differences).2,
    (Rule.expr_unary.mp he.effectFree).2⟩
  cases op with
  | neg =>
    unfold operand?
    refine (ih he' h).bind fun o s₁ _ h₁ => ?_
    refine (safe_value e o).bind fun v s₂ _ hs₂ => ?_
    subst hs₂
    refine (safe_lift (negate_ne_emptyTape v)).bind fun w s₃ _ hs₃ => ?_
    subst hs₃
    exact Safe.pure h₁
  | not =>
    unfold operand?
    refine (ih he' h).bind fun o s₁ _ h₁ => ?_
    refine (safe_bool e o).bind fun v s₂ _ hs₂ => ?_
    subst hs₂
    exact Safe.pure h₁

theorem calm_binary {op : BinOp} {l r : Expr} (ihl : Calm G ctx types env l)
    (ihr : Calm G ctx types env r) : Calm G ctx types env (.binary op l r) := by
  intro he s h
  obtain ⟨t, ht⟩ := he.checked
  obtain ⟨tl, tr, htl, htr, _⟩ := Typing.of_checkExpr_binary ht
  obtain ⟨_, hdl, hdr⟩ := Rule.expr_binary.mp he.differences
  obtain ⟨_, hel, her⟩ := Rule.expr_binary.mp he.effectFree
  have hl : l.Quiet ctx.funcs types := ⟨⟨tl, htl⟩, hdl, hel⟩
  have hr : r.Quiet ctx.funcs types := ⟨⟨tr, htr⟩, hdr, her⟩
  have hsecond : ∀ {s' : Store K}, Stands G types env s' → Safe G (do
      let b ← bool r (← operand? ctx env r)
      return some (.value (.bool b) : Operand K)) s' fun _ s'' => Stands G types env s'' := by
    intro s' h'
    refine (ihr hr h').bind fun o s₁ _ h₁ => ?_
    refine (safe_bool r o).bind fun b s₂ _ hs₂ => ?_
    subst hs₂
    exact Safe.pure h₁
  have hboth : ∀ op : BinOp, Safe G (do
      let a ← value l (← operand? ctx env l)
      let b ← value r (← operand? ctx env r)
      return some (Operand.value (← lift (op.apply a b)))) s fun _ s' => Stands G types env s' := by
    intro op
    refine (ihl hl h).bind fun o s₁ _ h₁ => ?_
    refine (safe_value l o).bind fun a s₂ _ hs₂ => ?_
    subst hs₂
    refine (ihr hr h₁).bind fun o s₃ _ h₃ => ?_
    refine (safe_value r o).bind fun b s₄ _ hs₄ => ?_
    subst hs₄
    refine (safe_lift (apply_ne_emptyTape op a b)).bind fun w s₅ _ hs₅ => ?_
    subst hs₅
    exact Safe.pure h₃
  cases op with
  | and =>
    unfold operand?
    refine (ihl hl h).bind fun o s₁ _ h₁ => ?_
    refine (safe_bool l o).bind fun a s₂ _ hs₂ => ?_
    subst hs₂
    split
    · exact hsecond h₁
    · exact Safe.pure h₁
  | or =>
    unfold operand?
    refine (ihl hl h).bind fun o s₁ _ h₁ => ?_
    refine (safe_bool l o).bind fun a s₂ _ hs₂ => ?_
    subst hs₂
    split
    · exact Safe.pure h₁
    · exact hsecond h₁
  | _ =>
    unfold operand?
    exact hboth _

section

variable {f : String} {args : List Expr} (ih : ∀ e ∈ args, Calm G ctx types env e)
  (hargs : ∀ e ∈ args, e.Quiet ctx.funcs types) (h : Stands G types env s)

include ih hargs h

theorem safe_operands_of_calm : Safe G (operands ctx env args) s fun _ s' => Stands G types env s' := by
  induction args generalizing s with
  | nil =>
    unfold operands
    exact Safe.pure h
  | cons e es ihes =>
    unfold operands
    refine (ih e List.mem_cons_self (hargs e List.mem_cons_self) h).bind fun o s₁ _ h₁ => ?_
    refine (Safe.require (Q := fun _ s' => s' = s₁) (by simp) fun _ _ => rfl).bind
      fun v s₂ _ hs₂ => ?_
    subst hs₂
    have hrest := ihes (fun e he => ih e (List.mem_cons_of_mem _ he))
      (fun e he => hargs e (List.mem_cons_of_mem _ he)) h₁
    exact hrest.bind fun os s₃ _ h₃ => Safe.pure h₃

theorem safe_numbers_of_calm : Safe G (numbers ctx env args) s fun _ s' => Stands G types env s' := by
  induction args generalizing s with
  | nil =>
    unfold numbers
    exact Safe.pure h
  | cons e es ihes =>
    unfold numbers
    refine (ih e List.mem_cons_self (hargs e List.mem_cons_self) h).bind fun o s₁ _ h₁ => ?_
    refine (safe_value e o).bind fun v s₂ _ hs₂ => ?_
    subst hs₂
    have hnum : Safe G (numeric v) s₂ fun _ s' => s' = s₂ := by
      unfold numeric
      split
      · exact Safe.pure rfl
      · exact Safe.mistyped
    refine hnum.bind fun w s₃ _ hs₃ => ?_
    subst hs₃
    have hrest := ihes (fun e he => ih e (List.mem_cons_of_mem _ he))
      (fun e he => hargs e (List.mem_cons_of_mem _ he)) h₁
    exact hrest.bind fun vs s₄ _ h₄ => Safe.pure h₄

end

section

variable (hctx : Conforms False ctx)
  (hframed : Framed (fun f i => i ∈ ctx.funcs.written f) G ctx)

include hctx hframed

/-- A call of a function that types choose, whose operands are not under guard where it writes. -/
theorem safe_callNamed_of_resolve {name : String} {ts : List Ty} {os : List (Operand K)} {g : Func}
    (hG : G.In s) (hos : List.Forall₂ (fun t o => o.HasTy s t) ts os)
    (hres : ctx.funcs.resolve name ts = some g)
    (hg : ∀ i ∈ ctx.funcs.written g, ∀ o, os[i]? = some o → o.Apart G) :
    Safe G (callNamed ctx name os) s fun _ _ => True := by
  refine Safe.get_bind ?_
  dsimp only
  rw [resolve_operands hctx.lengths hos hres]
  refine safe_bindOperands_call hframed (mem_of_resolve hres).1 hG fun i o hi => ?_
  obtain ⟨hlt, rfl⟩ := List.getElem?_eq_some_iff.mp hi
  have hts : i < ts.length := by rwa [hos.length_eq]
  exact ⟨(hos.get hts hlt).inside, fun hw => hg i hw _ hi⟩

theorem calm_call {f : String} {args : List Expr} (ih : ∀ e ∈ args, Calm G ctx types env e) :
    Calm G ctx types env (.call f args) := by
  intro he s h
  obtain ⟨t, ht⟩ := he.checked
  obtain ⟨_, hdargs⟩ := Rule.expr_call.mp he.differences
  obtain ⟨hpart, heargs⟩ := Rule.expr_call.mp he.effectFree
  have hquiet : ∀ e ∈ args, (∃ te, Typing.checkExpr ctx.funcs.resolve types e = .ok te) →
      e.Quiet ctx.funcs types := fun e hmem hte => ⟨hte, hdargs e hmem, heargs e hmem⟩
  have hsound : SoundOperand False (.call f args) t (operand? ctx env (.call f args)) s :=
    sound_operand? hctx _ h.realizes ht he.differences
  refine (Safe.stands (Q := fun _ _ => True) h ?_ hsound).imp fun _ _ _ hs' => hs'.2
  simp only [Rule.effectFree] at hpart
  unfold operand?
  split
  · rename_i hname
    obtain ⟨x, elem, len, rfl, hx, rfl⟩ := Typing.of_checkExpr_len ht hname
    refine Safe.bind (Q := fun _ _ => True) ?_ fun o s₁ _ _ =>
      (safe_lengthOf o).imp fun _ _ _ _ => trivial
    unfold firstOperand?
    refine (calm_var x ⟨⟨.array elem len, ?_⟩, hdargs _ List.mem_cons_self,
      heargs _ List.mem_cons_self⟩ h).bind fun o s₁ _ _ => ?_
    · simp only [Typing.checkExpr, except_bind_eq_ok, except_pure_eq_ok, Typing.lookup_eq_ok]
      exact ⟨_, hx, rfl⟩
    · exact (Safe.require (Q := fun _ _ => True) (by simp) fun _ _ => trivial).bind
        fun _ _ _ _ => Safe.pure trivial
  · rename_i hname
    rw [hname] at hpart
    exact hpart.elim
  · rename_i hname
    rw [hname] at hpart
    exact hpart.elim
  · rename_i hname
    obtain ⟨target, k, print, rest, ts, callee, rfl, hk, hprint, hrest, _, rfl⟩ :=
      Typing.of_checkExpr_difference ht hname
    have hrest' : ∀ e ∈ rest, e.Quiet ctx.funcs types := fun e hmem =>
      hquiet e (by simp [hmem]) (Typing.exists_checkExpr_of_checkExprs hrest hmem)
    refine Safe.bind (Q := fun _ _ => True) ?_ fun _ _ _ _ => Safe.pure trivial
    unfold differenceOf
    refine (ih k (by simp) (hquiet k (by simp) ⟨_, hk⟩) h).bind fun o s₁ _ h₁ => ?_
    refine (safe_int k o).bind fun index s₂ _ hs₂ => ?_
    subst hs₂
    refine (ih print (by simp) (hquiet print (by simp) ⟨_, hprint⟩) h₁).bind fun o s₃ _ h₃ => ?_
    refine (safe_bool print o).bind fun b s₄ _ hs₄ => ?_
    subst hs₄
    refine (safe_numbers_of_calm (fun e he => ih e (by simp [he])) hrest' h₃).bind
      fun point s₅ _ h₅ => ?_
    exact safe_difference hframed h₅.guard target index point
  · rename_i hname
    rw [hname] at hpart
    obtain ⟨ts, callee, hts, hres, _, rfl⟩ := Typing.of_checkExpr_call ht hname
    have hargs : ∀ e ∈ args, e.Quiet ctx.funcs types := fun e hmem =>
      hquiet e hmem (Typing.exists_checkExpr_of_checkArgs hts hmem)
    have hwritten : ctx.funcs.written callee = [] := by
      refine hpart callee ?_
      rw [Host.callee?_ofProgram, Typing.types?_of_checkArgs hts]
      exact hres
    have hoperands := (safe_operands_of_calm ih hargs h).stands h
      (sound_operands (fun e _ => sound_operand? hctx e) h.realizes hts (fun hst => hst.elim) hdargs)
    refine hoperands.bind fun os s₁ _ h₁ => ?_
    exact (safe_callNamed_of_resolve hctx hframed h₁.2.guard h₁.1.1 hres (by simp [hwritten])).bind
      fun v s₂ _ _ => Safe.pure trivial

/-- An expression without effects keeps what is under guard. -/
theorem calm (e : Expr) : Calm G ctx types env e := by
  induction e using Expr.induct with
  | float v | int v | bool v =>
    intro _ s h
    unfold operand?
    exact Safe.pure h
  | var x => exact calm_var x
  | index x i ih => exact calm_index ih
  | unary op e ih => exact calm_unary ih
  | binary op l r ihl ihr => exact calm_binary ihl ihr
  | call f args ih => exact calm_call hctx hframed ih
  | funcRef f =>
    intro _ s h
    unfold operand?
    exact Safe.mistyped

end

end Eval

/-! ### Functions of a program among derived ones -/

/-- Every function that the expression calls by name is one of the program. -/
def Rule.calls (p : Program) : Rule where
  part
    | .call f _ => Intrinsic.ofName? f = none → ∃ g ∈ p, g.name = f
    | _ => True
  target _ := True
  declares _ := True
  returns := True

namespace Typing

theorem calls_of_checked {p : Program} {types : TyEnv} {e : Expr}
    (h : (Rule.checked p.resolve types).part e) : (Rule.calls p).part e := by
  cases e with
  | call f args =>
    intro hf
    obtain ⟨_, hcall⟩ | ⟨t, ht⟩ := h
    · cases hcall
    obtain ⟨_, callee, _, hres, _⟩ := of_checkExpr_call ht hf
    exact ⟨callee, mem_of_resolve hres⟩
  | _ => trivial

theorem calls_of_checkExpr {p : Program} {types : TyEnv} (e : Expr) {t : Ty}
    (h : checkExpr p.resolve types e = .ok t) : (Rule.calls p).Expr e :=
  fun part hpart => calls_of_checked (checked_of_checkExpr e h part hpart)

/-- The calls of a checked function are of functions of the program. -/
theorem calls_of_checkFunc {p : Program} {f : Func} (h : checkFunc p.resolve f = .ok ()) :
    ∀ e ∈ partsOf f.stmts, (Rule.calls p).Expr e := by
  intro e he
  obtain ⟨types, ⟨g, rfl⟩ | ⟨t, ht⟩⟩ := exists_checked_of_mem h he
  · intro part hpart
    rw [List.mem_singleton.mp hpart]
    trivial
  · exact calls_of_checkExpr e ht

end Typing

/-- Derived functions have names of their own, so that calls of the program's functions are resolved
as before. -/
theorem Host.resolve_of_mem {p : Program} {h : Host} (hprogram : h.program = p)
    (hapart : ∀ g ∈ h.derived, ∀ f ∈ p, g.name ≠ f.name) {f : Func} (hf : f ∈ p) :
    h.resolve f.name = p.resolve f.name := by
  funext types
  cases hd : Program.resolve h.derived f.name types with
  | none => rw [Host.resolve, hd, Option.none_or, hprogram]
  | some g =>
    obtain ⟨hg, hname⟩ := mem_of_resolve hd
    exact absurd hname (hapart g hg f hf)

section

variable {p : Program} {resolve : Resolver} {flat types : TyEnv}

mutual

theorem type?_congr (hsame : ∀ f ∈ p, resolve f.name = p.resolve f.name)
    (hflat : ∀ x, flat.lookup x = types.lookup x) :
    ∀ e : Expr, (Rule.calls p).Expr e → e.type? resolve flat = e.type? p.resolve types
  | .float _, _ | .int _, _ | .bool _, _ | .funcRef _, _ => rfl
  | .var x, _ => by rw [Expr.type?, Expr.type?, TyEnv.value?, TyEnv.value?, hflat]
  | .index x _, _ => by rw [Expr.type?, Expr.type?, TyEnv.element?, TyEnv.element?, hflat]
  | .unary op e, he => by
    rw [Expr.type?, Expr.type?, type?_congr hsame hflat e (Rule.expr_unary.mp he).2]
  | .binary op l r, he => by
    obtain ⟨_, hl, hr⟩ := Rule.expr_binary.mp he
    rw [Expr.type?, Expr.type?, type?_congr hsame hflat l hl, type?_congr hsame hflat r hr]
  | .call f args, he => by
    obtain ⟨hf, hargs⟩ := Rule.expr_call.mp he
    rw [Expr.type?, Expr.type?]
    split
    · rfl
    · exact secondType?_congr hsame hflat args hargs
    · simp only [TyEnv.element?, hflat]
    · rfl
    · rename_i hname
      obtain ⟨g, hg, rfl⟩ := hf hname
      rw [types?_congr hsame hflat args hargs, hsame g hg]

theorem types?_congr (hsame : ∀ f ∈ p, resolve f.name = p.resolve f.name)
    (hflat : ∀ x, flat.lookup x = types.lookup x) :
    ∀ es : List Expr, (Rule.calls p).Exprs es → types? resolve flat es = types? p.resolve types es
  | [], _ => rfl
  | e :: es, hes => by
    obtain ⟨he, hes⟩ := Rule.exprs_cons.mp hes
    rw [types?, types?, type?_congr hsame hflat e he, types?_congr hsame hflat es hes]

theorem secondType?_congr (hsame : ∀ f ∈ p, resolve f.name = p.resolve f.name)
    (hflat : ∀ x, flat.lookup x = types.lookup x) :
    ∀ es : List Expr, (Rule.calls p).Exprs es →
      secondType? resolve flat es = secondType? p.resolve types es
  | [], _ | [_], _ => rfl
  | _ :: e :: es, hes => by
    have he := (Rule.exprs_cons.mp (Rule.exprs_cons.mp hes).2).1
    rw [secondType?, secondType?, firstType?, firstType?, type?_congr hsame hflat e he]

end

theorem types?_eq (hsame : ∀ f ∈ p, resolve f.name = p.resolve f.name) (types : TyEnv)
    (es : List Expr) (hes : (Rule.calls p).Exprs es) :
    types? resolve types es = types? p.resolve types es :=
  types?_congr hsame (fun _ => rfl) es hes

variable (hsame : ∀ f ∈ p, resolve f.name = p.resolve f.name)

include hsame

theorem writtenByCalls_eq {visit visit' : List Signature → Func → Written}
    (hvisit : ∀ seen, ∀ g ∈ p, visit seen g = visit' seen g) (f : Func)
    {found : List (String × List Expr)}
    (hfound : ∀ call ∈ found, (Rule.calls p).Expr (.call call.1 call.2)) (seen : List Signature) :
    writtenByCalls resolve visit f seen found = writtenByCalls p.resolve visit' f seen found := by
  induction found generalizing seen with
  | nil => rfl
  | cons call rest ih =>
    obtain ⟨name, args⟩ := call
    have hrest := fun seen => ih (fun call hcall => hfound call (List.mem_cons_of_mem _ hcall)) seen
    obtain ⟨hname, hargs⟩ := Rule.expr_call.mp (hfound _ List.mem_cons_self)
    unfold writtenByCalls
    split
    · exact hrest seen
    · rename_i hnone
      obtain ⟨g, hg, rfl⟩ := hname (by simpa using hnone)
      rw [types?_eq hsame f.env args hargs, hsame g hg]
      split
      · exact hrest seen
      · rename_i callee hcallee
        obtain ⟨types, _, hres⟩ := Option.bind_eq_some_iff.mp hcallee
        simp only [hvisit seen callee (mem_of_resolve hres).1, hrest]

theorem writtenFrom_resolve (hcheck : Typing.check p = []) (limit : Nat) :
    ∀ seen, ∀ f ∈ p, writtenFrom resolve limit seen f = writtenFrom p.resolve limit seen f := by
  induction limit with
  | zero => exact fun _ _ _ => rfl
  | succ limit ih =>
    intro seen f hf
    have hcalls := Typing.calls_of_checkFunc (Typing.checkFunc_of_check hcheck hf)
    rw [writtenFrom_succ, writtenFrom_succ, writtenStep, writtenStep]
    split
    · rfl
    · rename_i body hbody
      split
      · rfl
      · rw [writtenByCalls_eq hsame ih f fun call hcall => hcalls _ ?_]
        rw [Func.stmts, hbody]
        exact mem_calls.mp hcall

/-- Derived functions make no difference to what a function of the program writes. -/
theorem Host.writtenParams_eq (hcheck : Typing.check p = []) {h : Host} (hresolve : h.resolve = resolve)
    (hprogram : h.program = p) {f : Func} (hf : f ∈ p) : h.writtenParams f = p.written f := by
  have hsize : (Host.ofProgram p).size = p.length := by simp [Host.size, Host.ofProgram]
  have hunseen := unseen_le_size (h := Host.ofProgram p) []
  have hlimit : writtenFrom p.resolve (h.size + 2) [] f =
      writtenFrom p.resolve ((Host.ofProgram p).size + 2) [] f := by
    rw [← Host.resolve_ofProgram]
    refine writtenFrom_eq (by simpa [Host.ofProgram] using hf) ?_ (by omega)
    rw [hsize] at hunseen
    rw [Host.size, hprogram]
    omega
  rw [Program.written, Host.writtenParams, Host.writtenParams, hresolve,
    writtenFrom_resolve hsame hcheck _ _ f hf, hlimit, Host.resolve_ofProgram]

end

/-! ### Accepted expressions -/

/-- The functions that the expression calls write no storage of their caller but floats. -/
def Program.writesFloatsOnly (p : Program) (types : TyEnv) (e : Expr) : Bool :=
  e.parts.all fun
    | .call f args =>
      (Intrinsic.ofName? f).isSome || ((Host.ofProgram p).callee? types f args).all fun g =>
        (p.written g).all fun i => g.params[i]?.any (·.ty.isDifferentiable)
    | _ => true

namespace Derive

/-- The derived functions have other names than those of the program. -/
def Progress.Apart (st : Progress) (p : Program) : Prop :=
  ∀ g ∈ st.support, ∀ f ∈ p, g.name ≠ f.name

/-- The expression is accepted to be evaluated again: by reverse mode in the adjoint sweep, or by
forward mode in a tangent. -/
def Repeatable (s : Setting) (st : Progress) (types : TyEnv) (e : Expr) : Prop :=
  (∃ (c : Sweep) (storage : Storage), c.setting = s ∧ c.env = types ∧
    ∃ r st', (c.checkPure e).run storage st = .ok r st') ∨
  ∃ t : TangentScope, t.env = types ∧ ∃ e' st', primal s t e st = .ok e' st'

variable {s : Setting} {st : Progress} {types : TyEnv} {e : Expr}

/-- Either mode looks for the same effects. -/
theorem repeatable_iff :
    Repeatable s st types e ↔ Analysis.firstEffect? (s.host st) types e = none := by
  refine ⟨fun h => ?_, fun h => .inr ⟨⟨"", types, .empty, []⟩, rfl, e, st, ?_⟩⟩
  swap
  · simp only [primal, currentHost, bind, EStateM.bind, state_get, pure, EStateM.pure, h]
  rcases h with ⟨c, storage, rfl, rfl, r, st', hrun⟩ | ⟨t, rfl, e', st', hrun⟩
  · cases heffect : Analysis.firstEffect? (c.setting.host st) c.env e with
    | none => rfl
    | some effect =>
      have hfail : (c.checkPure e).run storage st =
          .error (.unsupported c.function (Sweep.sweptEffect effect)) st := by
        simp only [Sweep.checkPure, Sweep.host, currentHost, StateT.run, bind, StateT.bind,
          StateT.lift, liftM, monadLift, MonadLift.monadLift, EStateM.bind, state_get, pure,
          EStateM.pure, heffect]
        rfl
      simp [hfail] at hrun
  · cases heffect : Analysis.firstEffect? (s.host st) t.env e with
    | none => rfl
    | some effect =>
      have hfail : primal s t e st = .error (.unsupported t.function (copiedEffect effect)) st := by
        simp only [primal, currentHost, bind, EStateM.bind, state_get, pure, EStateM.pure, heffect]
        rfl
      simp [hfail] at hrun

/-- An accepted expression that passed the checker has no effects, if what its calls write is
floats. -/
theorem Repeatable.effectFree {p : Program} (hcheck : Typing.check p = []) (hprogram : s.program = p)
    (hapart : st.Apart p) (h : Repeatable s st types e) {t : Ty}
    (ht : Typing.checkExpr p.resolve types e = .ok t) (hfloats : p.writesFloatsOnly types e = true) :
    (Rule.effectFree p types).Expr e := by
  have hsame : ∀ f ∈ p, (s.host st).resolve f.name = p.resolve f.name := fun f hf =>
    Host.resolve_of_mem (h := s.host st) hprogram hapart hf
  have hcalls := Typing.calls_of_checkExpr e ht
  intro part hpart
  have hnone : effectOf? (s.host st) types part = none := by
    have := repeatable_iff.mp h
    rw [Analysis.firstEffect?, List.findSome?_eq_none_iff] at this
    exact this part hpart
  cases part with
  | call f args =>
    obtain ⟨hf, hargs⟩ := Rule.expr_call.mp (Rule.expr_of_mem_parts hcalls hpart)
    simp only [Rule.effectFree]
    split
    · rename_i hname
      simp [effectOf?, hname] at hnone
    · rename_i hname
      simp [effectOf?, hname] at hnone
    · trivial
    · rename_i hname
      intro g hg
      have hcallee : (s.host st).callee? types f args = some g := by
        obtain ⟨g', hg', rfl⟩ := hf hname
        rw [Host.callee?_ofProgram] at hg
        rw [Host.callee?, types?_eq hsame types args hargs, hsame g' hg']
        exact hg
      obtain ⟨ts, hts, hres⟩ := Option.bind_eq_some_iff.mp (Host.callee?_ofProgram p types f args ▸ hg)
      have hwritten := Host.writtenParams_eq hsame hcheck rfl hprogram (mem_of_resolve hres).1
      have hnoeffects : (s.host st).hasEffects g = false := by
        simpa [effectOf?, hname, hcallee] using hnone
      have hdifferentiable := List.all_eq_true.mp hfloats _ hpart
      simp only [hname, Option.isSome_none, Bool.false_or, hg, Option.all_some,
        List.all_eq_true] at hdifferentiable
      rw [Host.hasEffects, hwritten, List.any_eq_false] at hnoeffects
      refine List.eq_nil_iff_forall_not_mem.mpr fun i hi => ?_
      exact absurd (hdifferentiable i hi) (hnoeffects i hi)
  | _ => trivial

/-- Evaluating an expression that is accepted to be evaluated again leaves every slot and every tape
as it was, also when it fails, if the functions that it calls write no storage but floats. -/
theorem storage_kept_of_repeatable [Scalar K] {m : Machine K} (hcheck : Typing.check m.funcs = [])
    (hlengths : m.funcs.ignoresLengths = true) (hnatives : m.funcs.floatNatives = true)
    (hdifferences : m.funcs.floatDifferences = true) (hpass : m.funcs.PassesWrites)
    (hprogram : s.program = m.funcs) (hapart : st.Apart m.funcs) (h : Repeatable s st types e)
    {t : Ty} (ht : Typing.checkExpr m.funcs.resolve types e = .ok t)
    (hdifference : (differenceRule False m.funcs).Expr e)
    (hfloats : m.funcs.writesFloatsOnly types e = true) {env : Env} {store : Store K}
    (hstore : Realizes False types env store) (limit depth : Nat) :
    (∀ slot, slot.In store →
      ((Eval.eval? (m.context limit depth) env e).leaves store).read slot = store.read slot) ∧
    ∀ id < store.tapes.size,
      ((Eval.eval? (m.context limit depth) env e).leaves store).tape id = store.tape id := by
  have hm := Machine.regular_of_checked hcheck hlengths hnatives hdifferences
  have hctx := Machine.conforms_context hm limit depth
  have hframed : Framed (fun f i => i ∈ m.funcs.written f) store.guard (m.context limit depth) :=
    Machine.framed_callAt (fun f hf p hp => (hm.params hf p hp).2)
      (m.funcs.closed_written hcheck hpass) limit depth trivial
  have hquiet : e.Quiet (m.context limit depth).funcs types :=
    ⟨⟨t, ht⟩, hdifference, h.effectFree hcheck hprogram hapart ht hfloats⟩
  have hstands : Stands store.guard types env store := ⟨⟨fun _ h => h, fun _ h => h⟩, hstore⟩
  have hsafe : Safe store.guard (Eval.eval? (m.context limit depth) env e) store fun _ _ => True :=
    (Eval.calm hctx hframed e hquiet hstands).bind fun o s' _ _ =>
      (Eval.safe_value? e o).imp fun _ _ _ _ => trivial
  exact ⟨hsafe.leaves.slots, hsafe.leaves.tapes⟩

/-- The function `fn scaled(a: [f64], n: &i64) -> f64` reads both of its parameters. -/
def scaled : Func where
  name := "scaled"
  params := [⟨"a", .arrayOf .float⟩, ⟨"n", .ref .int⟩]
  ret := .float
  body := some [.ret (some (.binary .mul (.index "a" (.int 0)) (.var "n")))]
  span := ⟨0, 0⟩

/-- The function `fn bump(n: &i64) -> f64` adds one to its parameter. -/
def bump : Func where
  name := "bump"
  params := [⟨"n", .ref .int⟩]
  ret := .float
  body := some [.update (.var "n") .add (.int 1), .ret (some (.float 1.0))]
  span := ⟨0, 0⟩

/-- Calls of both functions write at most an integer. -/
def counting : Machine Float := ⟨[scaled, bump], .standard⟩

/-- The program without derivatives of its own. -/
def countingSetting : Setting := ⟨counting.funcs, .empty, .standard, none⟩

/-- A float, an array and an integer. -/
def countingTypes : TyEnv := [("x", .float), ("a", .arrayOf .float), ("n", .int)]

def countingEnv : Env := [("x", .scalar (.cell 0)), ("a", .array 0), ("n", .scalar (.cell 1))]

def countingStore : Store Float := ⟨#[.float 2.0, .int 3], #[⟨.float, #[.float 5.0]⟩], #[]⟩

theorem realizes_counting : Realizes False countingTypes countingEnv countingStore := by
  refine ⟨⟨?_, ?_⟩, ?_, fun h => h.elim⟩
  · simp [countingStore, Buffer.Typed, Value.ty, Ty.value]
  · simp [countingStore]
  · have hnone : TyEnv.Describes [] [] countingStore := by simp [TyEnv.Describes]
    have hn := hnone.cons (x := "n") (b := .scalar (.cell 1)) (t := .int) rfl
    have ha := hn.cons (x := "a") (b := .array 0) (t := .arrayOf .float) ⟨.float, none, rfl, rfl⟩
    exact ha.cons (x := "x") (b := .scalar (.cell 0)) (t := .float) rfl

/-- The expression `x * f(args)`. -/
def timesCall (f : String) (args : List Expr) : Expr := .binary .mul (.var "x") (.call f args)

theorem storage_kept_of_repeatable_scaled :
    Typing.check counting.funcs = [] ∧ counting.funcs.PassesWrites ∧
    Repeatable countingSetting (.start counting.funcs) countingTypes
      (timesCall "scaled" [.var "a", .var "n"]) ∧
    ((Eval.eval? (counting.context 10 10) countingEnv
      (timesCall "scaled" [.var "a", .var "n"])).leaves countingStore).read (.cell 1) = .int 3 := by
  have hr : Repeatable countingSetting (.start counting.funcs) countingTypes
      (timesCall "scaled" [.var "a", .var "n"]) := repeatable_iff.mpr (by decide +kernel)
  refine ⟨by decide +kernel, by decide +kernel, hr, ?_⟩
  refine (storage_kept_of_repeatable (by decide +kernel) (by decide +kernel) (by decide +kernel)
    (by decide +kernel) (by decide +kernel) rfl (by simp [Progress.Apart, Progress.start]) hr
    (t := .float) (by decide +kernel) ?_ (by decide +kernel) realizes_counting 10 10).1 (.cell 1) ?_
  · intro part hpart
    simp only [timesCall, Expr.parts, Expr.partsList, List.cons_append, List.nil_append,
      List.append_nil, List.mem_cons, List.not_mem_nil, or_false] at hpart
    rcases hpart with rfl | rfl | rfl | rfl | rfl
    case inr.inr.inl => exact fun hname => absurd hname (by decide)
    all_goals trivial
  · simp [Slot.In, countingStore]

/-- The call of `bump` is accepted as well, and changes the integer that it is given. -/
theorem repeatable_call_changes_integer :
    Typing.check counting.funcs = [] ∧ counting.funcs.PassesWrites ∧
    Repeatable countingSetting (.start counting.funcs) countingTypes (timesCall "bump" [.var "n"]) ∧
    countingStore.read (.cell 1) = .int 3 ∧
    ((Eval.eval? (counting.context 10 10) countingEnv (timesCall "bump" [.var "n"])).leaves
      countingStore).read (.cell 1) = .int 4 :=
  ⟨by decide +kernel, by decide +kernel, repeatable_iff.mpr (by decide +kernel), rfl, rfl⟩

end Derive

end Fluxion
