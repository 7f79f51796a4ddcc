import Fluxion.Canonical.Renaming
import Fluxion.Proofs.Paired.Storage
import Fluxion.Proofs.Runs.Code

/-!
Expressions evaluated side by side. An expression, and the same expression with its variables
renamed, give corresponding operands when corresponding variables stand for corresponding storage.
-/

namespace Fluxion

variable {K : Type}

/-- The rule of code that uses the variables of `V` only. -/
def Rule.uses (V : String → Prop) : Rule where
  part
    | .var x => V x
    | .index x _ => V x
    | _ => True
  target place := V place.name
  declares _ := True
  returns := True

/-- The variables of `V` stand for storage that corresponds to that of their new names. -/
structure PairedEnv (N : String → String → Prop) (V : String → Prop) (r : Renaming) (P : Pairing)
    (env env' : Env) : Prop where
  names : ∀ x, V x → N x (r.apply x)
  bindings : ∀ x, V x → Option.Rel P.binding (env.lookup x) (env'.lookup (r.apply x))

theorem PairedEnv.mono {N : String → String → Prop} {V : String → Prop} {r : Renaming}
    {P P' : Pairing} {env env' : Env} (h : PairedEnv N V r P env env') (hP : P.Within P') :
    PairedEnv N V r P' env env' := by
  refine ⟨h.names, fun x hx => ?_⟩
  have hb := h.bindings x hx
  generalize env.lookup x = o, env'.lookup (r.apply x) = o' at hb ⊢
  cases hb with
  | none => exact .none
  | some hb => exact .some (hP.binding hb)

/-- Calls with corresponding arguments give the same. -/
structure Steady (N : String → String → Prop) (ctx : Context K) : Prop where
  refl : ∀ x, N x x
  call : ∀ f {P bound bound' s s'}, Matches P s s' → List.Forall₂ P.bound bound bound' →
    Agree N P (ctx.call f bound) s (ctx.call f bound') s' fun _ => Eq

namespace Eval

open Exec

variable {N : String → String → Prop} {V : String → Prop} {r : Renaming} {P : Pairing}
  {env env' : Env} {ctx : Context K} {s s' : Store K}

/-! ### Variables -/

theorem agree_lookup (h : PairedEnv N V r P env env') (hm : Matches P s s') {x : String}
    (hx : V x) :
    Agree N P (lookup env x) s (lookup env' (r.apply x)) s' fun P' => P'.binding :=
  .require hm (h.names x hx) (h.bindings x hx)

theorem agree_read (hm : Matches P s s') {x y : Slot} (hxy : P.slot x y) :
    Agree N P (read x) s (read y) s' fun _ => Eq :=
  .get_bind (.pure hm (hm.read_eq hxy))

theorem agree_operand_binding (hm : Matches P s s') {b c : Binding} (hbc : P.binding b c) :
    Agree N P (Binding.operand (K := K) b) s (Binding.operand c) s' fun P' => P'.operand := by
  rcases b with x | a | a <;> rcases c with y | b | b <;> try exact hbc.elim
  · exact (agree_read hm hbc).bind_eq fun P' v t t' hP ht => .pure ht ⟨hP.slot hbc, rfl⟩
  · exact .pure hm hbc
  · exact .pure hm hbc

theorem agree_arrayOf (h : PairedEnv N V r P env env') (hm : Matches P s s') {x : String}
    (hx : V x) :
    Agree N P (arrayOf env x) s (arrayOf env' (r.apply x)) s' fun P' => P'.array := by
  refine (agree_lookup h hm hx).bind fun P' b c t t' hP ht hbc => ?_
  rcases b with y | a | a <;> rcases c with z | b | b <;> try exact hbc.elim
  · exact .fail ht (h.names x hx)
  · exact .pure ht hbc
  · exact .fail ht (h.names x hx)

theorem agree_elementSlot (hm : Matches P s s') {x y : String} (hxy : N x y) {a b : Nat}
    (hab : P.array a b) (index : Int64) :
    Agree N P (elementSlot x a index) s (elementSlot y b index) s' fun P' => P'.slot := by
  refine .get_bind ?_
  rw [hm.array_eq hab]
  dsimp only
  split
  · exact .fail hm ⟨hxy, rfl, rfl⟩
  · exact .pure hm ⟨hab, rfl⟩

/-! ### Values of operands -/

theorem agree_value? (hc : Steady N ctx) (h : PairedEnv N V r P env env') (hm : Matches P s s')
    {e : Expr} (he : (Rule.uses V).Expr e) {o o' : Option (Operand K)}
    (ho : Option.Rel P.operand o o') :
    Agree N P (value? e o) s (value? (e.rename r) o') s' fun _ => Eq := by
  cases ho with
  | none => exact .pure hm rfl
  | @some p q hpq =>
    rcases p with v | ⟨x, v⟩ | a | a <;> rcases q with w | ⟨y, w⟩ | b | b <;> try exact hpq.elim
    · exact .pure hm (congrArg some hpq)
    · exact .pure hm (congrArg some hpq.2)
    -- an array or a tape is no value
    all_goals
      cases e with
      | var x => exact .fail hm (h.names x (Rule.expr_var.mp he))
      | _ => exact .fail hm (RuntimeError.alike_refl hc.refl _)

/-- What is left out in the same way is asked for in the same way. -/
theorem agree_require (hc : Steady N ctx) (hm : Matches P s s') {α : Type} (e : RuntimeError)
    (o : Option α) : Agree N P (require e o) s (require e o) s' fun _ => Eq := by
  cases o with
  | none => exact .fail hm (e.alike_refl hc.refl)
  | some a => exact .pure hm rfl

section

variable (hc : Steady N ctx) (h : PairedEnv N V r P env env') (hm : Matches P s s') {e : Expr}
  (he : (Rule.uses V).Expr e) {o o' : Option (Operand K)} (ho : Option.Rel P.operand o o')

include hc h hm he ho

theorem agree_value : Agree N P (value e o) s (value (e.rename r) o') s' fun _ => Eq :=
  (agree_value? hc h hm he ho).bind_eq fun _ _ _ _ _ ht => agree_require hc ht _ _

theorem agree_int : Agree N P (int e o) s (int (e.rename r) o') s' fun _ => Eq :=
  (agree_value hc h hm he ho).bind_eq fun _ _ _ _ _ ht => agree_require hc ht _ _

theorem agree_bool : Agree N P (bool e o) s (bool (e.rename r) o') s' fun _ => Eq :=
  (agree_value hc h hm he ho).bind_eq fun _ _ _ _ _ ht => agree_require hc ht _ _

end

theorem agree_lift (hc : Steady N ctx) (hm : Matches P s s') (v : Except RuntimeError (Value K)) :
    Agree N P (lift v) s (lift v) s' fun _ => Eq := by
  cases v with
  | ok v => exact .pure hm rfl
  | error e => exact .fail hm (e.alike_refl hc.refl)

/-! ### Lengths and tapes -/

theorem agree_lengthOf (hc : Steady N ctx) (hm : Matches P s s') {o o' : Option (Operand K)}
    (ho : Option.Rel P.operand o o') :
    Agree N P (lengthOf o) s (lengthOf o') s' fun P' => Option.Rel P'.operand := by
  have hstop : ∀ {α : Type} (Q : Pairing → α → α → Prop),
      Agree N P (mistyped .len) s (mistyped .len) s' Q :=
    fun _ => .fail hm (RuntimeError.alike_refl hc.refl _)
  cases ho with
  | none => exact hstop _
  | @some p q hpq =>
    rcases p with v | ⟨x, v⟩ | a | a <;> rcases q with w | ⟨y, w⟩ | b | b <;> try exact hpq.elim
    · exact hstop _
    · exact hstop _
    · refine .get_bind (.pure hm (.some ?_))
      rw [hm.array_eq hpq]
      rfl
    · refine .get_bind (.pure hm (.some ?_))
      rw [hm.tape_eq hpq]
      rfl

theorem agree_tapeOf (hc : Steady N ctx) (h : PairedEnv N V r P env env') (hm : Matches P s s')
    {args : List Expr} (hargs : (Rule.uses V).Exprs args) :
    Agree N P (tapeOf env args.head?) s (tapeOf env' (renameArgs r args).head?) s'
      fun P' => P'.tape := by
  have hstop : Agree N P (mistyped .tapeVariable) s (mistyped .tapeVariable) s'
      fun P' => P'.tape := .fail hm (RuntimeError.alike_refl hc.refl _)
  rcases args with _ | ⟨e, args⟩
  · exact hstop
  cases e with
  | var x =>
    have hx : V x := Rule.expr_var.mp (Rule.exprs_cons.mp hargs).1
    refine (agree_lookup h hm hx).bind fun P' b c t t' hP ht hbc => ?_
    rcases b with y | a | a <;> rcases c with z | b | b <;> try exact hbc.elim
    · exact .fail ht (h.names x hx)
    · exact .fail ht (h.names x hx)
    · exact .pure ht hbc
  | _ => exact hstop

theorem nameOf_related (hc : Steady N ctx) (h : PairedEnv N V r P env env') {args : List Expr}
    (hargs : (Rule.uses V).Exprs args) :
    N (nameOf args.head?) (nameOf (renameArgs r args).head?) := by
  rcases args with _ | ⟨e, args⟩
  · exact hc.refl _
  cases e with
  | var x => exact h.names x (Rule.expr_var.mp (Rule.exprs_cons.mp hargs).1)
  | _ => exact hc.refl _

theorem agree_popFrom (hm : Matches P s s') {x y : String} (hxy : N x y) {a b : Nat}
    (hab : P.tape a b) : Agree N P (popFrom x a) s (popFrom y b) s' fun _ => Eq := by
  refine .get_bind ?_
  rw [hm.tape_eq hab]
  split
  · exact .fail hm hxy
  · have hdrop : Agree N P (modify (·.drop a)) s (modify (·.drop b)) s' fun _ => Eq :=
      ⟨P, .refl P, hm.drop hab, rfl⟩
    exact hdrop.bind fun _ _ _ _ _ _ ht _ => .pure ht rfl

/-! ### Calls -/

theorem operandTy_eq (hm : Matches P s s') {p q : Operand K} (hpq : P.operand p q) :
    operandTy s p = operandTy s' q := by
  rcases p with v | ⟨x, v⟩ | a | a <;> rcases q with w | ⟨y, w⟩ | b | b <;> try exact hpq.elim
  · exact congrArg Value.ty hpq
  · exact congrArg Value.ty hpq.2
  · rw [operandTy, operandTy, hm.array_eq hpq]
  · rw [operandTy, operandTy, hm.tape_eq hpq]

theorem map_operandTy_eq (hm : Matches P s s') {os os' : List (Operand K)}
    (ho : List.Forall₂ P.operand os os') : os.map (operandTy s) = os'.map (operandTy s') := by
  induction ho with
  | nil => rfl
  | cons hpq _ ih => rw [List.map_cons, List.map_cons, operandTy_eq hm hpq, ih]

variable [Scalar K]

theorem agree_bindOperand (hm : Matches P s s') (f : Func) (p : Param)
    {o o' : Operand K} (ho : P.operand o o') :
    Agree N P (bindOperand f p o) s (bindOperand f p o') s' fun P' => P'.bound := by
  have hstop : ∀ kind, Agree N P (fail (.argumentKind f.name p.name kind)) s
      (fail (.argumentKind f.name p.name kind)) s' fun P' => P'.bound (K := K) :=
    fun _ => .fail hm rfl
  rcases o with v | ⟨x, v⟩ | a | a <;> rcases o' with w | ⟨y, w⟩ | b | b <;> try exact ho.elim
  · obtain rfl : v = w := ho
    unfold bindOperand
    cases p.ty <;> first | exact hstop _ | exact .pure hm rfl
  · obtain ⟨hxy, rfl⟩ := ho
    unfold bindOperand
    cases p.ty <;> first | exact hstop _ | exact .pure hm hxy | exact .pure hm rfl
  · unfold bindOperand
    cases p.ty <;> first | exact hstop _ | exact .pure hm ho
  · unfold bindOperand
    cases p.ty <;> first | exact hstop _ | exact .pure hm ho

theorem agree_bindOperands (hm : Matches P s s') (f : Func) (ps : List Param)
    {os os' : List (Operand K)} (ho : List.Forall₂ P.operand os os') :
    Agree N P (bindOperands f ps os) s (bindOperands f ps os') s'
      fun P' => List.Forall₂ P'.bound := by
  induction ps generalizing P os os' s s' with
  | nil =>
    unfold bindOperands
    exact .pure hm .nil
  | cons p ps ih =>
    cases ho with
    | nil =>
      unfold bindOperands
      exact .pure hm .nil
    | cons hhead htail =>
      unfold bindOperands
      refine (agree_bindOperand hm f p hhead).bind fun P₁ b b' t t' hP₁ ht hb => ?_
      have hrest := ih ht (htail.imp fun _ _ h => hP₁.operand h)
      exact hrest.bind fun P₂ bs bs' u u' hP₂ hu hbs => .pure hu (.cons (hP₂.bound hb) hbs)

theorem agree_callNamed (hc : Steady N ctx) (hm : Matches P s s') (name : String)
    {os os' : List (Operand K)} (ho : List.Forall₂ P.operand os os') :
    Agree N P (callNamed ctx name os) s (callNamed ctx name os') s' fun _ => Eq := by
  refine .get_bind ?_
  rw [map_operandTy_eq hm ho]
  dsimp only
  split
  · rename_i f _
    exact (agree_bindOperands hm f f.params ho).bind fun P' b b' t t' hP ht hb =>
      hc.call f ht hb
  · split
    · exact .fail hm (RuntimeError.alike_refl hc.refl _)
    · exact .fail hm (RuntimeError.alike_refl hc.refl _)

theorem agree_callAtPoint (hc : Steady N ctx) (hm : Matches P s s') (f : Func)
    (point : List (Value K)) (k : Nat) (x : K) :
    Agree N P (callAtPoint ctx f point k x) s (callAtPoint ctx f point k x) s' fun _ => Eq := by
  have hvalues : ∀ vs : List (Value K), List.Forall₂ P.bound (vs.map .value) (vs.map .value) := by
    intro vs
    induction vs with
    | nil => exact .nil
    | cons v vs ih => exact .cons rfl ih
  exact (hc.call f hm (hvalues _)).bind_eq fun _ _ _ _ _ ht => agree_require hc ht _ _

/-- A numerical derivative evaluates at the same points. -/
theorem agree_difference (hc : Steady N ctx) (hm : Matches P s s') (target : String) (k : Int64)
    (point : List (Value K)) :
    Agree N P (difference ctx target k point) s (difference ctx target k point) s'
      fun _ => Eq := by
  unfold difference
  split
  · exact .fail hm (RuntimeError.alike_refl hc.refl _)
  refine (agree_require hc hm _ _).bind_eq fun _ f _ _ _ hm => ?_
  have hstep : ∀ {P : Pairing} {t t' : Store K} (x : K), Matches P t t' →
      Agree N P (callAtPoint ctx f point k.toInt.toNat x) t
        (callAtPoint ctx f point k.toInt.toNat x) t' fun _ => Eq :=
    fun x ht => agree_callAtPoint hc ht f point _ x
  unfold Estimate.fivePoint Estimate.fivePointAt
  refine Agree.bind_eq ?_ fun _ _ _ _ _ ht => .pure ht rfl
  refine (hstep _ hm).bind_eq fun _ _ _ _ _ ht => ?_
  refine (hstep _ ht).bind_eq fun _ _ _ _ _ ht => ?_
  refine (hstep _ ht).bind_eq fun _ _ _ _ _ ht => ?_
  refine (hstep _ ht).bind_eq fun _ _ _ _ _ ht => ?_
  refine (hstep _ ht).bind_eq fun _ _ _ _ _ ht => ?_
  refine (hstep _ ht).bind_eq fun _ _ _ _ _ ht => ?_
  exact .pure ht rfl

/-! ### Expressions -/

mutual

theorem agree_operand? (hc : Steady N ctx) : ∀ {e : Expr} {P : Pairing} {s s' : Store K},
    PairedEnv N V r P env env' → Matches P s s' → (Rule.uses V).Expr e →
    Agree N P (operand? ctx env e) s (operand? ctx env' (e.rename r)) s'
      fun P' => Option.Rel P'.operand
  | .float _, P, s, s', _, hm, _ => by
    unfold operand? Expr.rename
    exact .pure hm (.some rfl)
  | .int _, P, s, s', _, hm, _ => by
    unfold operand? Expr.rename
    exact .pure hm (.some rfl)
  | .bool _, P, s, s', _, hm, _ => by
    unfold operand? Expr.rename
    exact .pure hm (.some rfl)
  | .funcRef f, P, s, s', _, hm, _ => by
    unfold operand? Expr.rename
    exact .fail hm (RuntimeError.alike_refl hc.refl _)
  | .var x, P, s, s', h, hm, he => by
    rw [Expr.rename, operand?, operand?]
    refine (agree_lookup h hm (Rule.expr_var.mp he)).bind fun P₁ b c t t' _ ht hbc => ?_
    exact (agree_operand_binding ht hbc).bind fun P₂ o o' u u' _ hu ho => .pure hu (.some ho)
  | .index x i, P, s, s', h, hm, he => by
    obtain ⟨hx, hi⟩ := Rule.expr_index.mp he
    rw [Expr.rename, operand?, operand?]
    refine (agree_arrayOf h hm hx).bind fun P₁ a b t t' hP₁ ht hab => ?_
    have h₁ := h.mono hP₁
    refine (agree_operand? hc h₁ ht hi).bind fun P₂ o o' u u' hP₂ hu ho => ?_
    refine (agree_int hc (h₁.mono hP₂) hu hi ho).bind_eq fun P₃ index v v' hP₃ hv => ?_
    have hslot := agree_elementSlot hv (h.names x hx) (hP₃.array (hP₂.array hab)) index
    refine hslot.bind fun P₄ y z w w' _ hw hyz => ?_
    exact (agree_read hw hyz).bind_eq fun P₅ c q q' hP₅ hq => .pure hq (.some ⟨hP₅.slot hyz, rfl⟩)
  | .unary .neg e, P, s, s', h, hm, he => by
    have he' := (Rule.expr_unary.mp he).2
    rw [Expr.rename, operand?, operand?]
    refine (agree_operand? hc h hm he').bind fun P₁ o o' t t' hP₁ ht ho => ?_
    refine (agree_value hc (h.mono hP₁) ht he' ho).bind_eq fun P₂ v u u' _ hu => ?_
    exact (agree_lift hc hu _).bind_eq fun P₃ w q q' _ hq => .pure hq (.some rfl)
  | .unary .not e, P, s, s', h, hm, he => by
    have he' := (Rule.expr_unary.mp he).2
    rw [Expr.rename, operand?, operand?]
    refine (agree_operand? hc h hm he').bind fun P₁ o o' t t' hP₁ ht ho => ?_
    exact (agree_bool hc (h.mono hP₁) ht he' ho).bind_eq fun P₂ b u u' _ hu => .pure hu (.some rfl)
  | .binary op l e, P, s, s', h, hm, he => by
    obtain ⟨-, hl, hr⟩ := Rule.expr_binary.mp he
    -- the second operand is evaluated after the first
    have hright : ∀ {P' : Pairing} {t t' : Store K} {α : Type} {f : Option (Operand K) → Exec K α}
        {f' : Option (Operand K) → Exec K α} {R : Pairing → α → α → Prop}, P.Within P' →
        Matches P' t t' → (∀ P₁ o o' u u', PairedEnv N V r P₁ env env' → Matches P₁ u u' →
          Option.Rel P₁.operand o o' → Agree N P₁ (f o) u (f' o') u' R) →
        Agree N P' (operand? ctx env e >>= f) t (operand? ctx env' (e.rename r) >>= f') t' R :=
      fun hP ht hf => (agree_operand? hc (h.mono hP) ht hr).bind fun P₁ o o' u u' hP₁ hu ho =>
        hf P₁ o o' u u' ((h.mono hP).mono hP₁) hu ho
    have hboth : ∀ op : BinOp, Agree N P (do
        let a ← value l (← operand? ctx env l)
        let b ← value e (← operand? ctx env e)
        return some (Operand.value (← lift (op.apply a b)))) s (do
        let a ← value (l.rename r) (← operand? ctx env' (l.rename r))
        let b ← value (e.rename r) (← operand? ctx env' (e.rename r))
        return some (Operand.value (← lift (op.apply a b)))) s'
        fun P' => Option.Rel P'.operand := by
      intro op
      refine (agree_operand? hc h hm hl).bind fun P₁ o o' t t' hP₁ ht ho => ?_
      refine (agree_value hc (h.mono hP₁) ht hl ho).bind_eq fun P₂ a u u' hP₂ hu => ?_
      refine hright (hP₁.trans hP₂) hu fun P₃ o o' v v' h₃ hv ho => ?_
      refine (agree_value hc h₃ hv hr ho).bind_eq fun P₄ b w w' _ hw => ?_
      exact (agree_lift hc hw _).bind_eq fun P₅ c q q' _ hq => .pure hq (.some rfl)
    cases op with
    | and =>
      rw [Expr.rename, operand?, operand?]
      refine (agree_operand? hc h hm hl).bind fun P₁ o o' t t' hP₁ ht ho => ?_
      refine (agree_bool hc (h.mono hP₁) ht hl ho).bind_eq fun P₂ a u u' hP₂ hu => ?_
      split
      · refine hright (hP₁.trans hP₂) hu fun P₃ o o' v v' h₃ hv ho => ?_
        exact (agree_bool hc h₃ hv hr ho).bind_eq fun P₄ b w w' _ hw => .pure hw (.some rfl)
      · exact .pure hu (.some rfl)
    | or =>
      rw [Expr.rename, operand?, operand?]
      refine (agree_operand? hc h hm hl).bind fun P₁ o o' t t' hP₁ ht ho => ?_
      refine (agree_bool hc (h.mono hP₁) ht hl ho).bind_eq fun P₂ a u u' hP₂ hu => ?_
      split
      · exact .pure hu (.some rfl)
      · refine hright (hP₁.trans hP₂) hu fun P₃ o o' v v' h₃ hv ho => ?_
        exact (agree_bool hc h₃ hv hr ho).bind_eq fun P₄ b w w' _ hw => .pure hw (.some rfl)
    | _ =>
      unfold Expr.rename operand?
      exact hboth _
  | .call f args, P, s, s', h, hm, he => by
    have hargs := (Rule.expr_call.mp he).2
    rw [Expr.rename, operand?, operand?]
    split
    · refine (agree_firstOperand? hc h hm hargs).bind fun P₁ o o' t t' _ ht ho => ?_
      exact agree_lengthOf hc ht ho
    · refine (agree_tapeOf hc h hm hargs).bind fun P₁ a b t t' hP₁ ht hab => ?_
      refine (agree_secondValue? hc (h.mono hP₁) ht hargs).bind_eq fun P₂ o u u' hP₂ hu => ?_
      refine (agree_require hc hu _ o).bind_eq fun P₃ v w w' hP₃ hw => ?_
      have hpush : Agree N P₃ (modify (·.push a v)) w (modify (·.push b v)) w' fun _ => Eq :=
        ⟨P₃, .refl P₃, hw.push (hP₃.tape (hP₂.tape hab)) v, rfl⟩
      exact hpush.bind_eq fun P₄ _ q q' _ hq => .pure hq (.some rfl)
    · refine (agree_tapeOf hc h hm hargs).bind fun P₁ a b t t' _ ht hab => ?_
      have hpop := agree_popFrom ht (nameOf_related hc h hargs) hab
      exact hpop.bind_eq fun P₂ v u u' _ hu => .pure hu (.some rfl)
    · exact (agree_differenceOf hc h hm hargs).bind_eq fun P₁ v t t' _ ht => .pure ht (.some rfl)
    · refine (agree_operands hc h hm hargs).bind fun P₁ os os' t t' _ ht ho => ?_
      refine (agree_callNamed hc ht f ho).bind_eq fun P₂ v u u' _ hu => ?_
      cases v with
      | none => exact .pure hu .none
      | some v => exact .pure hu (.some rfl)

theorem agree_operands (hc : Steady N ctx) : ∀ {es : List Expr} {P : Pairing} {s s' : Store K},
    PairedEnv N V r P env env' → Matches P s s' → (Rule.uses V).Exprs es →
    Agree N P (operands ctx env es) s (operands ctx env' (renameArgs r es)) s'
      fun P' => List.Forall₂ P'.operand
  | [], P, s, s', _, hm, _ => by
    unfold operands renameArgs
    exact .pure hm .nil
  | e :: es, P, s, s', h, hm, hes => by
    obtain ⟨he, hes⟩ := Rule.exprs_cons.mp hes
    rw [renameArgs, operands, operands]
    refine (agree_operand? hc h hm he).bind fun P₁ o o' t t' hP₁ ht ho => ?_
    refine (Agree.require ht (RuntimeError.alike_refl hc.refl _) ho).bind
      fun P₂ p p' u u' hP₂ hu hp => ?_
    have h₂ := (h.mono hP₁).mono hP₂
    refine (agree_operands hc h₂ hu hes).bind fun P₃ os os' v v' hP₃ hv hos => ?_
    exact .pure hv (.cons (hP₃.operand hp) hos)

theorem agree_firstOperand? (hc : Steady N ctx) : ∀ {es : List Expr} {P : Pairing}
    {s s' : Store K}, PairedEnv N V r P env env' → Matches P s s' → (Rule.uses V).Exprs es →
    Agree N P (firstOperand? ctx env es) s (firstOperand? ctx env' (renameArgs r es)) s'
      fun P' => Option.Rel P'.operand
  | [], P, s, s', _, hm, _ => by
    unfold firstOperand? renameArgs
    exact .pure hm .none
  | e :: es, P, s, s', h, hm, hes => by
    rw [renameArgs, firstOperand?, firstOperand?]
    have he := (Rule.exprs_cons.mp hes).1
    refine (agree_operand? hc h hm he).bind fun P₁ o o' t t' _ ht ho => ?_
    refine (Agree.require ht (RuntimeError.alike_refl hc.refl _) ho).bind
      fun P₂ p p' u u' _ hu hp => ?_
    exact .pure hu (.some hp)

theorem agree_secondValue? (hc : Steady N ctx) : ∀ {es : List Expr} {P : Pairing}
    {s s' : Store K}, PairedEnv N V r P env env' → Matches P s s' → (Rule.uses V).Exprs es →
    Agree N P (secondValue? ctx env es) s (secondValue? ctx env' (renameArgs r es)) s' fun _ => Eq
  | [], P, s, s', _, hm, _ => by
    unfold secondValue? renameArgs
    exact .pure hm rfl
  | [_], P, s, s', _, hm, _ => by
    unfold secondValue? renameArgs
    exact .pure hm rfl
  | _ :: e :: es, P, s, s', h, hm, hes => by
    have he := (Rule.exprs_cons.mp (Rule.exprs_cons.mp hes).2).1
    rw [renameArgs, renameArgs, secondValue?, secondValue?]
    refine (agree_operand? hc h hm he).bind fun P₁ o o' t t' hP₁ ht ho => ?_
    exact (agree_value hc (h.mono hP₁) ht he ho).bind_eq fun P₂ v u u' _ hu => .pure hu rfl

theorem agree_numbers (hc : Steady N ctx) : ∀ {es : List Expr} {P : Pairing} {s s' : Store K},
    PairedEnv N V r P env env' → Matches P s s' → (Rule.uses V).Exprs es →
    Agree N P (numbers ctx env es) s (numbers ctx env' (renameArgs r es)) s' fun _ => Eq
  | [], P, s, s', _, hm, _ => by
    unfold numbers renameArgs
    exact .pure hm rfl
  | e :: es, P, s, s', h, hm, hes => by
    obtain ⟨he, hes⟩ := Rule.exprs_cons.mp hes
    rw [renameArgs, numbers, numbers]
    refine (agree_operand? hc h hm he).bind fun P₁ o o' t t' hP₁ ht ho => ?_
    refine (agree_value hc (h.mono hP₁) ht he ho).bind_eq fun P₂ v u u' hP₂ hu => ?_
    have hnum : Agree N P₂ (numeric v) u (numeric v) u' fun _ => Eq := by
      unfold numeric
      split
      · exact .pure hu rfl
      · exact .fail hu (RuntimeError.alike_refl hc.refl _)
    refine hnum.bind_eq fun P₃ w q q' hP₃ hq => ?_
    have h₃ := ((h.mono hP₁).mono hP₂).mono hP₃
    exact (agree_numbers hc h₃ hq hes).bind_eq fun P₄ vs p p' _ hp => .pure hp rfl

theorem agree_differenceOf (hc : Steady N ctx) : ∀ {es : List Expr} {P : Pairing}
    {s s' : Store K}, PairedEnv N V r P env env' → Matches P s s' → (Rule.uses V).Exprs es →
    Agree N P (differenceOf ctx env es) s (differenceOf ctx env' (renameArgs r es)) s' fun _ => Eq
  | [], P, s, s', _, hm, _ => by
    unfold differenceOf renameArgs
    exact .fail hm (RuntimeError.alike_refl hc.refl _)
  | e :: es, P, s, s', h, hm, hes => by
    cases e with
    | funcRef target =>
      rcases es with _ | ⟨k, _ | ⟨print, rest⟩⟩
      · exact .fail hm (RuntimeError.alike_refl hc.refl _)
      · exact .fail hm (RuntimeError.alike_refl hc.refl _)
      obtain ⟨hk, hes⟩ := Rule.exprs_cons.mp (Rule.exprs_cons.mp hes).2
      obtain ⟨hp, hrest⟩ := Rule.exprs_cons.mp hes
      rw [renameArgs, renameArgs, renameArgs, Expr.rename, differenceOf, differenceOf]
      refine (agree_operand? hc h hm hk).bind fun P₁ o o' t t' hP₁ ht ho => ?_
      have h₁ := h.mono hP₁
      refine (agree_int hc h₁ ht hk ho).bind_eq fun P₂ index u u' hP₂ hu => ?_
      have h₂ := h₁.mono hP₂
      refine (agree_operand? hc h₂ hu hp).bind fun P₃ o o' v v' hP₃ hv ho => ?_
      have h₃ := h₂.mono hP₃
      refine (agree_bool hc h₃ hv hp ho).bind_eq fun P₄ b w w' hP₄ hw => ?_
      refine (agree_numbers hc (h₃.mono hP₄) hw hrest).bind_eq fun P₅ point q q' _ hq => ?_
      exact agree_difference hc hq target index point
    | _ =>
      unfold differenceOf renameArgs
      exact .fail hm (RuntimeError.alike_refl hc.refl _)

end

/-! ### Places -/

section

variable (hc : Steady N ctx) (h : PairedEnv N V r P env env') (hm : Matches P s s') {e : Expr}
  (he : (Rule.uses V).Expr e)

include hc h hm he

theorem agree_eval? : Agree N P (eval? ctx env e) s (eval? ctx env' (e.rename r)) s' fun _ => Eq :=
  (agree_operand? hc h hm he).bind fun _ _ _ _ _ hP ht ho => agree_value? hc (h.mono hP) ht he ho

theorem agree_eval : Agree N P (eval ctx env e) s (eval ctx env' (e.rename r)) s' fun _ => Eq :=
  (agree_operand? hc h hm he).bind fun _ _ _ _ _ hP ht ho => agree_value hc (h.mono hP) ht he ho

theorem agree_evalInt :
    Agree N P (evalInt ctx env e) s (evalInt ctx env' (e.rename r)) s' fun _ => Eq :=
  (agree_operand? hc h hm he).bind fun _ _ _ _ _ hP ht ho => agree_int hc (h.mono hP) ht he ho

theorem agree_evalBool :
    Agree N P (evalBool ctx env e) s (evalBool ctx env' (e.rename r)) s' fun _ => Eq :=
  (agree_operand? hc h hm he).bind fun _ _ _ _ _ hP ht ho => agree_bool hc (h.mono hP) ht he ho

end

theorem agree_slotOf (hc : Steady N ctx) (h : PairedEnv N V r P env env') (hm : Matches P s s')
    {p : Place} (hp : V p.name) (hparts : (Rule.uses V).Place p) :
    Agree N P (slotOf ctx env p) s (slotOf ctx env' (p.rename r)) s' fun P' => P'.slot := by
  cases p with
  | var x =>
    refine (agree_lookup h hm hp).bind fun P₁ b c t t' _ ht hbc => ?_
    rcases b with y | a | a <;> rcases c with z | b | b <;> try exact hbc.elim
    · exact .pure ht hbc
    · exact .fail ht (h.names x hp)
    · exact .fail ht (h.names x hp)
  | index x i =>
    refine (agree_arrayOf h hm hp).bind fun P₁ a b t t' hP₁ ht hab => ?_
    refine (agree_evalInt hc (h.mono hP₁) ht hparts).bind_eq fun P₂ index u u' hP₂ hu => ?_
    exact agree_elementSlot hu (h.names x hp) (hP₂.array hab) index

end Eval

end Fluxion
