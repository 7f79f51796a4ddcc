import Mathlib.Algebra.Field.Basic
import Fluxion.Proofs.Accumulated.Code
import Fluxion.Proofs.Accumulated.Storage
import Fluxion.Proofs.Numbers.Exact
import Fluxion.Proofs.Typing.Evaluation
import Fluxion.Proofs.Typing.Lengths

/-!
Runs of code that only adds to accumulators. Whatever accumulators held at first, both runs go the
same way, and the accumulators stay as far apart as they were.
-/

namespace Fluxion

variable {K : Type}

/-- The lists have the same length, and elements at the same position, counted from `k`, are
related. -/
inductive Along {α β : Type} (R : Nat → α → β → Prop) : Nat → List α → List β → Prop
  | nil {k : Nat} : Along R k [] []
  | cons {k : Nat} {a : α} {b : β} {as : List α} {bs : List β} (head : R k a b)
      (tail : Along R (k + 1) as bs) : Along R k (a :: as) (b :: bs)

namespace Along

variable {α β : Type} {R R' : Nat → α → β → Prop} {k : Nat} {as : List α} {bs : List β}

theorem imp (h : Along R k as bs) (hR : ∀ i a b, R i a b → R' i a b) : Along R' k as bs := by
  induction h with
  | nil => exact .nil
  | cons hhead _ ih => exact .cons (hR _ _ _ hhead) ih

theorem forall₂ {T : α → β → Prop} (h : Along R k as bs) (hR : ∀ i a b, R i a b → T a b) :
    List.Forall₂ T as bs := by
  induction h with
  | nil => exact .nil
  | cons hhead _ ih => exact .cons (hR _ _ _ hhead) ih

theorem iff_getElem? : ∀ {k : Nat} {as : List α} {bs : List β}, Along R k as bs ↔
    as.length = bs.length ∧ ∀ i a b, as[i]? = some a → bs[i]? = some b → R (k + i) a b
  | k, [], [] => ⟨fun _ => ⟨rfl, by simp⟩, fun _ => .nil⟩
  | k, [], b :: bs => ⟨nofun, fun h => by simp at h⟩
  | k, a :: as, [] => ⟨nofun, fun h => by simp at h⟩
  | k, a :: as, b :: bs => by
    constructor
    · rintro (_ | ⟨hhead, htail⟩)
      obtain ⟨hlen, hget⟩ := iff_getElem?.mp htail
      refine ⟨by simp [hlen], fun i x y hx hy => ?_⟩
      cases i with
      | zero =>
        cases hx
        cases hy
        exact hhead
      | succ i =>
        have := hget i x y hx hy
        rwa [Nat.add_right_comm, Nat.add_assoc] at this
    · rintro ⟨hlen, hget⟩
      refine .cons (hget 0 a b rfl rfl) (iff_getElem?.mpr ⟨by simpa using hlen, fun i x y hx hy => ?_⟩)
      have := hget (i + 1) x y hx hy
      rwa [← Nat.add_assoc, Nat.add_right_comm] at this

end Along

/-! ### What is lent -/

namespace Accumulators

variable (A : Accumulators K)

/-- Both operands are the same accumulator, or the same slot of one. -/
inductive LendsOperand (s : Store K) : Operand K → Operand K → Prop
  | place {slot : Slot} {v v' : K} (has : A.Has s slot) :
    LendsOperand s (.place slot (.float v)) (.place slot (.float v'))
  | array {id : Nat} (has : A.array id) : LendsOperand s (.array id) (.array id)

/-- Both parameters are bound to the same accumulator, or to the same slot of one. -/
inductive LendsBound (s : Store K) : Bound K → Bound K → Prop
  | slot {slot : Slot} (has : A.Has s slot) : LendsBound s (.slot slot) (.slot slot)
  | array {id : Nat} (has : A.array id) : LendsBound s (.array id) (.array id)

/-- The operands correspond, or are accumulators at a position that is only added to. -/
def operands (L : Nat → Bool) (P : Pairing) (s : Store K) (i : Nat) (o o' : Operand K) : Prop :=
  P.operand o o' ∨ L i = true ∧ A.LendsOperand s o o'

/-- What parameters are bound to corresponds and is no tape, or is an accumulator at a position that
is only added to. -/
def bounds (L : Nat → Bool) (P : Pairing) (s : Store K) (i : Nat) (b b' : Bound K) : Prop :=
  (P.bound b b' ∧ ∀ id, b ≠ .tape id) ∨ L i = true ∧ A.LendsBound s b b'

variable {A}

theorem operands.later {L : Nat → Bool} {P P' : Pairing} {s t : Store K} {i : Nat}
    {o o' : Operand K} (h : A.operands L P s i o o') (hP : P.Within P')
    (hshape : ∀ id, A.array id → s.SameShape t id) : A.operands L P' t i o o' := by
  rcases h with h | ⟨hL, h⟩
  · exact .inl (hP.operand h)
  · cases h with
    | place has => exact .inr ⟨hL, .place (has.of_shape hshape)⟩
    | array has => exact .inr ⟨hL, .array has⟩

theorem bounds.later {L : Nat → Bool} {P P' : Pairing} {s t : Store K} {i : Nat}
    {b b' : Bound K} (h : A.bounds L P s i b b') (hP : P.Within P')
    (hshape : ∀ id, A.array id → s.SameShape t id) : A.bounds L P' t i b b' := by
  rcases h with ⟨h, htape⟩ | ⟨hL, h⟩
  · exact .inl ⟨hP.bound h, htape⟩
  · cases h with
    | slot has => exact .inr ⟨hL, .slot (has.of_shape hshape)⟩
    | array has => exact .inr ⟨hL, .array has⟩

end Accumulators

/-- Calls do the same in both runs, and only add to what they are lent. -/
structure Lending [Add K] (lends : Lends) (A : Accumulators K) (ctx : Context K) : Prop where
  steady : Steady Eq ctx
  framed : Framed (fun _ _ => True) A.guard ctx
  shared : ∀ g ∈ ctx.funcs, ∀ i p, lends g.name g.params.length i = true →
    g.params[i]? = some p → p.ty.isShared = true
  call : ∀ {total : Prop} {P : Pairing} {s s' : Store K} {g : Func} {bs bs' : List (Bound K)},
    g ∈ ctx.funcs → Drift A P s s' →
    Along (A.bounds (lends g.name g.params.length) P s) 0 bs bs' →
    Drifts total A P (ctx.call g bs) s (ctx.call g bs') s' SameResult

/-! ### Code that has nothing to do with accumulators -/

namespace Guard

variable {O : String → Bool} {G : Guard} {W : Writable} {funcs : Program}

theorem expr_of_unread (hpops : G.pops) {e : Expr} (h : unread O e.parts = true) :
    (G.rule W funcs fun x => O x = true).Expr e := fun _ hpart =>
  part_of_unread hpops (unread_iff.mpr (Rule.expr_of_mem_parts (unread_iff.mp h) hpart))

theorem place_of_unread (hpops : G.pops) {p : Place} (h : unread O p.parts = true) :
    (G.rule W funcs fun x => O x = true).Place p := by
  cases p with
  | var x => exact fun _ hpart => by cases hpart
  | index x i => exact expr_of_unread hpops h

theorem assignment_of_spares (hpops : G.pops) {a : Assignment} (h : a.spares O = true) :
    (G.rule W funcs fun x => O x = true).Assignment a := by
  simp only [Assignment.spares, Assignment.parts, unread_append, Bool.and_eq_true] at h
  exact ⟨by simpa [Guard.rule] using h.1, place_of_unread hpops h.2.1, expr_of_unread hpops h.2.2⟩

end Guard

theorem uses_of_spares {O : String → Bool} {a : Assignment} (h : a.spares O = true) :
    (Rule.uses fun x => O x = false).Assignment a := by
  simp only [Assignment.spares, Assignment.parts, unread_append, Bool.and_eq_true] at h
  exact ⟨by simpa [Rule.uses] using h.1, unread_iff.mp h.2.1, unread_iff.mp h.2.2⟩

theorem Expr.rename_nil (e : Expr) : e.rename [] = e := Expr.rename_of_apply_self (fun _ => rfl) e

theorem Assignment.rename_nil (a : Assignment) : a.rename [] = a :=
  Assignment.rename_of_apply_self (fun _ => rfl) a

namespace Abreast

variable [Add K] {A : Accumulators K} {O : String → Bool} {P : Pairing} {env env' : Env}
  {s s' : Store K}

/-- Both runs have declared a variable that is no accumulator. -/
theorem declare (h : Abreast A O P env env' s s') {x : String} (hx : O x = false) {b b' : Binding}
    (hb : P.binding b b') : Abreast A O P ((x, b) :: env) ((x, b') :: env') s s' where
  drift := h.drift
  vars := by
    refine ⟨fun _ _ => rfl, fun y hy => ?_⟩
    change Option.Rel P.binding (((x, b) :: env).lookup y) (((x, b') :: env').lookup y)
    by_cases hyx : y = x
    · subst hyx
      simpa using Option.Rel.some hb
    · rw [lookup_cons_of_ne hyx, lookup_cons_of_ne hyx]
      exact h.vars.bindings y hy
  lent y hy := by
    have hyx : y ≠ x := by
      rintro rfl
      rw [hx] at hy
      cases hy
    rw [lookup_cons_of_ne hyx, lookup_cons_of_ne hyx]
    exact h.lent y hy

/-- Both runs have declared one more variable, as an accumulator. -/
theorem lend (h : Abreast A O P env env' s s') (x : String) {b : Binding} (hb : A.Lends s b) :
    Abreast A (fun y => O y || y == x) P ((x, b) :: env) ((x, b) :: env') s s' where
  drift := h.drift
  vars := by
    refine ⟨fun _ _ => rfl, fun y hy => ?_⟩
    rw [Bool.or_eq_false_iff, beq_eq_false_iff_ne] at hy
    change Option.Rel P.binding (((x, b) :: env).lookup y) (((x, b) :: env').lookup y)
    rw [lookup_cons_of_ne hy.2, lookup_cons_of_ne hy.2]
    exact h.vars.bindings y hy.1
  lent y hy := by
    by_cases hyx : y = x
    · subst hyx
      exact ⟨b, by simp, by simp, hb⟩
    · rw [lookup_cons_of_ne hyx, lookup_cons_of_ne hyx]
      exact h.lent y (by simpa [hyx] using hy)

end Abreast

/-! ### Expressions -/

/-- Adding to a number leaves it as far ahead as it was. -/
theorem BinOp.apply_ahead [ExactScalar K] {op : BinOp} (hop : op = .add ∨ op = .sub) (a d : K)
    (v : Value K) :
    (∃ b, op.apply (.float a) v = .ok (.float b) ∧
        op.apply (.float (a + d)) v = .ok (.float (b + d))) ∨
      ∃ e, op.apply (.float a) v = .error e ∧ op.apply (.float (a + d)) v = .error e := by
  rcases hop with rfl | rfl <;> cases v <;>
    simp [BinOp.apply, BinOp.dividesByZero, BinOp.value?, BinOp.onNumbers, Value.ty]
  · exact add_right_comm _ _ _
  · exact add_right_comm _ _ _
  · exact add_sub_right_comm _ _ _
  · exact add_sub_right_comm _ _ _

/-- Operands that correspond are paired apart from accumulators, if both are other storage. -/
theorem Pairing.sparing_operand {P : Pairing} {A : Accumulators K} : ∀ {o o' : Operand K},
    P.operand o o' → o.Apart A.guard → o'.Apart A.guard → (P.sparing A).operand o o'
  | .value _, .value _, h, _, _ => h
  | .place (.cell _) _, .place (.cell _) _, h, ho, ho' => ⟨⟨h.1, ho, ho'⟩, h.2⟩
  | .place (.element _ _) _, .place (.element _ _) _, h, ho, ho' => ⟨⟨⟨h.1.1, ho, ho'⟩, h.1.2⟩, h.2⟩
  | .array _, .array _, h, ho, ho' => ⟨h, ho 0, ho' 0⟩
  | .tape _, .tape _, h, _, _ => h

namespace Eval

open Exec

variable [ExactScalar K] {lends : Lends} {A : Accumulators K} {O : String → Bool} {P : Pairing}
  {env env' : Env} {ctx : Context K} {s s' : Store K} {total : Prop}

omit [ExactScalar K] in
theorem rule_of_unread (A : Accumulators K) (funcs : Program) {e : Expr}
    (he : unread O e.parts = true) :
    (A.guard.rule (fun _ _ => True) funcs fun x => O x = true).Expr e :=
  Guard.expr_of_unread trivial he

section

variable (hc : Lending lends A ctx) (h : Abreast A O P env env' s s')

include hc h

theorem drifts_eval? {e : Expr} (he : unread O e.parts = true) :
    Drifts total A P (eval? ctx env e) s (eval? ctx env' e) s' fun P' a b t t' =>
      a = b ∧ Abreast A O P' env env' t t' := by
  have hm := agree_eval? hc.steady h.vars h.drift.paired (unread_iff.mp he)
  rw [Expr.rename_nil] at hm
  have hr := rule_of_unread A ctx.funcs he
  exact h.step hm (safe_eval? hc.framed h.fits hr) (safe_eval? hc.framed h.fits' hr)

theorem drifts_eval {e : Expr} (he : unread O e.parts = true) :
    Drifts total A P (eval ctx env e) s (eval ctx env' e) s' fun P' a b t t' =>
      a = b ∧ Abreast A O P' env env' t t' := by
  have hm := agree_eval hc.steady h.vars h.drift.paired (unread_iff.mp he)
  rw [Expr.rename_nil] at hm
  have hr := rule_of_unread A ctx.funcs he
  exact h.step hm (safe_eval hc.framed h.fits hr) (safe_eval hc.framed h.fits' hr)

theorem drifts_evalInt {e : Expr} (he : unread O e.parts = true) :
    Drifts total A P (evalInt ctx env e) s (evalInt ctx env' e) s' fun P' a b t t' =>
      a = b ∧ Abreast A O P' env env' t t' := by
  have hm := agree_evalInt hc.steady h.vars h.drift.paired (unread_iff.mp he)
  rw [Expr.rename_nil] at hm
  have hr := rule_of_unread A ctx.funcs he
  exact h.step hm (safe_evalInt hc.framed h.fits hr) (safe_evalInt hc.framed h.fits' hr)

theorem drifts_evalBool {e : Expr} (he : unread O e.parts = true) :
    Drifts total A P (evalBool ctx env e) s (evalBool ctx env' e) s' fun P' a b t t' =>
      a = b ∧ Abreast A O P' env env' t t' := by
  have hm := agree_evalBool hc.steady h.vars h.drift.paired (unread_iff.mp he)
  rw [Expr.rename_nil] at hm
  have hr := rule_of_unread A ctx.funcs he
  exact h.step hm (safe_evalBool hc.framed h.fits hr) (safe_evalBool hc.framed h.fits' hr)

omit hc

theorem drifts_arrayOf {x : String} (hx : O x = true) :
    Drifts total A P (arrayOf env x) s (arrayOf env' x) s' fun P' a b t t' =>
      (a = b ∧ A.array a) ∧ Abreast A O P' env env' t t' := by
  obtain ⟨b, hb, hb', hl⟩ := h.lent x hx
  rw [arrayOf, arrayOf, lookup_eq hb, lookup_eq hb', pure_bind]
  cases b with
  | scalar slot => exact .stop
  | array id => exact .pure h.drift ⟨⟨rfl, hl⟩, h⟩
  | tape id => exact .stop

theorem drifts_elementSlot (x : String) {id : Nat} (hid : A.array id) (n : Int64) :
    Drifts total A P (elementSlot x id n) s (elementSlot x id n) s' fun P' a b t t' =>
      (a = b ∧ A.Has t a) ∧ Abreast A O P' env env' t t' := by
  refine .get_bind ?_
  rw [(h.drift.arrays id hid).2.2.2]
  dsimp only
  split
  · exact .stop
  · rename_i hn
    exact .pure h.drift ⟨⟨rfl, hid, by omega⟩, h⟩

include hc

/-- Both runs find the same slot of an accumulator. -/
theorem drifts_slotOf {p : Place} (hO : O p.name = true) (hp : unread O p.parts = true) :
    Drifts total A P (slotOf ctx env p) s (slotOf ctx env' p) s' fun P' a b t t' =>
      (a = b ∧ A.Has t a) ∧ Abreast A O P' env env' t t' := by
  cases p with
  | var x =>
    obtain ⟨b, hb, hb', hl⟩ := h.lent x hO
    rw [slotOf, slotOf, lookup_eq hb, lookup_eq hb', pure_bind]
    cases b with
    | scalar slot => exact .pure h.drift ⟨⟨rfl, hl⟩, h⟩
    | array id => exact .stop
    | tape id => exact .stop
  | index x i =>
    refine (drifts_arrayOf h hO).bind fun P₁ id id' t t' _ _ _ hid => ?_
    obtain ⟨⟨rfl, hid⟩, h₁⟩ := hid
    refine (drifts_evalInt hc h₁ hp).bind fun P₂ n n' u u' _ _ _ hn => ?_
    obtain ⟨rfl, h₂⟩ := hn
    exact drifts_elementSlot h₂ x hid n

/-- Both runs lend the same accumulator. -/
theorem drifts_lent {e : Expr} {p : Place} (hplace : e.place? = some p) (hO : O p.name = true)
    (hp : unread O p.parts = true) :
    Drifts total A P (operand? ctx env e) s (operand? ctx env' e) s' fun P' a b t t' =>
      (∃ o o', a = some o ∧ b = some o' ∧ A.LendsOperand t o o') ∧
        Abreast A O P' env env' t t' := by
  have hplaced : ∀ {P' : Pairing} {t t' : Store K} {slot : Slot}, A.Has t slot →
      Abreast A O P' env env' t t' →
      Drifts total A P' (do return some (.place slot (← read slot))) t
        (do return some (.place slot (← read slot))) t' fun P' a b t t' =>
          (∃ o o', a = some o ∧ b = some o' ∧ A.LendsOperand t o o') ∧
            Abreast A O P' env env' t t' := by
    intro P' t t' slot hslot ht
    obtain ⟨v, hv, hv'⟩ := ht.drift.held slot hslot
    refine Drifts.get_bind (.pure ht.drift ⟨⟨_, _, rfl, rfl, ?_⟩, ht⟩)
    rw [hv, hv']
    exact .place hslot
  cases e <;> cases hplace
  · rename_i x
    obtain ⟨b, hb, hb', hl⟩ := h.lent x hO
    rw [operand?, operand?, lookup_eq hb, lookup_eq hb', pure_bind]
    cases b with
    | scalar slot => exact hplaced hl h
    | array id => exact .pure h.drift ⟨⟨_, _, rfl, rfl, .array hl⟩, h⟩
    | tape id => exact hl.elim
  · rename_i x i
    rw [operand?, operand?]
    refine (drifts_arrayOf h hO).bind fun P₁ id id' t t' _ _ _ hid => ?_
    obtain ⟨⟨rfl, hid⟩, h₁⟩ := hid
    have hint : ∀ env₁ {α : Type} (k : Int64 → Exec K α),
        (operand? ctx env₁ i >>= fun o => int i o >>= k) = evalInt ctx env₁ i >>= k :=
      fun _ _ _ => (bind_assoc _ _ _).symm
    rw [hint, hint]
    refine (drifts_evalInt hc h₁ hp).bind fun P₂ n n' u u' _ _ _ hn => ?_
    obtain ⟨rfl, h₂⟩ := hn
    refine (drifts_elementSlot h₂ x hid n).bind fun P₃ slot slot' v v' _ _ _ hslot => ?_
    obtain ⟨⟨rfl, hslot⟩, h₃⟩ := hslot
    exact hplaced hslot h₃

end

/-- Both runs get corresponding operands, or lend the same accumulators. -/
theorem drifts_operands (hc : Lending lends A ctx) {L : Nat → Bool} : ∀ {es : List Expr} {k : Nat}
    {P : Pairing} {s s' : Store K}, Abreast A O P env env' s s' → handsFrom O L k es = true →
    Drifts total A P (operands ctx env es) s (operands ctx env' es) s' fun P' os os' t t' =>
      (os.length = es.length ∧ Along (A.operands L P' t) k os os') ∧ Abreast A O P' env env' t t'
  | [], k, P, s, s', h, _ => by
    rw [operands, operands]
    exact .pure h.drift ⟨⟨rfl, .nil⟩, h⟩
  | e :: es, k, P, s, s', h, hes => by
    rw [handsFrom, Bool.and_eq_true] at hes
    -- what one argument gives
    have hone : Drifts total A P (operand? ctx env e) s (operand? ctx env' e) s'
        fun P' a b t t' => Option.Rel (A.operands L P' t k) a b ∧ Abreast A O P' env env' t t' := by
      cases hread : unread O e.parts with
      | true =>
        have hm := agree_operand? hc.steady h.vars h.drift.paired (unread_iff.mp hread)
        rw [Expr.rename_nil] at hm
        have hr := rule_of_unread A ctx.funcs hread
        refine (Drifts.of_agree h.drift hm (safe_operand? hc.framed h.fits hr)
          (safe_operand? hc.framed h.fits' hr)).imp fun P' a b t t' hP ht hk hQ => ?_
        obtain ⟨P'', rfl, hab, hfits, hfits'⟩ := hQ
        refine ⟨?_, h.later hP ht hk⟩
        have hspare : ∀ place, e.place? = some place → ¬ O place.name = true := by
          intro place hplace
          rw [unread_place hplace, Bool.and_eq_true] at hread
          simpa using hread.1
        cases hab with
        | none => exact .none
        | some hoo =>
          exact .some (.inl (Pairing.sparing_operand hoo ((hfits _ rfl).apart hspare)
            ((hfits' _ rfl).apart hspare)))
      | false =>
        rw [hread, Bool.false_or, Bool.and_eq_true] at hes
        obtain ⟨⟨hL, hplace⟩, _⟩ := hes
        obtain ⟨p, hplace, hp⟩ := (Option.any_eq_true _ _).mp hplace
        have hO : O p.name = true := by
          by_contra hO
          rw [unread_place hplace, hp] at hread
          simp [hO] at hread
        refine (drifts_lent hc h hplace hO hp).imp fun P' a b t t' _ _ _ hQ => ?_
        obtain ⟨⟨o, o', rfl, rfl, ho⟩, ht⟩ := hQ
        exact ⟨.some (.inr ⟨hL, ho⟩), ht⟩
    rw [operands, operands]
    refine hone.bind fun P₁ a b t t' _ _ _ hab => ?_
    obtain ⟨hab, h₁⟩ := hab
    cases hab with
    | none => exact .stop
    | @some o o' ho =>
      have hpure : ∀ o : Operand K, require (K := K) (.type .void) (some o) = pure o := fun _ => rfl
      rw [hpure, hpure, pure_bind, pure_bind]
      refine (drifts_operands hc h₁ hes.2).bind fun P₂ os os' u u' hP₂ hu hk₂ hos => ?_
      obtain ⟨⟨hlen, hos⟩, h₂⟩ := hos
      have hhead := ho.later hP₂ (h₁.drift.same_shape hk₂)
      exact .pure hu ⟨⟨congrArg (· + 1) hlen, .cons hhead hos⟩, h₂⟩

theorem operandTy_eq_of_operands {L : Nat → Bool} (hd : Drift A P s s') {k : Nat}
    {o o' : Operand K} (ho : A.operands L P s k o o') : operandTy s o = operandTy s' o' := by
  rcases ho with ho | ⟨_, ho⟩
  · exact operandTy_eq hd.paired ho
  · cases ho with
    | place has => rfl
    | array has => exact congrArg Ty.arrayOf (hd.arrays _ has).2.2.1.symm

theorem map_operandTy_eq_of_along {L : Nat → Bool} (hd : Drift A P s s') {k : Nat}
    {os os' : List (Operand K)} (ho : Along (A.operands L P s) k os os') :
    os.map (operandTy s) = os'.map (operandTy s') := by
  induction ho with
  | nil => rfl
  | cons hhead _ ih =>
    rw [List.map_cons, List.map_cons, ih, operandTy_eq_of_operands hd hhead]

theorem drifts_bindOperand {L : Nat → Bool} (hd : Drift A P s s') (f : Func) {p : Param} {k : Nat}
    (hty : ∀ t, p.ty ≠ .tape t) (hshared : L k = true → p.ty.isShared = true) {o o' : Operand K}
    (ho : A.operands L P s k o o') :
    Drifts total A P (bindOperand f p o) s (bindOperand f p o') s' fun P' b b' t _ =>
      A.bounds L P' t k b b' := by
  have hstop : ∀ kind, Drifts total A P (fail (.argumentKind f.name p.name kind)) s
      (fail (.argumentKind f.name p.name kind)) s' fun P' b b' t _ => A.bounds L P' t k b b' :=
    fun _ => .stop
  have hpair : ∀ {b b' : Bound K}, P.bound b b' → (∀ id, b ≠ .tape id) →
      Drifts total A P (pure b) s (pure b') s' fun P' b b' t _ => A.bounds L P' t k b b' :=
    fun hb htape => .pure hd (.inl ⟨hb, htape⟩)
  unfold bindOperand
  rcases ho with ho | ⟨hL, ho⟩
  · rcases o with v | ⟨x, v⟩ | a | a <;> rcases o' with w | ⟨y, w⟩ | b | b <;> try exact ho.elim
    · obtain rfl : v = w := ho
      cases p.ty <;> first | exact hstop _ | exact hpair rfl nofun
    · obtain ⟨hxy, rfl⟩ := ho
      cases p.ty <;> first | exact hstop _ | exact hpair hxy nofun | exact hpair rfl nofun
    · cases p.ty <;> first | exact hstop _ | exact hpair ho nofun
    · cases hp : p.ty <;> first | exact absurd hp (hty _) | exact hstop _
  · cases ho with
    | place has =>
      have href := hshared hL
      cases hp : p.ty <;> rw [hp] at href <;>
        first | exact hstop _ | exact .pure hd (.inr ⟨hL, .slot has⟩) | cases href
    | array has => cases p.ty <;> first | exact hstop _ | exact .pure hd (.inr ⟨hL, .array has⟩)

theorem drifts_bindOperands {L : Nat → Bool} (f : Func) {ps : List Param} :
    ∀ {k : Nat} {P : Pairing} {s s' : Store K} {os os' : List (Operand K)}, Drift A P s s' →
    (∀ p ∈ ps, ∀ t, p.ty ≠ .tape t) →
    (∀ (i : Nat) (p : Param), ps[i]? = some p → L (k + i) = true → p.ty.isShared = true) →
    Along (A.operands L P s) k os os' →
    Drifts total A P (bindOperands f ps os) s (bindOperands f ps os') s' fun P' bs bs' t _ =>
      Along (A.bounds L P' t) k bs bs' := by
  induction ps with
  | nil =>
    intro k P s s' os os' hd _ _ _
    unfold bindOperands
    exact .pure hd .nil
  | cons p ps ih =>
    intro k P s s' os os' hd hty hshared ho
    cases ho with
    | nil =>
      unfold bindOperands
      exact .pure hd .nil
    | cons hhead htail =>
      unfold bindOperands
      refine (drifts_bindOperand hd f (hty p (List.mem_cons_self ..)) (hshared 0 p rfl) hhead).bind
        fun P₁ b b' t t' hP₁ ht hk₁ hb => ?_
      have hrest := htail.imp fun i a b h => h.later hP₁ (hd.same_shape hk₁)
      refine (ih ht (fun q hq => hty q (List.mem_cons_of_mem _ hq)) (fun i q hq => ?_) hrest).bind
        fun P₂ bs bs' u u' hP₂ hu hk₂ hbs => .pure hu (.cons (hb.later hP₂ (ht.same_shape hk₂)) hbs)
      rw [Nat.add_assoc, Nat.add_comm 1 i]
      exact hshared (i + 1) q hq

/-- A call that only adds to the accumulators that it is lent. -/
theorem drifts_callNamed (hc : Lending lends A ctx) (hd : Drift A P s s') (f : String)
    {os os' : List (Operand K)} (ho : Along (A.operands (lends f os.length) P s) 0 os os') :
    Drifts total A P (callNamed ctx f os) s (callNamed ctx f os') s' SameResult := by
  refine .get_bind ?_
  rw [← map_operandTy_eq_of_along hd ho]
  dsimp only
  split
  · rename_i g hg
    obtain ⟨hmem, rfl⟩ := mem_of_resolve hg
    obtain ⟨c, hcost⟩ := exists_cost_of_resolve hg
    have hlen : os.length = g.params.length := by rw [length_of_costs? hcost, List.length_map]
    rw [hlen] at ho
    refine (drifts_bindOperands g hd (hc.framed.params g hmem) (fun i p hp hL => ?_) ho).bind
      fun P' bs bs' t t' _ ht _ hbs => hc.call hmem ht hbs
    exact hc.shared g hmem i p (by simpa using hL) hp
  · split
    · exact .stop
    · exact .stop

/-! ### Statements -/

section

variable (hc : Lending lends A ctx) (h : Abreast A O P env env' s s')

include hc h

/-- A call as a statement. -/
theorem drifts_hands {e : Expr} (he : e.hands lends O = true) :
    Drifts total A P (eval? ctx env e) s (eval? ctx env' e) s' fun P' a b t t' =>
      a = b ∧ Abreast A O P' env env' t t' := by
  cases e with
  | call f args =>
    rw [Expr.hands, Bool.and_eq_true, Option.isNone_iff_eq_none] at he
    rw [eval?, eval?, operand?, operand?, he.1]
    simp only [bind_assoc, pure_bind]
    refine (drifts_operands hc h he.2).bind fun P₁ os os' t t' _ _ _ hos => ?_
    obtain ⟨⟨hlen, hos⟩, h₁⟩ := hos
    rw [← hlen] at hos
    refine (drifts_callNamed hc h₁.drift f hos).bind fun P₂ v v' u u' hP₂ hu hk₂ hv => ?_
    obtain rfl : v = v' := hv
    have h₂ := h₁.later hP₂ hu hk₂
    cases v <;> exact .pure hu ⟨rfl, h₂⟩
  | _ => cases he

/-- Both runs add the same to the same slot. -/
theorem drifts_accumulate {a : Assignment} (hO : O a.place.name = true)
    (hop : a.op = .add ∨ a.op = .sub) (hparts : unread O a.parts = true) :
    Drifts total A P (execAssignment ctx env a) s (execAssignment ctx env' a) s'
      fun P' _ _ t t' => Abreast A O P' env env' t t' := by
  rw [Assignment.parts, unread_append, Bool.and_eq_true] at hparts
  refine (drifts_slotOf hc h hO hparts.1).bind fun P₁ slot slot' t t' _ _ _ hslot => ?_
  obtain ⟨⟨rfl, hslot⟩, h₁⟩ := hslot
  refine (drifts_eval hc h₁ hparts.2).bind fun P₂ v v' u u' _ _ hk₂ hv => ?_
  obtain ⟨rfl, h₂⟩ := hv
  have hslot := hslot.of_shape (h₁.drift.same_shape hk₂)
  obtain ⟨op, hbin, hop⟩ : ∃ op, a.op.binOp? = some op ∧ (op = .add ∨ op = .sub) := by
    rcases hop with hop | hop <;> simp [hop, AssignOp.binOp?]
  rw [hbin]
  refine Drifts.get_bind ?_
  obtain ⟨b, hb, hb'⟩ := h₂.drift.held slot hslot
  rw [hb, hb']
  rcases BinOp.apply_ahead hop b (A.ahead slot) v with ⟨w, hw, hw'⟩ | ⟨e, he, he'⟩
  · rw [hw, hw']
    have hk : ∀ (q : Store K) v, Kept .shapes q (q.write slot v) := fun _ v => .write not_false v
    have hd := h₂.drift.write hslot w
    exact ⟨P₂, .refl P₂, hd, hk _ _, hk _ _, h₂.later (.refl P₂) hd (hk _ _)⟩
  · rw [he, he']
    exact .stop

theorem drifts_spares {a : Assignment} (ha : a.spares O = true) :
    Drifts total A P (execAssignment ctx env a) s (execAssignment ctx env' a) s'
      fun P' _ _ t t' => Abreast A O P' env env' t t' := by
  have hm := agree_execAssignment hc.steady h.vars h.drift.paired (uses_of_spares ha)
  rw [Assignment.rename_nil] at hm
  have hr : (A.guard.rule (fun _ _ => True) ctx.funcs fun x => O x = true).Assignment a :=
    Guard.assignment_of_spares trivial ha
  exact (h.step hm (safe_execAssignment hc.framed h.fits hr)
    (safe_execAssignment hc.framed h.fits' hr)).imp fun _ _ _ _ _ _ _ _ hQ => hQ.2

theorem drifts_execAssignment {a : Assignment}
    (hop : (!O a.place.name || a.op == .add || a.op == .sub) = true)
    (hparts : unread O a.parts = true) :
    Drifts total A P (execAssignment ctx env a) s (execAssignment ctx env' a) s'
      fun P' _ _ t t' => Abreast A O P' env env' t t' := by
  cases hO : O a.place.name with
  | false => exact drifts_spares hc h (by simp [Assignment.spares, hO, hparts])
  | true => exact drifts_accumulate hc h hO (by simpa [hO] using hop) hparts

omit hc in
/-- Both runs have declared a variable that is no accumulator. -/
theorem drifts_declared {x : String} (hx : O x = false) {m m' : Exec K Env}
    (hm : Agree Eq P m s m' s' (DeclaredBoth x x env env'))
    (hk : Safe A.guard m s fun e t =>
      Fits (fun x => O x = true) A.guard e t ∧ ∀ y, A.guard.fixed y → e.lookup y = env.lookup y)
    (hk' : Safe A.guard m' s' fun e t =>
      Fits (fun x => O x = true) A.guard e t ∧ ∀ y, A.guard.fixed y → e.lookup y = env'.lookup y) :
    Drifts total A P m s m' s' fun P' e e' t t' => Abreast A O P' e e' t t' := by
  refine (Drifts.of_agree h.drift hm hk hk').imp fun P' e e' t t' hP ht hk hQ => ?_
  obtain ⟨P'', rfl, ⟨b, b', rfl, rfl, hb⟩, hfits, hfits'⟩ := hQ
  have hfree : ¬ O x = true := by simp [hx]
  exact (h.later hP ht hk).declare hx (Pairing.sparing_binding hb
    (hfits.1.apart x b (by simp) hfree) (hfits'.1.apart x b' (by simp) hfree))

theorem drifts_execLocal {d : Local} (hO : O d.name = false) (hd : unread O d.parts = true) :
    Drifts total A P (execLocal ctx env d) s (execLocal ctx env' d) s' fun P' e e' t t' =>
      Abreast A O P' e e' t t' := by
  obtain ⟨x, ty, init⟩ := d
  have hinit : ∀ e, init = some e → unread O e.parts = true := by
    rintro e rfl
    exact hd
  have hm := agree_execLocal (d := ⟨x, ty, init⟩) hc.steady h.vars h.drift.paired
    (fun e he => unread_iff.mp (hinit e he)) (rfl : x = x)
  have hsame : init.map (Expr.rename []) = init := by cases init <;> simp [Expr.rename_nil]
  rw [hsame] at hm
  have hr : (A.guard.rule (fun _ _ => True) ctx.funcs fun x => O x = true).Local ⟨x, ty, init⟩ := by
    refine ⟨⟨not_false, fun _ _ => trivial, fun y _ he hy => ?_⟩, fun e he =>
      Guard.expr_of_unread trivial (hinit e he)⟩
    have hread := hinit _ he
    rw [unread_var, hy] at hread
    cases hread
  exact drifts_declared h hO hm (safe_execLocal hc.framed h.fits hr)
    (safe_execLocal hc.framed h.fits' hr)

theorem drifts_execArray {x : String} (elem : Ty) {len : Expr} (hO : O x = false)
    (hlen : unread O len.parts = true) :
    Drifts total A P (execArray ctx env x elem len) s (execArray ctx env' x elem len) s'
      fun P' e e' t t' => Abreast A O P' e e' t t' := by
  have hm : Agree Eq P (execArray ctx env x elem len) s (execArray ctx env' x elem len) s'
      (DeclaredBoth x x env env') := by
    simpa only [Expr.rename_nil] using
      agree_execArray hc.steady h.vars h.drift.paired (unread_iff.mp hlen) rfl
  have hr : (A.guard.rule (fun _ _ => True) ctx.funcs fun x => O x = true).Array x elem len :=
    ⟨⟨not_false, fun _ _ => trivial, fun y _ he => by cases he⟩, Guard.expr_of_unread trivial hlen⟩
  exact drifts_declared h hO hm (safe_execArray hc.framed h.fits hr)
    (safe_execArray hc.framed h.fits' hr)

theorem drifts_execInit {init : Option LoopInit} (hinit : init.all (LoopInit.spares O) = true) :
    Drifts total A P (execInit ctx env init) s (execInit ctx env' init) s' fun P' e e' t t' =>
      Abreast A O P' e e' t t' := by
  rcases init with _ | (d | a)
  · exact .pure h.drift h
  · simp only [Option.all_some, LoopInit.spares, Bool.and_eq_true, Bool.not_eq_true'] at hinit
    exact drifts_execLocal hc h hinit.1 hinit.2
  · exact (drifts_spares hc h hinit).bind fun _ _ _ _ _ _ ht _ h' => .pure ht h'

theorem drifts_execTest {test : Option Expr}
    (htest : test.all (fun e => unread O e.parts) = true) :
    Drifts total A P (execTest ctx env test) s (execTest ctx env' test) s' fun P' a b t t' =>
      a = b ∧ Abreast A O P' env env' t t' := by
  cases test with
  | none => exact .pure h.drift ⟨rfl, h⟩
  | some e => exact drifts_evalBool hc h htest

theorem drifts_execStep {step : Option Assignment} (hstep : step.all (Assignment.spares O) = true) :
    Drifts total A P (execStep ctx env step) s (execStep ctx env' step) s' fun P' _ _ t t' =>
      Abreast A O P' env env' t t' := by
  cases step with
  | none => exact .pure h.drift h
  | some a => exact drifts_spares hc h hstep

omit hc in
/-- A scope in which both runs do the same. -/
theorem drifts_inScope {α : Type} {m m' : Exec K α} (hm : Drifts total A P m s m' s' SameResult) :
    Drifts total A P (inScope m) s (inScope m') s' fun P' a b t t' =>
      a = b ∧ Abreast A O P' env env' t t' :=
  (Drifts.inScope (Q := Eq) h.drift hm).imp fun _ _ _ _ _ hP ht hk hab => ⟨hab, h.later hP ht hk⟩

end

/-- A loop whose parts do the same in both runs. -/
theorem drifts_rounds {test test' : Exec K Bool} {body body' : Exec K (Flow K)}
    {step step' : Exec K Unit}
    (htest : ∀ {P s s'}, Abreast A O P env env' s s' → Drifts total A P test s test' s'
      fun P' a b t t' => a = b ∧ Abreast A O P' env env' t t')
    (hbody : ∀ {P s s'}, Abreast A O P env env' s s' → Drifts total A P body s body' s'
      fun P' a b t t' => a = b ∧ Abreast A O P' env env' t t')
    (hstep : ∀ {P s s'}, Abreast A O P env env' s s' → Drifts total A P step s step' s'
      fun P' _ _ t t' => Abreast A O P' env env' t t') :
    ∀ (n : Nat) {P s s'}, Abreast A O P env env' s s' →
      Drifts total A P (rounds test body step n) s (rounds test' body' step' n) s'
        fun P' a b t t' => a = b ∧ Abreast A O P' env env' t t'
  | 0, P, s, s', _ => .stop
  | n + 1, P, s, s', h => by
    rw [rounds, rounds]
    refine (htest h).bind fun P₁ b b' t t' _ ht _ hb => ?_
    obtain ⟨rfl, h₁⟩ := hb
    cases b with
    | false => exact .pure ht ⟨rfl, h₁⟩
    | true =>
      refine (hbody h₁).bind fun P₂ flow flow' u u' _ hu _ hflow => ?_
      obtain ⟨rfl, h₂⟩ := hflow
      cases flow with
      | ret v => exact .pure hu ⟨rfl, h₂⟩
      | next =>
        exact (hstep h₂).bind fun P₃ _ _ v v' _ _ _ h₃ => drifts_rounds htest hbody hstep n h₃

mutual

/-- A statement that only adds to accumulators. -/
theorem drifts_execStmt (hc : Lending lends A ctx) (limit : Nat) : ∀ {st : Stmt} {P : Pairing}
    {env env' : Env} {s s' : Store K}, Abreast A O P env env' s s' → st.adds lends O = true →
    Drifts total A P (execStmt ctx limit env st) s (execStmt ctx limit env' st) s'
      fun P' r r' t t' => r.2 = r'.2 ∧ Abreast A O P' r.1 r'.1 t t'
  | .decl d, P, env, env', s, s', h, ha => by
    simp only [Stmt.adds, Bool.and_eq_true, Bool.not_eq_true'] at ha
    rw [execStmt, execStmt]
    exact (drifts_execLocal hc h ha.1 ha.2).bind fun _ _ _ _ _ _ ht _ h' => .pure ht ⟨rfl, h'⟩
  | .arrayDecl x elem len, P, env, env', s, s', h, ha => by
    simp only [Stmt.adds, Bool.and_eq_true, Bool.not_eq_true'] at ha
    rw [execStmt, execStmt]
    exact (drifts_execArray hc h elem ha.1 ha.2).bind fun _ _ _ _ _ _ ht _ h' => .pure ht ⟨rfl, h'⟩
  | .assign a, P, env, env', s, s', h, ha => by
    simp only [Stmt.adds, Bool.and_eq_true] at ha
    rw [execStmt, execStmt]
    exact (drifts_execAssignment hc h ha.1 ha.2).bind fun _ _ _ _ _ _ ht _ h' => .pure ht ⟨rfl, h'⟩
  | .cond test yes no, P, env, env', s, s', h, ha => by
    simp only [Stmt.adds, Bool.and_eq_true] at ha
    rw [execStmt, execStmt]
    refine (drifts_evalBool hc h ha.1.1).bind fun P₁ b b' t t' _ _ _ hb => ?_
    obtain ⟨rfl, h₁⟩ := hb
    cases b with
    | true =>
      exact (drifts_inScope h₁ (drifts_execBody hc limit h₁ ha.1.2)).bind
        fun _ _ _ _ _ _ ht _ h' => .pure ht h'
    | false =>
      exact (drifts_inScope h₁ (drifts_execBody hc limit h₁ ha.2)).bind
        fun _ _ _ _ _ _ ht _ h' => .pure ht h'
  | .for_ init test step body, P, env, env', s, s', h, ha => by
    simp only [Stmt.adds, Bool.and_eq_true] at ha
    obtain ⟨⟨⟨hinit, htest⟩, hstep⟩, hbody⟩ := ha
    rw [execStmt, execStmt]
    refine (drifts_inScope h ?_).bind fun _ _ _ _ _ _ ht _ h' => .pure ht h'
    refine (drifts_execInit hc h hinit).bind fun P₁ inner inner' t t' _ _ _ h₁ => ?_
    exact (drifts_rounds (fun h => drifts_execTest hc h htest)
      (fun h => drifts_inScope h (drifts_execBody hc limit h hbody))
      (fun h => drifts_execStep hc h hstep) limit h₁).imp fun _ _ _ _ _ _ _ _ hQ => hQ.1
  | .while_ test body, P, env, env', s, s', h, ha => by
    simp only [Stmt.adds, Bool.and_eq_true] at ha
    rw [execStmt, execStmt]
    exact (drifts_rounds (fun h => drifts_evalBool hc h ha.1)
      (fun h => drifts_inScope h (drifts_execBody hc limit h ha.2)) (fun h => .pure h.drift h)
      limit h).bind fun _ _ _ _ _ _ ht _ h' => .pure ht h'
  | .ret none, P, env, env', s, s', h, _ => by
    rw [execStmt, execStmt]
    exact .pure h.drift ⟨rfl, h⟩
  | .ret (some e), P, env, env', s, s', h, ha => by
    rw [execStmt, execStmt]
    refine (drifts_eval? hc h ha).bind fun _ v v' _ _ _ ht _ hv => ?_
    obtain ⟨rfl, h'⟩ := hv
    exact .pure ht ⟨rfl, h'⟩
  | .expr e, P, env, env', s, s', h, ha => by
    rw [Stmt.adds, Bool.or_eq_true] at ha
    rw [execStmt, execStmt]
    have heval : Drifts total A P (eval? ctx env e) s (eval? ctx env' e) s' fun P' a b t t' =>
        a = b ∧ Abreast A O P' env env' t t' :=
      ha.elim (drifts_eval? hc h) (drifts_hands hc h)
    exact heval.bind fun _ _ _ _ _ _ ht _ hv => .pure ht ⟨rfl, hv.2⟩
  | .block body, P, env, env', s, s', h, ha => by
    rw [Stmt.adds] at ha
    rw [execStmt, execStmt]
    exact (drifts_inScope h (drifts_execBody hc limit h ha)).bind
      fun _ _ _ _ _ _ ht _ h' => .pure ht h'

/-- Statements that only add to accumulators. -/
theorem drifts_execBody (hc : Lending lends A ctx) (limit : Nat) : ∀ {body : List Stmt}
    {P : Pairing} {env env' : Env} {s s' : Store K}, Abreast A O P env env' s s' →
    addsAll lends O body = true →
    Drifts total A P (execBody ctx limit env body) s (execBody ctx limit env' body) s' SameResult
  | [], P, env, env', s, s', h, _ => by
    rw [execBody, execBody]
    exact .pure h.drift rfl
  | st :: rest, P, env, env', s, s', h, ha => by
    rw [addsAll, Bool.and_eq_true] at ha
    rw [execBody, execBody]
    refine (drifts_execStmt hc limit h ha.1).bind fun P₁ r r' t t' _ ht _ hr => ?_
    obtain ⟨env₁, flow⟩ := r
    obtain ⟨env₁', flow'⟩ := r'
    obtain ⟨rfl, h₁⟩ : flow = flow' ∧ Abreast A O P₁ env₁ env₁' t t' := hr
    cases flow with
    | next => exact drifts_execBody hc limit h₁ ha.2
    | ret v => exact .pure ht rfl

end

end Eval

end Fluxion
