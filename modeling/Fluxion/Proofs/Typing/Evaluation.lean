import Fluxion.Proofs.Runs.Code
import Fluxion.Proofs.Typing.Inference
import Fluxion.Proofs.Typing.Storage

/-!
Evaluating an expression that passed the checker gives what its type promises, and all storage keeps
its type. Where types are of scalars and of storage of scalars, evaluation does not fail for a
reason that types are meant to rule out.
-/

namespace Fluxion

variable {K : Type}

/-- A scalar, or storage of scalars. -/
def Ty.isStorage : Ty → Bool
  | .ref t | .array t _ | .tape t => t.isScalar
  | t => t.isScalar

/-- Expressions of the type have a value. -/
def Ty.isRead : Ty → Bool
  | .void | .array _ _ | .tape _ => false
  | _ => true

theorem Ty.isScalar_value {t : Ty} (h : t.isScalar = true) : t.value.isScalar = true := by
  cases t <;> first | exact h | cases h

theorem Ty.isRead_of_value {t : Ty} (h : t.value.isScalar = true) : t.isRead = true := by
  cases t <;> first | rfl | cases h

theorem Ty.element?_of_isRead {t : Ty} (h : t.isRead = true) : t.element? = none := by
  cases t <;> first | rfl | cases h

/-- What a scalar takes has a value. -/
theorem Ty.isRead_of_takes {t a : Ty} (ht : t.value.isScalar = true) (h : t.takes a = true) :
    a.isRead = true := by
  rcases Ty.isScalar_iff.mp ht with hvalue | hvalue | hvalue <;>
    rcases Ty.eq_of_value hvalue with rfl | rfl <;> cases a <;> first | rfl | cases h

/-- What a function with the result type gave, which is nothing only for a void one. -/
def Returned (ret : Ty) : Option (Value K) → Prop
  | none => ret = .void
  | some v => v.ty = ret.value

/-- Numerical derivatives are taken of functions without integer parameters, and in a strict run
not at all. -/
def differenceRule (strict : Prop) (p : Program) : Rule where
  part
    | .call f args => Intrinsic.ofName? f = some .centralDifference → ¬ strict ∧
      ∀ target, args.head? = some (.funcRef target) → ∀ g ∈ p, g.name = target →
        ∀ q ∈ g.params, q.ty.value ≠ .int
    | _ => True
  target _ := True
  declares _ := True
  returns := True

/-- Calls take what fits their parameters and give what their result type promises. -/
structure Conforms [Scalar K] (strict : Prop) (ctx : Context K) : Prop where
  lengths : ctx.funcs.ignoresLengths = true
  params : ∀ f ∈ ctx.funcs, ∀ p ∈ f.params, p.ty ≠ .void ∧ ∀ t, p.ty ≠ .tape t
  storage : strict → ∀ f ∈ ctx.funcs, ∀ p ∈ f.params, p.ty.isStorage = true
  results : strict → ∀ f ∈ ctx.funcs, f.ret.isScalar = true ∨ f.ret = .void
  call : ∀ f ∈ ctx.funcs, ∀ bound s, s.Typed →
    List.Forall₂ (fun p b => b.HasTy s p.ty) f.params bound →
      Sound strict (ctx.call f bound) s fun v _ => Returned f.ret v

/-- The variables stand for storage of their types, in a strict run of scalars only. -/
structure Realizes (strict : Prop) (types : TyEnv) (env : Env) (s : Store K) : Prop where
  typed : s.Typed
  describes : types.Describes env s
  storage : strict → ∀ x t, types.lookup x = some t → t.isStorage = true

namespace Realizes

variable {strict : Prop} {types : TyEnv} {env : Env} {s s' : Store K} {x : String} {t elem : Ty}

theorem retained (h : Realizes strict types env s) (hr : Retains s s') :
    Realizes strict types env s' :=
  ⟨hr.typed, h.describes.retained hr, h.storage⟩

theorem array (h : Realizes strict types env s) {len : Option Nat}
    (hx : types.lookup x = some (.array elem len)) :
    ∃ id, env.lookup x = some (.array id) ∧ s.arrayTy? id = some elem := by
  obtain ⟨b, hb, hty⟩ := h.describes x _ hx
  cases b with
  | scalar slot => cases Store.isScalar_of_slotTy? hty
  | array id =>
    obtain ⟨_, _, heq, hid⟩ := hty
    cases heq
    exact ⟨id, hb, hid⟩
  | tape id =>
    obtain ⟨_, heq, _⟩ := hty
    cases heq

theorem tape (h : Realizes strict types env s) (hx : types.lookup x = some (.tape elem)) :
    ∃ id, env.lookup x = some (.tape id) ∧ s.tapeTy? id = some elem := by
  obtain ⟨b, hb, hty⟩ := h.describes x _ hx
  cases b with
  | scalar slot => cases Store.isScalar_of_slotTy? hty
  | array id =>
    obtain ⟨_, _, heq, _⟩ := hty
    cases heq
  | tape id =>
    obtain ⟨_, heq, hid⟩ := hty
    cases heq
    exact ⟨id, hb, hid⟩

end Realizes

/-! ### Operators -/

section

theorem BinOp.result?_value (op : BinOp) {a b : Value K} {l r : Ty} (hl : a.ty = l.value)
    (hr : b.ty = r.value) : op.result? l r = op.result? a.ty b.ty := by
  simp only [BinOp.result?, ← hl, ← hr, Value.value_ty]

theorem BinOp.ty_onInts {op : BinOp} {a b : Int64} {t : Ty} (h : op.result? .int .int = some t) :
    ∃ v : Value K, op.onInts a b = some v ∧ v.ty = t := by
  cases op <;>
    first
    | exact ⟨_, rfl, Option.some.inj h⟩
    | cases (show none = some t from h)

theorem BinOp.ty_onBools {op : BinOp} {a b : Bool} {t : Ty} (h : op.result? .bool .bool = some t) :
    ∃ v : Value K, op.onBools a b = some v ∧ v.ty = t := by
  cases op <;>
    first
    | exact ⟨_, rfl, Option.some.inj h⟩
    | cases (show none = some t from h)

variable [Scalar K]

theorem BinOp.ty_onNumbers {op : BinOp} {a b : K} {t : Ty} (h : op.result? .float .float = some t) :
    ∃ v : Value K, op.onNumbers a b = some v ∧ v.ty = t := by
  cases op <;>
    first
    | exact ⟨_, rfl, Option.some.inj h⟩
    | cases (show none = some t from h)

/-- A number on one side counts as a float when the other side is one. -/
theorem BinOp.result?_mixed {op : BinOp} {t : Ty}
    (h : op.result? .int .float = some t ∨ op.result? .float .int = some t) :
    op.result? .float .float = some t := by
  rcases h with h | h <;> cases op <;> exact h

theorem BinOp.result?_bool_number {op : BinOp} {l : Ty} (hl : l.isNumeric = true) :
    op.result? .bool l = none ∧ op.result? l .bool = none := by
  cases l <;> cases hl <;> cases op <;> exact ⟨rfl, rfl⟩

theorem BinOp.ty_value? {op : BinOp} {a b : Value K} {t : Ty}
    (h : op.result? a.ty b.ty = some t) : ∃ v, op.value? a b = some v ∧ v.ty = t := by
  cases a with
  | bool a =>
    cases b with
    | bool b => exact BinOp.ty_onBools h
    | int b => cases (BinOp.result?_bool_number rfl).1.symm.trans h
    | float b => cases (BinOp.result?_bool_number rfl).1.symm.trans h
  | int a =>
    cases b with
    | bool b => cases (BinOp.result?_bool_number rfl).2.symm.trans h
    | int b => exact BinOp.ty_onInts h
    | float b => exact BinOp.ty_onNumbers (BinOp.result?_mixed (.inl h))
  | float a =>
    cases b with
    | bool b => cases (BinOp.result?_bool_number rfl).2.symm.trans h
    | int b => exact BinOp.ty_onNumbers (BinOp.result?_mixed (.inr h))
    | float b => exact BinOp.ty_onNumbers h

/-- An operator that applies to the types fails only for a division by zero. -/
theorem BinOp.ty_apply {op : BinOp} {a b : Value K} {l r t : Ty} (hl : a.ty = l.value)
    (hr : b.ty = r.value) (h : op.result? l r = some t) :
    (∃ v, op.apply a b = .ok v ∧ v.ty = t) ∨ op.apply a b = .error .divisionByZero := by
  rw [op.result?_value hl hr] at h
  obtain ⟨v, hv, ht⟩ := BinOp.ty_value? h
  unfold BinOp.apply
  split
  · exact .inr rfl
  · simp only [hv]
    exact .inl ⟨v, rfl, ht⟩

theorem BinOp.bool_of_result? {op : BinOp} {l r t : Ty} (hop : op = .and ∨ op = .or)
    (h : op.result? l r = some t) : l.value = .bool ∧ r.value = .bool ∧ t = .bool := by
  rcases hop with rfl | rfl <;>
    · simp only [BinOp.result?, Option.ite_none_right_eq_some, Bool.and_eq_true, beq_iff_eq,
        Option.some.injEq] at h
      exact ⟨h.1.1, h.1.2, h.2.symm⟩

/-- Operators apply to scalars only. -/
theorem BinOp.isScalar_of_result? {op : BinOp} {l r t : Ty} (h : op.result? l r = some t) :
    l.value.isScalar = true ∧ r.value.isScalar = true ∧ t.isScalar = true := by
  have hnumeric : ∀ a : Ty, a.isNumeric = true → a.isScalar = true := by
    intro a ha
    cases a <;> first | rfl | cases ha
  unfold BinOp.result? at h
  dsimp only at h
  split at h
  · simp only [Option.ite_none_right_eq_some, Bool.and_eq_true, beq_iff_eq, Option.some.injEq] at h
    simp [h.1.1, h.1.2, ← h.2, Ty.isScalar]
  · simp only [Option.ite_none_right_eq_some, Bool.and_eq_true, beq_iff_eq, Option.some.injEq] at h
    simp [h.1.1, h.1.2, ← h.2, Ty.isScalar]
  · simp only [Option.ite_none_right_eq_some, Bool.and_eq_true, beq_iff_eq, Option.some.injEq] at h
    simp [h.1.1, h.1.2, ← h.2, Ty.isScalar]
  · split at h
    · rename_i hbools
      simp only [Bool.and_eq_true, beq_iff_eq] at hbools
      cases h
      simp [hbools.1.2, hbools.2, Ty.isScalar]
    · split at h
      · cases h
      · rename_i hnumbers
        simp only [Bool.or_eq_true, Bool.not_eq_true', not_or, Bool.not_eq_false] at hnumbers
        refine ⟨hnumeric _ hnumbers.1, hnumeric _ hnumbers.2, ?_⟩
        split at h
        · cases h
          rfl
        · split at h <;> cases h <;> rfl

theorem UnOp.isScalar_of_result? {op : UnOp} {l t : Ty} (h : op.result? l = some t) :
    l.isScalar = true ∧ t.isScalar = true := by
  cases op with
  | neg =>
    simp only [UnOp.result?, Option.ite_none_right_eq_some, Option.some.injEq] at h
    obtain ⟨hnumeric, rfl⟩ := h
    cases l <;> first | exact ⟨rfl, rfl⟩ | cases hnumeric
  | not =>
    simp only [UnOp.result?, Option.ite_none_right_eq_some, Option.some.injEq, beq_iff_eq] at h
    obtain ⟨rfl, rfl⟩ := h
    exact ⟨rfl, rfl⟩

theorem Value.ty_negate {v : Value K} {l t : Ty} (hv : v.ty = l.value)
    (h : UnOp.neg.result? l = some t) : ∃ w, v.negate = .ok w ∧ w.ty = t := by
  simp only [UnOp.result?, Option.ite_none_right_eq_some, Option.some.injEq] at h
  obtain ⟨hnum, rfl⟩ := h
  cases v <;> cases l <;> simp_all [Ty.isNumeric, Ty.value, Value.ty, Value.negate]

end

namespace Eval

variable {strict : Prop} {ctx : Context K} {types : TyEnv} {env : Env} {s : Store K} {t : Ty}

/-! ### Variables and values -/

theorem lookup_eq {x : String} {b : Binding} (h : env.lookup x = some b) :
    (lookup env x : Exec K Binding) = pure b := by
  simp only [lookup, h, Exec.require]

theorem arrayOf_eq {x : String} {id : Nat} (h : env.lookup x = some (.array id)) :
    (arrayOf env x : Exec K Nat) = pure id := by
  simp only [arrayOf, lookup_eq h, pure_bind]

theorem tapeOf_eq {x : String} {id : Nat} (h : env.lookup x = some (.tape id)) :
    (tapeOf env (some (.var x)) : Exec K Nat) = pure id := by
  simp only [tapeOf, lookup_eq h, pure_bind]

theorem sound_value? (e : Expr) {o : Option (Operand K)} (hs : s.Typed) (ho : Given s t o)
    (ht : strict → t.element? = none) :
    Sound strict (value? e o) s fun v s' => s' = s ∧ Returned t v := by
  have hfail : (strict → False) → ∀ f, Sound strict (Exec.mistyped f) s
      fun (v : Option (Value K)) s' => s' = s ∧ Returned t v :=
    fun hnot f => Sound.fail hs fun h => (hnot h).elim
  rcases o with _ | (v | ⟨slot, v⟩ | id | id)
  · exact Sound.pure hs ⟨rfl, ho⟩
  · exact Sound.pure hs ⟨rfl, ho⟩
  · exact Sound.pure hs ⟨rfl, ho.1⟩
  · obtain ⟨elem, len, rfl, _⟩ := ho
    have hnot : strict → False := fun h => by cases ht h
    cases e <;> exact hfail hnot _
  · obtain ⟨elem, rfl, _⟩ := ho
    have hnot : strict → False := fun h => by cases ht h
    cases e <;> exact hfail hnot _

theorem sound_value (e : Expr) {o : Option (Operand K)} (hs : s.Typed) (ho : Given s t o)
    (ht : strict → t.isRead = true) :
    Sound strict (value e o) s fun v s' => s' = s ∧ v.ty = t.value := by
  refine (sound_value? e hs ho fun h => Ty.element?_of_isRead (ht h)).bind fun v s' _ hv => ?_
  obtain ⟨rfl, hv⟩ := hv
  refine Sound.require hs (fun hnone h => ?_) fun w hw => ⟨rfl, ?_⟩
  · subst hnone
    obtain rfl : t = .void := hv
    cases ht h
  · subst hw
    exact hv

theorem sound_int (e : Expr) {o : Option (Operand K)} (hs : s.Typed) (ho : Given s t o)
    (ht : t.value = .int) : Sound strict (int e o) s fun _ s' => s' = s := by
  refine (sound_value e hs ho fun _ => Ty.isRead_of_value (by rw [ht]; rfl)).bind
    fun v s' _ hv => ?_
  obtain ⟨rfl, hv⟩ := hv
  rw [ht] at hv
  cases v with
  | int n => exact Sound.pure hs rfl
  | float x => cases hv
  | bool b => cases hv

theorem sound_bool (e : Expr) {o : Option (Operand K)} (hs : s.Typed) (ho : Given s t o)
    (ht : t.value = .bool) : Sound strict (bool e o) s fun _ s' => s' = s := by
  refine (sound_value e hs ho fun _ => Ty.isRead_of_value (by rw [ht]; rfl)).bind
    fun v s' _ hv => ?_
  obtain ⟨rfl, hv⟩ := hv
  rw [ht] at hv
  cases v with
  | bool b => exact Sound.pure hs rfl
  | float x => cases hv
  | int n => cases hv

theorem sound_operand_binding {b : Binding} (hs : s.Typed) (hb : b.HasTy s t) :
    Sound strict (Binding.operand (K := K) b) s fun o s' =>
      s' = s ∧ o.HasTy s t.value ∧ ∀ v, o ≠ .value v := by
  cases b with
  | scalar slot =>
    have hvalue : t.value.value = t.value := by
      have := Store.isScalar_of_slotTy? hb
      cases ht : t.value <;> simp_all [Ty.isScalar, Ty.value]
    refine Sound.get_bind (Sound.pure hs ⟨rfl, ⟨?_, ?_⟩, by simp⟩)
    · rw [hvalue]
      exact Store.ty_read hb
    · rw [hvalue]
      exact hb
  | array id =>
    obtain ⟨elem, len, rfl, hid⟩ := hb
    exact Sound.pure hs ⟨rfl, ⟨elem, len, rfl, hid⟩, by simp⟩
  | tape id =>
    obtain ⟨elem, rfl, hid⟩ := hb
    exact Sound.pure hs ⟨rfl, ⟨elem, rfl, hid⟩, by simp⟩

theorem sound_elementSlot (hs : s.Typed) {x : String} {id : Nat} (hid : s.arrayTy? id = some t)
    (index : Int64) : Sound strict (elementSlot x id index) s fun slot s' =>
      s' = s ∧ s.slotTy? slot = some t.value := by
  refine Sound.get_bind ?_
  dsimp only
  split
  · exact Sound.fail hs fun _ => rfl
  · rename_i hbounds
    refine Sound.pure hs ⟨rfl, Store.slotTy?_element hs hid ?_⟩
    omega

theorem sound_popFrom (hs : s.Typed) {x : String} {id : Nat} (hid : s.tapeTy? id = some t) :
    Sound strict (popFrom x id) s fun v _ => v.ty = t.value := by
  refine Sound.get_bind ?_
  obtain ⟨hb, rfl⟩ := Store.tape_of_tapeTy? hid
  split
  · exact Sound.fail hs fun _ => rfl
  · rename_i v hv
    have hty : v.ty = (s.tape id).elem.value :=
      hs.tapes _ (Array.mem_of_getElem? hb) v (Array.mem_of_back? hv)
    have hdrop : Sound strict (modify fun st : Store K => st.drop id) s fun _ _ => True :=
      ⟨Retains.drop hs id, trivial⟩
    exact hdrop.bind fun _ s' hr _ => Sound.pure hr.typed hty

theorem sound_lift {r : Except RuntimeError (Value K)} (hs : s.Typed)
    (hr : (∃ v, r = .ok v ∧ v.ty = t) ∨ r = .error .divisionByZero) :
    Sound strict (lift r) s fun v s' => s' = s ∧ v.ty = t := by
  rcases hr with ⟨v, rfl, hv⟩ | rfl
  · exact Sound.pure hs ⟨rfl, hv⟩
  · exact Sound.fail hs fun _ => rfl

/-! ### Calls -/

theorem void_notMem_of_costs? {ps : List Param} {ts : List Ty} {c : Nat}
    (hps : ∀ p ∈ ps, p.ty.isStorage = true) (h : costs? ps ts = some c) : .void ∉ ts := by
  have hfirst : ∀ {t : Ty} {c : Nat}, t.isStorage = true → t.cost? .void ≠ some c := by
    intro t c ht hc
    rcases Ty.eq_of_value (Ty.value_of_cost?_other (.inl rfl) hc) with rfl | rfl <;> cases ht
  induction ps generalizing ts c with
  | nil =>
    cases ts with
    | nil => exact List.not_mem_nil
    | cons t ts => cases h
  | cons p ps ih =>
    cases ts with
    | nil => cases h
    | cons t ts =>
      simp only [costs?, Option.bind_eq_bind, Option.bind_eq_some_iff] at h
      obtain ⟨c₁, h₁, c₂, h₂, _⟩ := h
      intro hmem
      rcases List.mem_cons.mp hmem with rfl | hmem
      · exact hfirst (hps p List.mem_cons_self) h₁
      · exact ih (fun q hq => hps q (List.mem_cons_of_mem _ hq)) h₂ hmem

/-- Operands of the static types choose the function that the types do. -/
theorem resolve_operands {p : Program} (hp : p.ignoresLengths = true) {name : String}
    {ts : List Ty} {os : List (Operand K)} (ho : List.Forall₂ (fun t o => o.HasTy s t) ts os)
    {f : Func} (h : p.resolve name ts = some f) :
    p.resolve name (os.map (operandTy s)) = some f := by
  have hboth : (∀ t ∈ ts, t.isPassed = true) ∧ os.map (operandTy s) = ts.map Ty.seen := by
    clear h
    induction ho with
    | nil => exact ⟨by simp, rfl⟩
    | cons hhead _ ih =>
      obtain ⟨hpassed, hseen⟩ := hhead.operandTy
      refine ⟨fun t ht => ?_, by simp [hseen, ih.2]⟩
      rcases List.mem_cons.mp ht with rfl | ht
      · exact hpassed
      · exact ih.1 t ht
  rw [hboth.2]
  exact resolve_seen hp hboth.1 h

variable [Scalar K]

/-- What an argument gave is a place or storage if the argument is one. -/
def Placed (e : Expr) (o : Operand K) : Prop := ∀ v, o = .value v → e.place? = none

/-- An operand that a parameter accepts can be bound to it. -/
theorem sound_bindOperand {f : Func} {p : Param} {o : Operand K} {c : Nat} (hs : s.Typed)
    (ho : o.HasTy s t) (hcost : p.ty.cost? t = some c)
    (hparam : p.ty ≠ .void ∧ ∀ a, p.ty ≠ .tape a) (hstorage : strict → p.ty.isStorage = true)
    (hplace : strict → p.ty.isRef = true → ∀ v, o ≠ .value v) :
    Sound strict (bindOperand f p o) s fun b s' => s' = s ∧ b.HasTy s p.ty := by
  have hscalar : ∀ v : Value K, v.ty = t.value →
      p.ty.value = v.ty ∨ (p.ty = .float ∧ v.ty = .int) := fun v hv =>
    Ty.value_of_takes v.isScalar_ty hv.symm (by simp [Ty.takes, hcost])
  have hcoerce : ∀ v : Value K, v.ty = t.value →
      Bound.HasTy s p.ty (.value (v.coerce p.ty)) := by
    intro v hv
    have hfirst := Value.ty_coerce_of_takes hv (t := p.ty) (by simp [Ty.takes, hcost])
    exact Value.ty_coerce (.inl hfirst.symm)
  have hnotArray : ∀ (v : Value K) (elem : Ty) (len : Option Nat), v.ty = t.value →
      p.ty ≠ .array elem len := by
    intro v elem len hv hp
    rcases hscalar v hv with h | h
    · have := v.isScalar_ty
      rw [← h, hp] at this
      cases this
    · rw [hp] at h
      cases h.1
  cases o with
  | value v =>
    cases hp : p.ty with
    | ref a =>
      simp only [bindOperand, hp]
      exact Sound.fail hs fun h => absurd rfl (hplace h (by rw [hp]; rfl) v)
    | array elem len => exact absurd hp (hnotArray v elem len ho)
    | tape a => exact absurd hp (hparam.2 a)
    | _ =>
      simp only [bindOperand, hp]
      exact Sound.pure hs ⟨rfl, by simpa only [hp] using hcoerce v ho⟩
  | place slot v =>
    cases hp : p.ty with
    | ref a =>
      simp only [bindOperand, hp]
      refine Sound.pure hs ⟨rfl, ?_⟩
      rcases hscalar v ho.1 with h | h
      · rw [hp, ho.1] at h
        unfold Bound.HasTy
        rw [h]
        exact ho.2
      · rw [hp] at h
        cases h.1
    | array elem len => exact absurd hp (hnotArray v elem len ho.1)
    | tape a => exact absurd hp (hparam.2 a)
    | _ =>
      simp only [bindOperand, hp]
      exact Sound.pure hs ⟨rfl, by simpa only [hp] using hcoerce v ho.1⟩
  | array id =>
    obtain ⟨elem, len, rfl, hid⟩ := ho
    obtain ⟨_, n, hvalue, _⟩ := Ty.cost?_array.mp hcost
    cases hp : p.ty with
    | ref a =>
      simp only [bindOperand, hp]
      obtain rfl : a = .array elem n := by simpa [hp, Ty.value] using hvalue
      refine Sound.fail hs fun h => ?_
      have := hstorage h
      rw [hp] at this
      cases this
    | array elem' n' =>
      obtain ⟨rfl, rfl⟩ : elem' = elem ∧ n' = n := by simpa [hp, Ty.value] using hvalue
      simp only [bindOperand, hp]
      exact Sound.pure hs ⟨rfl, elem', n', rfl, hid⟩
    | _ => simp [hp, Ty.value] at hvalue
  | tape id =>
    obtain ⟨elem, rfl, hid⟩ := ho
    have hvalue : p.ty.value = .tape elem := Ty.value_of_cost?_other (.inr ⟨elem, rfl⟩) hcost
    cases hp : p.ty with
    | ref a =>
      simp only [bindOperand, hp]
      obtain rfl : a = .tape elem := by simpa [hp, Ty.value] using hvalue
      refine Sound.fail hs fun h => ?_
      have := hstorage h
      rw [hp] at this
      cases this
    | tape a => exact absurd hp (hparam.2 a)
    | _ => simp [hp, Ty.value] at hvalue

theorem sound_bindOperands {f : Func} {callee : String} (hs : s.Typed) {ps : List Param}
    {args : List Expr} {ts : List Ty} {os : List (Operand K)} {c : Nat}
    (ho : List.Forall₂ (fun t o => o.HasTy s t) ts os) (hplaced : List.Forall₂ Placed args os)
    (hcost : costs? ps ts = some c) (hbinding : Typing.checkBinding callee ps args = .ok ())
    (hparams : ∀ p ∈ ps, p.ty ≠ .void ∧ ∀ a, p.ty ≠ .tape a)
    (hstorage : strict → ∀ p ∈ ps, p.ty.isStorage = true) :
    Sound strict (bindOperands f ps os) s fun bound s' =>
      s' = s ∧ List.Forall₂ (fun p b => b.HasTy s p.ty) ps bound := by
  induction ps generalizing args ts os c with
  | nil =>
    unfold bindOperands
    exact Sound.pure hs ⟨rfl, .nil⟩
  | cons p ps ih =>
    cases ho with
    | nil => cases hcost
    | @cons t o ts os hhead htail =>
      cases hplaced with
      | @cons e _ args _ hplace hrest =>
        simp only [costs?, Option.bind_eq_bind, Option.bind_eq_some_iff] at hcost
        obtain ⟨c₁, h₁, c₂, h₂, _⟩ := hcost
        obtain ⟨hfirst, hbinding⟩ := Typing.of_checkBinding_cons hbinding
        refine (sound_bindOperand hs hhead h₁ (hparams p List.mem_cons_self)
          (fun h => hstorage h p List.mem_cons_self) fun _ href v hv =>
            hfirst href (hplace v hv)).bind fun b s' _ hb => ?_
        obtain ⟨rfl, hb⟩ := hb
        refine (ih htail hrest h₂ hbinding (fun q hq => hparams q (List.mem_cons_of_mem _ hq))
          fun h q hq => hstorage h q (List.mem_cons_of_mem _ hq)).bind fun bs s'' _ hbs => ?_
        obtain ⟨rfl, hbs⟩ := hbs
        exact Sound.pure hs ⟨rfl, .cons hb hbs⟩

theorem sound_callNamed (hctx : Conforms strict ctx) (hs : s.Typed) {name : String}
    {args : List Expr} {ts : List Ty} {os : List (Operand K)} {f : Func}
    (ho : List.Forall₂ (fun t o => o.HasTy s t) ts os) (hplaced : List.Forall₂ Placed args os)
    (hres : ctx.funcs.resolve name ts = some f)
    (hbinding : Typing.checkBinding name f.params args = .ok ()) :
    Sound strict (callNamed ctx name os) s fun v _ => Returned f.ret v := by
  refine Sound.get_bind ?_
  simp only [resolve_operands hctx.lengths ho hres]
  obtain ⟨hf, _⟩ := mem_of_resolve hres
  obtain ⟨c, hc⟩ := exists_cost_of_resolve hres
  refine (sound_bindOperands hs ho hplaced hc hbinding (hctx.params f hf)
    fun h => hctx.storage h f hf).bind fun bound s' _ hbound => ?_
  obtain ⟨rfl, hbound⟩ := hbound
  exact hctx.call f hf bound s' hs hbound

/-! ### Numerical derivatives -/

/-- The function takes the values, and a float in place of any one of them. -/
theorem hasTy_point {ps : List Param} {point : List (Value K)} {c : Nat}
    (hcost : costs? ps (point.map Value.ty) = some c) (hps : ∀ p ∈ ps, p.ty.value ≠ .int)
    (hnumbers : ∀ v ∈ point, v.number?.isSome = true) (k : Nat) (x : K) :
    List.Forall₂ (fun p b => b.HasTy s p.ty) ps
      ((point.set k (.float x)).map (Bound.value (K := K))) := by
  induction ps generalizing point c k with
  | nil =>
    cases point with
    | nil => exact .nil
    | cons v point => cases hcost
  | cons p ps ih =>
    cases point with
    | nil => cases hcost
    | cons v point =>
      simp only [List.map_cons, costs?, Option.bind_eq_bind, Option.bind_eq_some_iff] at hcost
      obtain ⟨c₁, h₁, c₂, h₂, _⟩ := hcost
      have htakes : p.ty.takes v.ty = true := by simp [Ty.takes, h₁]
      have hfirst : Bound.HasTy s p.ty (.value v) :=
        Value.ty_coerce_of_takes v.value_ty.symm htakes
      have hrest := ih h₂ (fun q hq => hps q (List.mem_cons_of_mem _ hq))
        fun w hw => hnumbers w (List.mem_cons_of_mem _ hw)
      cases k with
      | succ k => exact .cons hfirst (hrest k)
      | zero =>
        have hsame : point.set point.length (.float x) = point :=
          List.set_eq_of_length_le (Nat.le_refl _)
        refine .cons (Value.ty_coerce (.inl ?_)) (hsame ▸ hrest point.length)
        rcases Ty.value_of_takes v.isScalar_ty v.value_ty htakes with h | ⟨h, _⟩
        · cases v with
          | float y => exact h
          | int n => exact absurd h (hps p List.mem_cons_self)
          | bool b => cases hnumbers (.bool b) List.mem_cons_self
        · rw [h]
          rfl

theorem sound_callAtPoint (hctx : Conforms strict ctx) (hs : s.Typed) {f : Func}
    (hf : f ∈ ctx.funcs) {point : List (Value K)} {k : Nat} {x : K}
    (hbound : List.Forall₂ (fun p b => b.HasTy s p.ty) f.params
      ((point.set k (.float x)).map (Bound.value (K := K)))) :
    Sound strict (callAtPoint ctx f point k x) s fun _ _ => True := by
  refine (hctx.call f hf _ s hs hbound).bind fun v s' hr _ => ?_
  exact Sound.require hr.typed (fun _ _ => rfl) fun _ _ => trivial

theorem sound_difference (hctx : Conforms strict ctx) (hs : s.Typed) (hstrict : ¬ strict)
    {target : String} (htarget : ∀ g ∈ ctx.funcs, g.name = target → ∀ q ∈ g.params,
      q.ty.value ≠ .int) (k : Int64) {point : List (Value K)}
    (hnumbers : ∀ v ∈ point, v.number?.isSome = true) :
    Sound strict (difference ctx target k point) s fun v _ => v.ty = .float := by
  unfold difference
  split
  · exact Sound.fail hs fun h => absurd h hstrict
  have hfun : Sound strict (Exec.require (.unknownFunction target)
      (ctx.funcs.resolve target (point.map Value.ty))) s fun f s' =>
        ctx.funcs.resolve target (point.map Value.ty) = some f ∧ s' = s :=
    Sound.require hs (fun _ h => absurd h hstrict) fun f hres => ⟨hres, rfl⟩
  refine hfun.bind fun f s' _ hf' => ?_
  obtain ⟨hres, rfl⟩ := hf'
  obtain ⟨hf, hname⟩ := mem_of_resolve hres
  obtain ⟨c, hc⟩ := exists_cost_of_resolve hres
  have hstep : ∀ x s'', Retains s' s'' → Sound strict
      (callAtPoint ctx f point k.toInt.toNat x) s'' fun _ _ => True := fun x s'' hr =>
    sound_callAtPoint hctx hr.typed hf (hasTy_point hc (htarget f hf hname) hnumbers _ x)
  unfold Estimate.fivePoint Estimate.fivePointAt
  refine Sound.bind (Q := fun _ _ => True) ?_ fun _ s'' hr _ => Sound.pure hr.typed rfl
  refine (hstep _ s' (.refl hs)).bind fun _ s₁ h₁ _ => ?_
  refine (hstep _ s₁ h₁).bind fun _ s₂ h₂ _ => ?_
  refine (hstep _ s₂ (h₁.trans h₂)).bind fun _ s₃ h₃ _ => ?_
  refine (hstep _ s₃ ((h₁.trans h₂).trans h₃)).bind fun _ s₄ h₄ _ => ?_
  refine (hstep _ s₄ (((h₁.trans h₂).trans h₃).trans h₄)).bind fun _ s₅ h₅ _ => ?_
  refine (hstep _ s₅ ((((h₁.trans h₂).trans h₃).trans h₄).trans h₅)).bind fun _ s₆ h₆ _ => ?_
  exact Sound.pure h₆.typed trivial

/-! ### Expressions -/

/-- Evaluation gives what the type promises, and a place if the expression is one. -/
abbrev SoundOperand (strict : Prop) (e : Expr) (t : Ty) (m : Exec K (Option (Operand K)))
    (s : Store K) : Prop :=
  Sound strict m s fun o s' => Given s' t o ∧ ∀ v, o = some v → Placed e v

/-- Wherever the expression passes the checker, its evaluation is sound. -/
def SoundExpr (strict : Prop) (ctx : Context K) (types : TyEnv) (env : Env) (e : Expr) : Prop :=
  ∀ {s : Store K} {t : Ty}, Realizes strict types env s →
    Typing.checkExpr ctx.funcs.resolve types e = .ok t →
    (differenceRule strict ctx.funcs).Expr e → SoundOperand strict e t (operand? ctx env e) s

omit [Scalar K] in
theorem soundOperand_value {e : Expr} {v : Value K} (hs : s.Typed) (hv : v.ty = t.value)
    (he : e.place? = none) : SoundOperand strict e t (pure (some (.value v))) s :=
  Sound.pure hs ⟨hv, fun _ _ _ _ => he⟩

theorem soundExpr_var (x : String) : SoundExpr strict ctx types env (.var x) := by
  intro s t h ht _
  obtain ⟨declared, hx, rfl⟩ := Typing.of_checkExpr_var ht
  obtain ⟨b, hb, hty⟩ := h.describes x _ hx
  unfold operand?
  rw [lookup_eq hb, pure_bind]
  refine (sound_operand_binding h.typed hty).bind fun o s' _ ho => ?_
  obtain ⟨rfl, ho, hplace⟩ := ho
  refine Sound.pure h.typed ⟨ho, fun v hv w hw => ?_⟩
  cases hv
  exact absurd hw (hplace w)

theorem soundExpr_index {x : String} {i : Expr} (ihi : SoundExpr strict ctx types env i) :
    SoundExpr strict ctx types env (.index x i) := by
  intro s t h ht hr
  obtain ⟨hi, len, hx⟩ := Typing.of_checkExpr_index ht
  obtain ⟨id, hid, hty⟩ := h.array hx
  unfold operand?
  rw [arrayOf_eq hid, pure_bind]
  refine (ihi h hi (Rule.expr_index.mp hr).2).bind fun o s₁ hr₁ ho => ?_
  refine (sound_int i hr₁.typed ho.1 rfl).bind fun index s₂ _ hs₂ => ?_
  subst hs₂
  refine (sound_elementSlot hr₁.typed (hr₁.arrays hty) index).bind fun slot s₃ _ hslot => ?_
  obtain ⟨rfl, hslot⟩ := hslot
  refine Sound.get_bind (Sound.pure hr₁.typed ⟨⟨Store.ty_read hslot, hslot⟩, ?_⟩)
  intro v hv w hw
  cases hv
  cases hw

theorem soundExpr_neg {e : Expr} (ihe : SoundExpr strict ctx types env e) :
    SoundExpr strict ctx types env (.unary .neg e) := by
  intro s t h ht hr
  obtain ⟨te, he, hte⟩ := Typing.result?_of_checkExpr_unary ht
  have hscalar := Ty.isScalar_value (UnOp.isScalar_of_result? hte).1
  unfold operand?
  refine (ihe h he (Rule.expr_unary.mp hr).2).bind fun o s₁ hr₁ ho => ?_
  refine (sound_value e hr₁.typed ho.1 fun _ => Ty.isRead_of_value hscalar).bind
    fun v s₂ _ hv => ?_
  obtain ⟨rfl, hv⟩ := hv
  obtain ⟨w, hw, hwty⟩ := Value.ty_negate hv hte
  refine (sound_lift hr₁.typed (.inl ⟨w, hw, hwty⟩)).bind fun u s₃ _ hu => ?_
  obtain ⟨rfl, hu⟩ := hu
  refine soundOperand_value hr₁.typed ?_ rfl
  rw [hu, ← hu, Value.value_ty]

theorem soundExpr_not {e : Expr} (ihe : SoundExpr strict ctx types env e) :
    SoundExpr strict ctx types env (.unary .not e) := by
  intro s t h ht hr
  obtain ⟨te, he, hte⟩ := Typing.result?_of_checkExpr_unary ht
  obtain ⟨rfl, rfl⟩ : te = .bool ∧ .bool = t := by simpa [UnOp.result?] using hte
  unfold operand?
  refine (ihe h he (Rule.expr_unary.mp hr).2).bind fun o s₁ hr₁ ho => ?_
  refine (sound_bool e hr₁.typed ho.1 rfl).bind fun b s₂ _ hs₂ => ?_
  subst hs₂
  exact soundOperand_value hr₁.typed rfl rfl

theorem soundExpr_binary {op : BinOp} {l r : Expr} (ihl : SoundExpr strict ctx types env l)
    (ihr : SoundExpr strict ctx types env r) :
    SoundExpr strict ctx types env (.binary op l r) := by
  intro s t h ht hr
  obtain ⟨tl, tr, hl, hr', hres⟩ := Typing.of_checkExpr_binary ht
  obtain ⟨_, hrl, hrr⟩ := Rule.expr_binary.mp hr
  have hboth : SoundOperand strict (.binary op l r) t (do
      let a ← value l (← operand? ctx env l)
      let b ← value r (← operand? ctx env r)
      return some (.value (← lift (op.apply a b)))) s := by
    obtain ⟨hsl, hsr, _⟩ := BinOp.isScalar_of_result? hres
    refine (ihl h hl hrl).bind fun o s₁ hr₁ ho => ?_
    refine (sound_value l hr₁.typed ho.1 fun _ => Ty.isRead_of_value hsl).bind fun a s₂ _ ha => ?_
    obtain ⟨rfl, ha⟩ := ha
    refine (ihr (h.retained hr₁) hr' hrr).bind fun o s₃ hr₃ ho => ?_
    refine (sound_value r hr₃.typed ho.1 fun _ => Ty.isRead_of_value hsr).bind fun b s₄ _ hb => ?_
    obtain ⟨rfl, hb⟩ := hb
    refine (sound_lift hr₃.typed (BinOp.ty_apply ha hb hres)).bind fun w s₅ _ hw => ?_
    obtain ⟨rfl, rfl⟩ := hw
    exact soundOperand_value hr₃.typed w.value_ty.symm rfl
  -- The second operand of a logical operator is evaluated only where it matters.
  cases op with
  | and =>
    obtain ⟨htl, htr, rfl⟩ := BinOp.bool_of_result? (.inl rfl) hres
    unfold operand?
    refine (ihl h hl hrl).bind fun o s₁ hr₁ ho => ?_
    refine (sound_bool l hr₁.typed ho.1 htl).bind fun a s₂ _ hs₂ => ?_
    subst hs₂
    split
    · refine (ihr (h.retained hr₁) hr' hrr).bind fun o s₃ hr₃ ho => ?_
      refine (sound_bool r hr₃.typed ho.1 htr).bind fun b s₄ _ hs₄ => ?_
      subst hs₄
      exact soundOperand_value hr₃.typed rfl rfl
    · exact soundOperand_value hr₁.typed rfl rfl
  | or =>
    obtain ⟨htl, htr, rfl⟩ := BinOp.bool_of_result? (.inr rfl) hres
    unfold operand?
    refine (ihl h hl hrl).bind fun o s₁ hr₁ ho => ?_
    refine (sound_bool l hr₁.typed ho.1 htl).bind fun a s₂ _ hs₂ => ?_
    subst hs₂
    split
    · exact soundOperand_value hr₁.typed rfl rfl
    · refine (ihr (h.retained hr₁) hr' hrr).bind fun o s₃ hr₃ ho => ?_
      refine (sound_bool r hr₃.typed ho.1 htr).bind fun b s₄ _ hs₄ => ?_
      subst hs₄
      exact soundOperand_value hr₃.typed rfl rfl
  | _ =>
    unfold operand?
    exact hboth

section

variable {f : String} {args : List Expr} (ih : ∀ e ∈ args, SoundExpr strict ctx types env e)

include ih

/-- The numbers at which a numerical derivative is taken. -/
theorem sound_numbers (hstrict : ¬ strict) {ts : List Ty} (h : Realizes strict types env s)
    (hts : Typing.checkExprs ctx.funcs.resolve types args = .ok ts)
    (hr : (differenceRule strict ctx.funcs).Exprs args) :
    Sound strict (numbers ctx env args) s fun vs _ => ∀ v ∈ vs, v.number?.isSome = true := by
  induction args generalizing s ts with
  | nil =>
    unfold numbers
    exact Sound.pure h.typed (by simp)
  | cons e es ihes =>
    obtain ⟨t, rest, he, hrest, rfl⟩ := Typing.of_checkExprs_cons hts
    obtain ⟨hre, hres⟩ := Rule.exprs_cons.mp hr
    unfold numbers
    refine (ih e List.mem_cons_self h he hre).bind fun o s₁ hr₁ ho => ?_
    refine (sound_value e hr₁.typed ho.1 fun hst => absurd hst hstrict).bind fun v s₂ _ hv => ?_
    obtain ⟨rfl, _⟩ := hv
    have hnumber : Sound strict (numeric v) s₂ fun w s' => w.number?.isSome = true ∧ s' = s₂ := by
      unfold numeric
      split
      · rename_i hnum
        exact Sound.pure hr₁.typed ⟨hnum, rfl⟩
      · exact Sound.fail hr₁.typed fun hst => absurd hst hstrict
    refine hnumber.bind fun w s₃ _ hw => ?_
    obtain ⟨hw, rfl⟩ := hw
    have htail := ihes (fun e he => ih e (List.mem_cons_of_mem _ he)) (h.retained hr₁) hrest hres
    refine htail.bind fun vs s₄ hr₄ hvs => ?_
    refine Sound.pure hr₄.typed fun u hu => ?_
    rcases List.mem_cons.mp hu with rfl | hu
    · exact hw
    · exact hvs u hu

theorem sound_operands {ts : List Ty} (h : Realizes strict types env s)
    (hts : Typing.checkArgs ctx.funcs.resolve types args = .ok ts) (hvoid : strict → .void ∉ ts)
    (hr : (differenceRule strict ctx.funcs).Exprs args) :
    Sound strict (operands ctx env args) s fun os s' =>
      List.Forall₂ (fun t o => o.HasTy s' t) ts os ∧ List.Forall₂ Placed args os := by
  induction args generalizing s ts with
  | nil =>
    cases hts
    unfold operands
    exact Sound.pure h.typed ⟨.nil, .nil⟩
  | cons e es ihes =>
    obtain ⟨te, t, rest, he, hinfer, hrest, rfl⟩ := Typing.of_checkArgs_cons hts
    obtain rfl : te = t := by simpa [Typing.type?_of_checkExpr he] using hinfer
    obtain ⟨hre, hres⟩ := Rule.exprs_cons.mp hr
    unfold operands
    refine (ih e List.mem_cons_self h he hre).bind fun o s₁ hr₁ ho => ?_
    have hfirst : Sound strict (Exec.require (.type .void) o) s₁
        fun v s' => o = some v ∧ s' = s₁ := by
      refine Sound.require hr₁.typed (fun hnone hst => ?_) fun v hv => ⟨hv, rfl⟩
      subst hnone
      have hte : te = .void := ho.1
      exact absurd (by simp [hte]) (hvoid hst)
    refine hfirst.bind fun v s₂ _ hv => ?_
    obtain ⟨rfl, rfl⟩ := hv
    have htail := ihes (fun e he => ih e (List.mem_cons_of_mem _ he)) (h.retained hr₁) hrest
      (fun hst hmem => hvoid hst (List.mem_cons_of_mem _ hmem)) hres
    refine htail.bind fun os s₃ hr₃ hos => ?_
    have hhead : v.HasTy s₂ te := ho.1
    exact Sound.pure hr₃.typed ⟨.cons (hhead.retained hr₃) hos.1, .cons (ho.2 v rfl) hos.2⟩

theorem soundExpr_named (hctx : Conforms strict ctx) (hf : Intrinsic.ofName? f = none) :
    SoundExpr strict ctx types env (.call f args) := by
  intro s t h ht hr
  obtain ⟨_, hargs⟩ := Rule.expr_call.mp hr
  unfold operand?
  simp only [hf]
  obtain ⟨ts, callee, hts, hres, hbinding, rfl⟩ := Typing.of_checkExpr_call ht hf
  obtain ⟨hmem, _⟩ := mem_of_resolve hres
  obtain ⟨c, hc⟩ := exists_cost_of_resolve hres
  have hvoid : strict → .void ∉ ts := fun hst =>
    void_notMem_of_costs? (hctx.storage hst callee hmem) hc
  refine (sound_operands ih h hts hvoid hargs).bind fun os s₁ hr₁ hos => ?_
  refine (sound_callNamed hctx hr₁.typed hos.1 hos.2 hres hbinding).bind fun v s₂ hr₂ hv => ?_
  cases v with
  | none => exact Sound.pure hr₂.typed ⟨hv, fun _ hv => by cases hv⟩
  | some v => exact soundOperand_value hr₂.typed hv rfl

omit ih in
theorem soundExpr_len (hf : Intrinsic.ofName? f = some .len) :
    SoundExpr strict ctx types env (.call f args) := by
  intro s t h ht _
  unfold operand?
  simp only [hf]
  obtain ⟨x, elem, len, rfl, hx, rfl⟩ := Typing.of_checkExpr_len ht hf
  obtain ⟨id, hid, _⟩ := h.array hx
  have hfirst : firstOperand? ctx env [.var x] = pure (some (.array id)) := by
    simp [firstOperand?, operand?, lookup_eq hid, Binding.operand, Exec.require]
  rw [hfirst, pure_bind]
  exact Sound.get_bind (soundOperand_value h.typed rfl rfl)

theorem soundExpr_push (hf : Intrinsic.ofName? f = some .push) :
    SoundExpr strict ctx types env (.call f args) := by
  intro s t h ht hr
  obtain ⟨_, hargs⟩ := Rule.expr_call.mp hr
  unfold operand?
  simp only [hf]
  obtain ⟨x, e, elem, rfl, hx, he, htakes⟩ := Typing.of_checkExpr_push ht hf
  obtain ⟨id, hid, hty⟩ := h.tape hx
  have hscalar : strict → t.isRead = true := fun hst =>
    Ty.isRead_of_takes (Ty.isScalar_value (h.storage hst x _ hx)) htakes
  have hvalue : Sound strict (secondValue? ctx env [.var x, e]) s fun o _ =>
      ∃ v, o = some v ∧ v.ty = t.value := by
    unfold secondValue?
    refine (ih e (by simp) h he (hargs e (by simp))).bind fun o s₁ hr₁ ho => ?_
    refine (sound_value e hr₁.typed ho.1 hscalar).bind fun v s₂ _ hv => ?_
    obtain ⟨rfl, hv⟩ := hv
    exact Sound.pure hr₁.typed ⟨v, rfl, hv⟩
  simp only [List.head?_cons, tapeOf_eq hid, pure_bind]
  refine hvalue.bind fun o s₂ hr₁ hv => ?_
  obtain ⟨v, rfl, hv⟩ := hv
  have hpush : Sound strict (modify fun st : Store K => st.push id v) s₂ fun _ _ => True :=
    ⟨Retains.push hr₁.typed fun a ha => by
      obtain rfl : elem = a := by simpa [hr₁.tapes hty] using ha
      exact Value.ty_coerce_of_takes hv htakes, trivial⟩
  exact hpush.bind fun _ s₃ hr₃ _ => soundOperand_value hr₃.typed hv rfl

omit ih in
theorem soundExpr_pop (hf : Intrinsic.ofName? f = some .pop) :
    SoundExpr strict ctx types env (.call f args) := by
  intro s t h ht _
  unfold operand?
  simp only [hf]
  obtain ⟨x, rfl, hx⟩ := Typing.of_checkExpr_pop ht hf
  obtain ⟨id, hid, hty⟩ := h.tape hx
  simp only [List.head?_cons, tapeOf_eq hid, pure_bind]
  exact (sound_popFrom h.typed hty).bind fun v s₁ hr₁ hv =>
    soundOperand_value hr₁.typed hv rfl

theorem soundExpr_difference (hctx : Conforms strict ctx)
    (hf : Intrinsic.ofName? f = some .centralDifference) :
    SoundExpr strict ctx types env (.call f args) := by
  intro s t h ht hr
  obtain ⟨hpart, hargs⟩ := Rule.expr_call.mp hr
  unfold operand?
  simp only [hf]
  obtain ⟨target, k, print, rest, ts, callee, rfl, hk, hprint, hrest, _, rfl⟩ :=
    Typing.of_checkExpr_difference ht hf
  obtain ⟨hstrict, htarget⟩ := hpart hf
  obtain ⟨hk', hargs⟩ := Rule.exprs_cons.mp (Rule.exprs_cons.mp hargs).2
  obtain ⟨hprint', hrest'⟩ := Rule.exprs_cons.mp hargs
  have hdifference : Sound strict (differenceOf ctx env (.funcRef target :: k :: print :: rest))
      s fun v _ => v.ty = .float := by
    unfold differenceOf
    refine (ih k (by simp) h hk hk').bind fun o s₁ hr₁ ho => ?_
    refine (sound_int k hr₁.typed ho.1 rfl).bind fun index s₂ _ hs₂ => ?_
    subst hs₂
    have h₁ := h.retained hr₁
    refine (ih print (by simp) h₁ hprint hprint').bind fun o s₃ hr₃ ho => ?_
    refine (sound_bool print hr₃.typed ho.1 rfl).bind fun b s₄ _ hs₄ => ?_
    subst hs₄
    refine (sound_numbers (fun e he => ih e (by simp [he])) hstrict (h₁.retained hr₃) hrest
      hrest').bind
      fun point s₅ hr₅ hpoint => ?_
    exact sound_difference hctx hr₅.typed hstrict (htarget target rfl) index hpoint
  exact hdifference.bind fun v s₁ hr₁ hv => soundOperand_value hr₁.typed hv rfl

end

/-- Evaluation of an expression that passed the checker is sound. -/
theorem sound_operand? (hctx : Conforms strict ctx) (e : Expr) :
    SoundExpr strict ctx types env e := by
  induction e using Expr.induct with
  | float v =>
    intro s t h ht _
    cases ht
    unfold operand?
    exact soundOperand_value h.typed rfl rfl
  | int v =>
    intro s t h ht _
    cases ht
    unfold operand?
    exact soundOperand_value h.typed rfl rfl
  | bool v =>
    intro s t h ht _
    cases ht
    unfold operand?
    exact soundOperand_value h.typed rfl rfl
  | var x => exact soundExpr_var x
  | index x i ihi => exact soundExpr_index ihi
  | unary op e ihe =>
    cases op with
    | neg => exact soundExpr_neg ihe
    | not => exact soundExpr_not ihe
  | binary op l r ihl ihr => exact soundExpr_binary ihl ihr
  | call f args ih =>
    cases hf : Intrinsic.ofName? f with
    | none => exact soundExpr_named ih hctx hf
    | some intrinsic =>
      cases intrinsic with
      | len => exact soundExpr_len hf
      | push => exact soundExpr_push ih hf
      | pop => exact soundExpr_pop hf
      | centralDifference => exact soundExpr_difference ih hctx hf
  | funcRef f =>
    intro s t h ht _
    cases ht

end Eval

end Fluxion
