import Mathlib.Data.List.Forall2
import Fluxion.Proofs.Runs.Code
import Fluxion.Proofs.Runs.Kept
import Fluxion.Proofs.Typing.Overload

/-!
Evaluating an expression keeps what a guard names, when the expression passes on no name that stands
for guarded storage where it may be written.
-/

namespace Fluxion

variable {K : Type}

/-- The positions of its parameters that each function may write. -/
abbrev Writable := Func → Nat → Prop

/-- The parameter gives access to the caller's storage, which the function may not write. -/
def Writable.Spares (W : Writable) (f : Func) (i : Nat) : Prop :=
  ¬ W f i ∧ ∃ p, f.params[i]? = some p ∧ p.ty.isShared = true

namespace Guard

variable (G : Guard) (W : Writable) (funcs : Program) (D : String → Prop)

/-- A call passes no name of `D` on to a position that may be written. -/
def CallKeeps (f : String) (args : List Expr) : Prop :=
  ∀ g ∈ funcs, g.name = f → ∀ i e place, W g i → args[i]? = some e → e.place? = some place →
    ¬ D place.name

/-- The rule of code that writes none of the names of `D`. -/
def rule : Rule where
  part
    | .call f args =>
      match Intrinsic.ofName? f with
      | some .push | some .pop => G.pops
      | some _ => True
      | none => CallKeeps W funcs D f args
    | _ => True
  target place := ¬ D place.name
  declares d := ¬ G.fixed d.name ∧ (∀ t, d.ty = .tape t → G.grows) ∧
    ∀ x, d.ty.isArray = true → d.init = some (.var x) → D x → D d.name
  returns := G.returns

end Guard

/-- The variables stand for allocated storage, and none outside of `D` for guarded slots. Code that
may push and pop has no guarded tape. -/
structure Fits (D : String → Prop) (G : Guard) (env : Env) (s : Store K) : Prop where
  guard : G.In s
  inside : ∀ y b, env.lookup y = some b → b.In s
  apart : ∀ y b, env.lookup y = some b → ¬ D y → b.Apart G
  tapes : G.pops → ∀ y id, env.lookup y = some (.tape id) → ¬ G.tapes id

theorem Fits.kept {D : String → Prop} {G : Guard} {env : Env} {s s' : Store K}
    (h : Fits D G env s) (hk : Kept G s s') : Fits D G env s' :=
  ⟨hk.guard_in h.guard, fun y b hb => hk.binding_in (h.inside y b hb), h.apart, h.tapes⟩

/-- What an expression gave is allocated. -/
def Operand.In (s : Store K) : Operand K → Prop
  | .value _ => True
  | .place slot _ => slot.In s
  | .array id => id < s.arrays.size
  | .tape _ => True

/-- What an expression gave is not under guard. -/
def Operand.Apart (G : Guard) : Operand K → Prop
  | .value _ => True
  | .place slot _ => ¬ G.slots slot
  | .array id => ∀ i, ¬ G.slots (.element id i)
  | .tape _ => True

/-- What an expression gave is allocated, and guarded only if it belongs to a name of `D`. -/
def Operand.Fits (D : String → Prop) (G : Guard) (s : Store K) (e : Expr) : Operand K → Prop
  | .value _ => True
  | .place slot _ =>
    slot.In s ∧ ∃ place, e.place? = some place ∧ (¬ D place.name → ¬ G.slots slot)
  | .array id =>
    id < s.arrays.size ∧
      ∃ place, e.place? = some place ∧ (¬ D place.name → ∀ i, ¬ G.slots (.element id i))
  | .tape _ => True

theorem Operand.Fits.kept {D : String → Prop} {G : Guard} {s s' : Store K} {e : Expr}
    {o : Operand K} (h : o.Fits D G s e) (hk : Kept G s s') : o.Fits D G s' e := by
  cases o with
  | value v => trivial
  | place slot v => exact ⟨hk.slot_in h.1, h.2⟩
  | array id => exact ⟨Nat.lt_of_lt_of_le h.1 hk.arrays_le, h.2⟩
  | tape id => trivial

theorem Operand.Fits.inside {D : String → Prop} {G : Guard} {s : Store K} {e : Expr}
    {o : Operand K} (h : o.Fits D G s e) : o.In s := by
  cases o with
  | value v => trivial
  | place slot v => exact h.1
  | array id => exact h.1
  | tape id => trivial

theorem Operand.Fits.apart {D : String → Prop} {G : Guard} {s : Store K} {e : Expr}
    {o : Operand K} (h : o.Fits D G s e) (hD : ∀ place, e.place? = some place → ¬ D place.name) :
    o.Apart G := by
  cases o with
  | value v => trivial
  | place slot v =>
    obtain ⟨place, hplace, hapart⟩ := h.2
    exact hapart (hD place hplace)
  | array id =>
    obtain ⟨place, hplace, hapart⟩ := h.2
    exact hapart (hD place hplace)
  | tape id => trivial

/-- Only parameters that a function may not write are bound to storage under guard. -/
def Passes (W : Writable) (G : Guard) (f : Func) (bound : List (Bound K)) (s : Store K) : Prop :=
  ∀ i b, bound[i]? = some b → b.In s ∧ (¬ W.Spares f i → b.Apart G)

/-- Calls keep what is under guard. -/
structure Framed (W : Writable) (G : Guard) (ctx : Context K) : Prop where
  params : ∀ f ∈ ctx.funcs, ∀ p ∈ f.params, ∀ t, p.ty ≠ .tape t
  call : ∀ f ∈ ctx.funcs, ∀ bound s, G.In s → Passes W G f bound s →
    Safe G (ctx.call f bound) s fun _ _ => True

theorem Framed.growing {W : Writable} {G : Guard} {ctx : Context K} (h : Framed W G ctx) :
    Framed W G.growing ctx :=
  ⟨h.params, fun f hf bound s hG hb =>
    (h.call f hf bound s ⟨hG.1, hG.2⟩ fun i b hi =>
      ⟨(hb i b hi).1, fun hw => by
        have := (hb i b hi).2 hw
        cases b <;> exact this⟩).covers G.covers_growing⟩

namespace Eval

variable {W : Writable} {G : Guard} {ctx : Context K} {D : String → Prop} {env : Env} {s : Store K}

theorem safe_lookup (x : String) :
    Safe G (Eval.lookup env x) s fun b s' => env.lookup x = some b ∧ s' = s :=
  Safe.require (by simp) fun _ hb => ⟨hb, rfl⟩

theorem safe_arrayOf (x : String) :
    Safe G (arrayOf env x) s fun id s' => env.lookup x = some (.array id) ∧ s' = s := by
  refine (safe_lookup x).bind fun b s' _ hb => ?_
  obtain ⟨hb, rfl⟩ := hb
  cases b with
  | array id => exact Safe.pure ⟨hb, rfl⟩
  | scalar slot => exact Safe.mistyped
  | tape id => exact Safe.mistyped

theorem safe_tapeOf (e : Option Expr) :
    Safe G (tapeOf env e) s fun id s' =>
      (∃ x, e = some (.var x) ∧ env.lookup x = some (.tape id)) ∧ s' = s := by
  unfold tapeOf
  split
  · rename_i x
    refine (safe_lookup x).bind fun b s' _ hb => ?_
    obtain ⟨hb, rfl⟩ := hb
    cases b with
    | tape id => exact Safe.pure ⟨⟨x, rfl, hb⟩, rfl⟩
    | scalar slot => exact Safe.mistyped
    | array id => exact Safe.mistyped
  · exact Safe.mistyped

theorem safe_value? (e : Expr) (o : Option (Operand K)) :
    Safe G (value? e o) s fun _ s' => s' = s := by
  rcases o with _ | (v | ⟨slot, v⟩ | id | id)
  · exact Safe.pure rfl
  · exact Safe.pure rfl
  · exact Safe.pure rfl
  all_goals cases e <;> exact Safe.mistyped

theorem safe_value (e : Expr) (o : Option (Operand K)) :
    Safe G (value e o) s fun _ s' => s' = s := by
  refine (safe_value? e o).bind fun v s' _ hs' => ?_
  subst hs'
  exact Safe.require (by simp) fun _ _ => rfl

theorem safe_int (e : Expr) (o : Option (Operand K)) :
    Safe G (int e o) s fun _ s' => s' = s := by
  refine (safe_value e o).bind fun v s' _ hs' => ?_
  subst hs'
  exact Safe.require (by simp) fun _ _ => rfl

theorem safe_bool (e : Expr) (o : Option (Operand K)) :
    Safe G (bool e o) s fun _ s' => s' = s := by
  refine (safe_value e o).bind fun v s' _ hs' => ?_
  subst hs'
  exact Safe.require (by simp) fun _ _ => rfl

theorem safe_lengthOf (o : Option (Operand K)) :
    Safe G (lengthOf o) s fun o' s' => (∀ v, o' = some v → ∃ w, v = .value w) ∧ s' = s := by
  unfold lengthOf
  split
  · exact Safe.get_bind (Safe.pure ⟨fun v hv => by cases hv; exact ⟨_, rfl⟩, rfl⟩)
  · exact Safe.get_bind (Safe.pure ⟨fun v hv => by cases hv; exact ⟨_, rfl⟩, rfl⟩)
  · exact Safe.mistyped

theorem safe_popFrom {x : String} {id : Nat} (h : ¬ G.tapes id) (hp : G.pops) :
    Safe G (popFrom (K := K) x id) s fun _ _ => True := by
  refine Safe.get_bind ?_
  split
  · exact ⟨.refl G s, fun _ _ => hp⟩
  · have hdrop : Safe G (modify fun st : Store K => st.drop id) s fun _ _ => True :=
      ⟨Kept.drop h, trivial⟩
    exact hdrop.bind fun _ _ _ _ => Safe.pure trivial

theorem safe_elementSlot (x : String) (id : Nat) (index : Int64) :
    Safe G (elementSlot x id index) s fun slot s' => (∃ i, slot = .element id i) ∧ s' = s := by
  refine Safe.get_bind ?_
  dsimp only
  split
  · exact Safe.fail (by simp)
  · exact Safe.pure ⟨⟨_, rfl⟩, rfl⟩

theorem safe_operand_binding (h : Fits D G env s) {x : String} {b : Binding}
    (hb : env.lookup x = some b) :
    Safe G (Binding.operand (K := K) b) s fun o s' => o.Fits D G s (.var x) ∧ s' = s := by
  have hin := h.inside x b hb
  have hapart := h.apart x b hb
  cases b with
  | scalar slot => exact Safe.get_bind (Safe.pure ⟨⟨hin, .var x, rfl, hapart⟩, rfl⟩)
  | array id => exact Safe.pure ⟨⟨hin, .var x, rfl, hapart⟩, rfl⟩
  | tape id => exact Safe.pure ⟨trivial, rfl⟩

theorem safe_element (h : Fits D G env s) {x : String} {i : Expr} {id : Nat}
    (hid : env.lookup x = some (.array id)) (index : Int64) :
    Safe G (elementSlot x id index) s fun slot s' =>
      (∀ v, (Operand.place slot v : Operand K).Fits D G s (.index x i)) ∧ s' = s := by
  refine (safe_elementSlot x id index).imp fun slot s' _ hslot => ?_
  obtain ⟨⟨k, rfl⟩, rfl⟩ := hslot
  exact ⟨fun v => ⟨h.inside x _ hid, .index x i, rfl, fun hD => h.apart x _ hid hD k⟩, rfl⟩

/-- Whatever an expression gives fits, and what is under guard is kept. -/
abbrev SafeOperand (D : String → Prop) (G : Guard) (s : Store K) (e : Expr)
    (m : Exec K (Option (Operand K))) : Prop :=
  Safe G m s fun o s' => ∀ v, o = some v → v.Fits D G s' e

theorem safeOperand_value {e : Expr} {v : Value K} : SafeOperand D G s e (pure (some (.value v))) :=
  Safe.pure fun w hw => by
    cases hw
    trivial

theorem safe_lift {r : Except RuntimeError (Value K)} (h : ∀ x, r ≠ .error (.emptyTape x)) :
    Safe G (lift r) s fun _ s' => s' = s := by
  cases r with
  | ok v => exact Safe.pure rfl
  | error e => exact Safe.fail fun x hx => h x (hx ▸ rfl)

variable [Scalar K]

theorem negate_ne_emptyTape (v : Value K) (x : String) : v.negate ≠ .error (.emptyTape x) := by
  cases v <;> simp [Value.negate]

theorem apply_ne_emptyTape (op : BinOp) (a b : Value K) (x : String) :
    op.apply a b ≠ .error (.emptyTape x) := by
  unfold BinOp.apply
  split
  · simp
  · split <;> simp

/-! ### Calls -/

theorem safe_bindOperand {f : Func} {p : Param} {o : Operand K} {i : Nat}
    (hi : f.params[i]? = some p) (hp : ∀ t, p.ty ≠ .tape t) (ho : o.In s)
    (hW : W f i → o.Apart G) :
    Safe G (bindOperand f p o) s fun b s' =>
      (b.In s ∧ (¬ W.Spares f i → b.Apart G)) ∧ s' = s := by
  have hwrites : p.ty.isShared = true → ¬ W.Spares f i → W f i := by
    intro hshared hspare
    by_contra hw
    exact hspare ⟨hw, p, hi, hshared⟩
  unfold bindOperand
  split
  · rename_i hty
    exact Safe.pure ⟨⟨ho, fun hspare => hW (hwrites (by simp [hty, Ty.isShared]) hspare)⟩, rfl⟩
  · exact Safe.fail (by simp)
  · rename_i hty
    exact Safe.pure ⟨⟨ho, fun hspare => hW (hwrites (by simp [hty, Ty.isShared]) hspare)⟩, rfl⟩
  · exact Safe.fail (by simp)
  · rename_i hty
    exact absurd hty (hp _)
  · exact Safe.pure ⟨⟨trivial, fun _ => trivial⟩, rfl⟩
  · exact Safe.pure ⟨⟨trivial, fun _ => trivial⟩, rfl⟩
  · exact Safe.fail (by simp)

theorem safe_bindOperands {f : Func} {ps : List Param} {os : List (Operand K)} {k : Nat}
    (hk : ∀ i, ps[i]? = f.params[k + i]?) (hp : ∀ p ∈ ps, ∀ t, p.ty ≠ .tape t)
    (ho : ∀ i o, os[i]? = some o → o.In s ∧ (W f (k + i) → o.Apart G)) :
    Safe G (bindOperands f ps os) s fun bound s' =>
      (∀ i b, bound[i]? = some b → b.In s ∧ (¬ W.Spares f (k + i) → b.Apart G)) ∧ s' = s := by
  induction ps generalizing os k with
  | nil =>
    unfold bindOperands
    exact Safe.pure ⟨by simp, rfl⟩
  | cons p ps ih =>
    cases os with
    | nil =>
      unfold bindOperands
      exact Safe.pure ⟨by simp, rfl⟩
    | cons o os =>
      obtain ⟨hin, hapart⟩ := ho 0 o rfl
      refine (safe_bindOperand (W := W) (hk 0).symm (hp p (by simp)) hin hapart).bind
        fun b s' _ hb => ?_
      obtain ⟨hb, rfl⟩ := hb
      have hk' : ∀ i, ps[i]? = f.params[k + 1 + i]? := fun i => by
        rw [Nat.add_right_comm]
        exact hk (i + 1)
      have hrest := ih hk' (fun q hq => hp q (by simp [hq])) fun i o ho' => by
        rw [Nat.add_right_comm]
        exact ho (i + 1) o ho'
      refine hrest.bind fun bs s'' _ hbs => ?_
      obtain ⟨hbs, rfl⟩ := hbs
      refine Safe.pure ⟨fun i b' hb' => ?_, rfl⟩
      cases i with
      | zero =>
        cases hb'
        exact hb
      | succ i =>
        have := hbs i b' hb'
        rwa [Nat.add_right_comm] at this

/-- A call whose operands are not under guard where the function may write. -/
theorem safe_bindOperands_call (hf : Framed W G ctx) {f : Func} (hmem : f ∈ ctx.funcs) (hG : G.In s)
    {os : List (Operand K)} (ho : ∀ i o, os[i]? = some o → o.In s ∧ (W f i → o.Apart G)) :
    Safe G (bindOperands f f.params os >>= ctx.call f) s fun _ _ => True := by
  have hbind := safe_bindOperands (W := W) (k := 0) (fun i => by rw [Nat.zero_add])
    (hf.params f hmem) fun i o hi => by simpa using ho i o hi
  refine hbind.bind fun bound s' _ hb => ?_
  obtain ⟨hb, rfl⟩ := hb
  exact hf.call f hmem bound s' hG fun i b hib => by simpa using hb i b hib

theorem safe_callNamed (hf : Framed W G ctx) {name : String} {args : List Expr}
    (hc : Guard.CallKeeps W ctx.funcs D name args) (hG : G.In s) {os : List (Operand K)}
    (ho : List.Forall₂ (fun e o => o.Fits D G s e) args os) :
    Safe G (callNamed ctx name os) s fun _ _ => True := by
  refine Safe.get_bind ?_
  dsimp only
  split
  · rename_i f hres
    obtain ⟨hmem, hname⟩ := mem_of_resolve hres
    refine safe_bindOperands_call hf hmem hG fun i o hi => ?_
    obtain ⟨hlt, rfl⟩ := List.getElem?_eq_some_iff.mp hi
    have hargs : i < args.length := by rwa [ho.length_eq]
    have hfits := ho.get hargs hlt
    exact ⟨hfits.inside, fun hw => hfits.apart fun place hplace =>
      hc f hmem hname i _ place hw (List.getElem?_eq_getElem hargs) hplace⟩
  · split
    · exact Safe.fail (by simp)
    · exact Safe.fail (by simp)

theorem safe_callAtPoint (hf : Framed W G ctx) (hG : G.In s) {f : Func} (hmem : f ∈ ctx.funcs)
    (point : List (Value K)) (k : Nat) (x : K) :
    Safe G (callAtPoint ctx f point k x) s fun _ _ => True := by
  refine (hf.call f hmem _ s hG fun i b hb => ?_).bind fun v s' _ _ =>
    Safe.require (by simp) fun _ _ => trivial
  obtain ⟨v, _, rfl⟩ := List.mem_map.mp (List.mem_of_getElem? hb)
  exact ⟨trivial, fun _ => trivial⟩

/-- A numerical derivative passes on values only. -/
theorem safe_difference (hf : Framed W G ctx) (hG : G.In s) (target : String) (k : Int64)
    (point : List (Value K)) : Safe G (difference ctx target k point) s fun _ _ => True := by
  unfold difference
  split
  · exact Safe.fail (by simp)
  have hfun : Safe G (Exec.require (.unknownFunction target)
      (ctx.funcs.resolve target (point.map Value.ty))) s fun f s' => f ∈ ctx.funcs ∧ s' = s :=
    Safe.require (by simp) fun f hres => ⟨(mem_of_resolve hres).1, rfl⟩
  refine hfun.bind fun f s' _ hf' => ?_
  obtain ⟨hmem, rfl⟩ := hf'
  have hstep : ∀ x s'', Kept G s' s'' → Safe G (callAtPoint ctx f point k.toInt.toNat x) s''
      fun _ _ => True := fun x s'' hk => safe_callAtPoint hf (hk.guard_in hG) hmem point _ x
  unfold Estimate.fivePoint Estimate.fivePointAt
  refine Safe.bind (Q := fun _ _ => True) ?_ fun _ _ _ _ => Safe.pure trivial
  refine (hstep _ s' (.refl G s')).bind fun _ s₁ h₁ _ => ?_
  refine (hstep _ s₁ h₁).bind fun _ s₂ h₂ _ => ?_
  refine (hstep _ s₂ (h₁.trans h₂)).bind fun _ s₃ h₃ _ => ?_
  refine (hstep _ s₃ ((h₁.trans h₂).trans h₃)).bind fun _ s₄ h₄ _ => ?_
  refine (hstep _ s₄ (((h₁.trans h₂).trans h₃).trans h₄)).bind fun _ s₅ h₅ _ => ?_
  refine (hstep _ s₅ ((((h₁.trans h₂).trans h₃).trans h₄).trans h₅)).bind fun _ s₆ h₆ _ => ?_
  exact Safe.pure trivial

/-! ### Expressions -/

mutual

theorem safe_operand? (hf : Framed W G ctx) : ∀ {e : Expr} {s : Store K}, Fits D G env s →
    (G.rule W ctx.funcs D).Expr e → SafeOperand D G s e (operand? ctx env e)
  | .float _, _, _, _ => by unfold operand?; exact safeOperand_value
  | .int _, _, _, _ => by unfold operand?; exact safeOperand_value
  | .bool _, _, _, _ => by unfold operand?; exact safeOperand_value
  | .funcRef _, _, _, _ => by unfold operand?; exact Safe.mistyped
  | .var x, s, h, _ => by
    unfold operand?
    refine (safe_lookup x).bind fun b s' _ hb => ?_
    obtain ⟨hb, rfl⟩ := hb
    refine (safe_operand_binding h hb).bind fun o s'' _ ho => ?_
    obtain ⟨ho, rfl⟩ := ho
    exact Safe.pure fun v hv => by
      cases hv
      exact ho
  | .index x i, s, h, hr => by
    unfold operand?
    refine (safe_arrayOf x).bind fun id s' _ hid => ?_
    obtain ⟨hid, rfl⟩ := hid
    refine (safe_operand? hf h (Rule.expr_index.mp hr).2).bind fun o s₁ hk₁ _ => ?_
    refine (safe_int i o).bind fun index s₂ _ hs₂ => ?_
    subst hs₂
    refine (safe_element (i := i) (h.kept hk₁) hid index).bind fun slot s₃ _ hslot => ?_
    obtain ⟨hslot, rfl⟩ := hslot
    exact Safe.get_bind (Safe.pure fun v hv => by
      cases hv
      exact hslot _)
  | .unary .neg e, s, h, hr => by
    unfold operand?
    refine (safe_operand? hf h (Rule.expr_unary.mp hr).2).bind fun o s₁ _ _ => ?_
    refine (safe_value e o).bind fun v s₂ _ hs₂ => ?_
    refine (safe_lift (negate_ne_emptyTape v)).bind fun w s₃ _ _ => ?_
    exact safeOperand_value
  | .unary .not e, s, h, hr => by
    unfold operand?
    refine (safe_operand? hf h (Rule.expr_unary.mp hr).2).bind fun o s₁ _ _ => ?_
    refine (safe_bool e o).bind fun v s₂ _ _ => ?_
    exact safeOperand_value
  | .binary op l r, s, h, hr => by
    have hl := (Rule.expr_binary.mp hr).2.1
    have hr' := (Rule.expr_binary.mp hr).2.2
    have hboth : ∀ op : BinOp, SafeOperand D G s (.binary op l r) (do
        let a ← value l (← operand? ctx env l)
        let b ← value r (← operand? ctx env r)
        return some (.value (← lift (op.apply a b)))) := by
      intro op
      refine (safe_operand? hf h hl).bind fun o s₁ hk₁ _ => ?_
      refine (safe_value l o).bind fun a s₂ _ hs₂ => ?_
      subst hs₂
      refine (safe_operand? hf (h.kept hk₁) hr').bind fun o s₃ _ _ => ?_
      refine (safe_value r o).bind fun b s₄ _ _ => ?_
      refine (safe_lift (apply_ne_emptyTape op a b)).bind fun w s₅ _ _ => ?_
      exact safeOperand_value
    cases op with
    | and =>
      unfold operand?
      refine (safe_operand? hf h hl).bind fun o s₁ hk₁ _ => ?_
      refine (safe_bool l o).bind fun a s₂ _ hs₂ => ?_
      subst hs₂
      split
      · refine (safe_operand? hf (h.kept hk₁) hr').bind fun o s₃ _ _ => ?_
        exact (safe_bool r o).bind fun b s₄ _ _ => safeOperand_value
      · exact safeOperand_value
    | or =>
      unfold operand?
      refine (safe_operand? hf h hl).bind fun o s₁ hk₁ _ => ?_
      refine (safe_bool l o).bind fun a s₂ _ hs₂ => ?_
      subst hs₂
      split
      · exact safeOperand_value
      · refine (safe_operand? hf (h.kept hk₁) hr').bind fun o s₃ _ _ => ?_
        exact (safe_bool r o).bind fun b s₄ _ _ => safeOperand_value
    | _ =>
      unfold operand?
      exact hboth _
  | .call f args, s, h, hr => by
    obtain ⟨hpart, hargs⟩ := Rule.expr_call.mp hr
    simp only [Guard.rule] at hpart
    unfold operand?
    split
    · rename_i hname
      refine (safe_firstOperand? hf h hargs).bind fun o s₁ _ _ => ?_
      refine (safe_lengthOf o).imp fun o' s' _ ho v hv => ?_
      obtain ⟨w, rfl⟩ := ho.1 v hv
      trivial
    · rename_i hname
      simp only [hname] at hpart
      refine (safe_tapeOf args.head?).bind fun id s' _ hid => ?_
      obtain ⟨⟨x, _, hx⟩, rfl⟩ := hid
      refine (safe_secondValue? hf h hargs).bind fun o s₁ hk₁ _ => ?_
      refine (Safe.require (Q := fun _ s' => s' = s₁) (by simp) fun _ _ => rfl).bind
        fun v s₂ _ hs₂ => ?_
      subst hs₂
      have hpush : Safe G (modify fun st : Store K => st.push id v) s₂ fun _ _ => True :=
        ⟨Kept.push (h.tapes hpart x id hx) v, trivial⟩
      exact hpush.bind fun _ s₃ _ _ => safeOperand_value
    · rename_i hname
      simp only [hname] at hpart
      refine (safe_tapeOf args.head?).bind fun id s' _ hid => ?_
      obtain ⟨⟨x, _, hx⟩, rfl⟩ := hid
      refine (safe_popFrom (h.tapes hpart x id hx) hpart).bind fun v s₁ _ _ => safeOperand_value
    · refine (safe_differenceOf hf h hargs).bind fun v s₁ _ _ => safeOperand_value
    · rename_i hname
      simp only [hname] at hpart
      refine (safe_operands hf h hargs).bind fun os s₁ hk₁ hos => ?_
      refine (safe_callNamed hf hpart (hk₁.guard_in h.guard) hos).bind fun v s₂ _ _ => ?_
      cases v with
      | none => exact Safe.pure fun w hw => by cases hw
      | some v => exact safeOperand_value

theorem safe_operands (hf : Framed W G ctx) : ∀ {es : List Expr} {s : Store K}, Fits D G env s →
    (G.rule W ctx.funcs D).Exprs es →
    Safe G (operands ctx env es) s fun os s' => List.Forall₂ (fun e o => o.Fits D G s' e) es os
  | [], s, _, _ => by unfold operands; exact Safe.pure .nil
  | e :: es, s, h, hr => by
    obtain ⟨he, hes⟩ := Rule.exprs_cons.mp hr
    unfold operands
    refine (safe_operand? hf h he).bind fun o s₁ hk₁ ho => ?_
    refine (Safe.require (Q := fun v s' => o = some v ∧ s' = s₁) (by simp)
      fun v hv => ⟨hv, rfl⟩).bind fun v s₂ _ hv => ?_
    obtain ⟨hv, rfl⟩ := hv
    refine (safe_operands hf (h.kept hk₁) hes).bind fun os s₃ hk₃ hos => ?_
    exact Safe.pure (.cons ((ho v hv).kept hk₃) hos)

theorem safe_firstOperand? (hf : Framed W G ctx) : ∀ {es : List Expr} {s : Store K},
    Fits D G env s → (G.rule W ctx.funcs D).Exprs es →
    Safe G (firstOperand? ctx env es) s fun _ _ => True
  | [], s, _, _ => by unfold firstOperand?; exact Safe.pure trivial
  | e :: es, s, h, hr => by
    unfold firstOperand?
    refine (safe_operand? hf h (Rule.exprs_cons.mp hr).1).bind fun o s₁ _ _ => ?_
    refine (Safe.require (Q := fun _ _ => True) (by simp) fun _ _ => trivial).bind
      fun v s₂ _ _ => Safe.pure trivial

theorem safe_secondValue? (hf : Framed W G ctx) : ∀ {es : List Expr} {s : Store K},
    Fits D G env s → (G.rule W ctx.funcs D).Exprs es →
    Safe G (secondValue? ctx env es) s fun _ _ => True
  | [], s, _, _ => by unfold secondValue?; exact Safe.pure trivial
  | [_], s, _, _ => by unfold secondValue?; exact Safe.pure trivial
  | _ :: e :: es, s, h, hr => by
    unfold secondValue?
    have he := (Rule.exprs_cons.mp (Rule.exprs_cons.mp hr).2).1
    refine (safe_operand? hf h he).bind fun o s₁ _ _ => ?_
    exact (safe_value e o).bind fun v s₂ _ _ => Safe.pure trivial

theorem safe_numbers (hf : Framed W G ctx) : ∀ {es : List Expr} {s : Store K}, Fits D G env s →
    (G.rule W ctx.funcs D).Exprs es → Safe G (numbers ctx env es) s fun _ _ => True
  | [], s, _, _ => by unfold numbers; exact Safe.pure trivial
  | e :: es, s, h, hr => by
    obtain ⟨he, hes⟩ := Rule.exprs_cons.mp hr
    unfold numbers
    refine (safe_operand? hf h he).bind fun o s₁ hk₁ _ => ?_
    refine (safe_value e o).bind fun v s₂ _ hs₂ => ?_
    subst hs₂
    have hnum : Safe G (numeric v) s₂ fun _ s' => s' = s₂ := by
      unfold numeric
      split
      · exact Safe.pure rfl
      · exact Safe.mistyped
    refine hnum.bind fun w s₃ _ hs₃ => ?_
    subst hs₃
    exact (safe_numbers hf (h.kept hk₁) hes).bind fun vs s₄ _ _ => Safe.pure trivial

theorem safe_differenceOf (hf : Framed W G ctx) : ∀ {es : List Expr} {s : Store K},
    Fits D G env s → (G.rule W ctx.funcs D).Exprs es →
    Safe G (differenceOf ctx env es) s fun _ _ => True
  | es, s, h, hr => by
    unfold differenceOf
    split
    · rename_i target k print rest
      obtain ⟨hk, hr⟩ := Rule.exprs_cons.mp (Rule.exprs_cons.mp hr).2
      obtain ⟨hp, hrest⟩ := Rule.exprs_cons.mp hr
      refine (safe_operand? hf h hk).bind fun o s₁ hk₁ _ => ?_
      refine (safe_int k o).bind fun index s₂ _ hs₂ => ?_
      subst hs₂
      refine (safe_operand? hf (h.kept hk₁) hp).bind fun o s₃ hk₃ _ => ?_
      refine (safe_bool print o).bind fun b s₄ _ hs₄ => ?_
      subst hs₄
      have hfits := (h.kept hk₁).kept hk₃
      refine (safe_numbers hf hfits hrest).bind fun point s₅ hk₅ _ => ?_
      exact safe_difference hf (hfits.kept hk₅).guard target index point
    · exact Safe.mistyped

end

end Eval

end Fluxion
