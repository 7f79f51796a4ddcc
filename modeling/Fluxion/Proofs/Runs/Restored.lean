import Fluxion.Proofs.Runs.Touched

/-!
Arguments that are saved before a call and restored after it. A place is evaluated three times: when
it is saved, in the call, and when it is restored. If what its index reads is restored before it is,
all three find the same slot, and all storage is as it was before the call.
-/

namespace Fluxion

variable {K : Type}

/-! ### Single steps -/

theorem Value.coerce_of_ty [Scalar K] {w : Value K} {ty : Ty} (h : w.ty = ty.value) : w.coerce ty = w := by
  unfold Value.coerce
  rw [← h]
  cases w <;> rfl

/-- A slot takes a value of its type as it is. -/
theorem Store.read_write_self [Scalar K] {s : Store K} {slot : Slot} {w : Value K}
    (h : s.slotTy? slot = some w.ty) : (s.write slot w).read slot = w := by
  have hcoerce : ∀ old : Value K, old.ty = w.ty → w.coerce old.ty = w := fun old hold =>
    Value.coerce_of_ty (by rw [old.value_ty, hold])
  cases slot with
  | cell i =>
    obtain ⟨old, hold, hty⟩ := Option.map_eq_some_iff.mp h
    simp [write, read, Array.getElem?_modify, hold, hcoerce old hty]
  | element a i =>
    obtain ⟨old, hold, hty⟩ := Option.map_eq_some_iff.mp h
    obtain ⟨b, hb, hi⟩ := Option.bind_eq_some_iff.mp hold
    simp [write, read, Array.getElem?_modify, hb, hi, hcoerce old hty]

/-- The binding holds the value, a tape on its top. -/
def Binding.Holds (t : Store K) (w : Value K) : Binding → Prop
  | .scalar slot => t.read slot = w
  | .tape id => (t.tape id).data.back? = some w
  | .array _ => False

theorem Binding.Holds.touches {t t' : Store K} {w : Value K} {B : Binding → Prop} {b : Binding}
    (h : b.Holds t w) (ht : Touches B t t') (hin : b.In t) (hB : ¬ B b) : b.Holds t' w := by
  cases b with
  | scalar slot => exact (ht.kept.slots slot ⟨hin, hB⟩).trans h
  | array id => exact h
  | tape id =>
    rw [Holds, ht.kept.tapes id ⟨hin, hB⟩]
    exact h

theorem Eval.of_operand?_pushTo [Scalar K] {ctx : Context K} {env : Env} {t t' : Store K}
    {x : String} {e : Expr} {o : Option (Operand K)}
    (h : operand? ctx env (Derive.pushTo x e) t = .ok o t') :
    ∃ id w u, env.lookup x = some (.tape id) ∧ eval ctx env e t = .ok w u ∧
      o = some (.value w) ∧ t' = u.push id w := by
  have hname : Intrinsic.ofName? "push" = some .push := by decide
  simp only [Derive.pushTo, operand?, hname, List.head?_cons, secondValue?, state_bind_eq_ok] at h
  obtain ⟨id, t₁, hid, o', t₂, ⟨o'', t₃, ho, w, t₄, hw, hpure⟩, w', t₅, hw', _, t₆, hpush, hend⟩ := h
  obtain ⟨_, ⟨y, hy, hx⟩, rfl⟩ := (safe_tapeOf (G := t.guard) (some (.var x))).of_ok hid
  obtain ⟨rfl, rfl⟩ := EStateM.Result.ok.inj hpure
  obtain ⟨rfl, rfl⟩ := EStateM.Result.ok.inj hw'
  obtain ⟨_, rfl⟩ := EStateM.Result.ok.inj hpush
  obtain ⟨rfl, rfl⟩ := EStateM.Result.ok.inj hend
  obtain rfl : x = y := by simpa using hy
  exact ⟨id, w, t₄, hx, state_bind_eq_ok.mpr ⟨o'', t₃, ho, hw⟩, rfl, rfl⟩

theorem Touches.write [Scalar K] {t u : Store K} {B : Binding → Prop} {slot : Slot} {w : Value K}
    (h : Touches B t u) (hB : B (.scalar slot)) (hty : u.slotTy? slot = some w.ty) :
    Touches B t (u.write slot w) ∧ (u.write slot w).read slot = w := by
  refine ⟨⟨h.retains.trans (.write h.retains.typed fun ty hslot => ?_), h.kept.trans (.write ?_ w)⟩,
    Store.read_write_self hty⟩
  · obtain rfl : w.ty = ty := by simpa [hty] using hslot
    rw [Value.coerce_of_ty w.value_ty.symm]
  · exact fun hG => hG.2 hB

theorem Touches.push [Scalar K] {t u : Store K} {B : Binding → Prop} {id : Nat} {w : Value K}
    {elem : Ty} (h : Touches B t u) (hB : B (.tape id)) (hty : u.tapeTy? id = some elem)
    (hw : w.ty = elem.value) :
    Touches B t (u.push id w) ∧ ((u.push id w).tape id).data.back? = some w := by
  refine ⟨⟨h.retains.trans (.push h.retains.typed fun ty htape => ?_), h.kept.trans (.push ?_ w)⟩, ?_⟩
  · obtain rfl : elem = ty := by simpa [hty] using htape
    rwa [Value.coerce_of_ty hw]
  · exact fun hG => hG.2 hB
  · obtain ⟨buffer, hbuffer, rfl⟩ := Option.map_eq_some_iff.mp hty
    simp [Store.push, Store.tape, Array.getElem?_modify, hbuffer, Value.coerce_of_ty hw]

/-! ### Saving and restoring one argument -/

namespace Derive

/-- An argument that is saved: its position, the place with its type, and where it is saved. -/
structure Saved where
  arg : Nat
  place : Place
  ty : Ty
  temp : String

namespace Saved

/-- Inside a loop, arguments are saved on tapes. -/
def tempTy (inLoop : Bool) (v : Saved) : Ty := if inLoop then .tape v.ty else v.ty

def keep (inLoop : Bool) (v : Saved) : Stmt :=
  if inLoop then .expr (pushTo v.temp v.place.toExpr) else .set v.temp v.place.toExpr

def restore (inLoop : Bool) (v : Saved) : Stmt :=
  .update v.place .set (if inLoop then popFrom v.temp else .var v.temp)

end Saved

end Derive

/-- The declared variables have storage of their types, which is neither that of another of them nor
that of a variable that has a type. -/
structure Temporaries (decls : List (String × Ty)) (types : TyEnv) (env : Env) (s : Store K) :
    Prop where
  typed : ∀ d ∈ decls, ∃ b, env.lookup d.1 = some b ∧ b.HasTy s d.2
  apart : ∀ d ∈ decls, ∀ b, env.lookup d.1 = some b → ∀ x, Typing.Known types x →
    ∀ b', env.lookup x = some b' → b.home ≠ b'.home
  distinct : decls.Pairwise fun d d' => env.lookup d.1 ≠ env.lookup d'.1

/-- The bindings of the variables where arguments are saved. -/
def Temps (env : Env) (vs : List Derive.Saved) (b : Binding) : Prop :=
  ∃ v ∈ vs, env.lookup v.temp = some b

/-- What the index of the first argument reads is stored apart from the second. -/
def Independent (env : Env) (v v' : Derive.Saved) : Prop :=
  ∀ x ∈ v.place.reads, ∀ b b', env.lookup x = some b → env.lookup v'.place.name = some b' →
    b'.home ≠ b.home

namespace Machine

open Eval

variable [Scalar K] {m : Machine K} {limit depth : Nat} {types : TyEnv} {env : Env}
  {s t t' : Store K} {v : Derive.Saved} {inLoop : Bool} {b : Binding} {B : Binding → Prop}
  {r : Env × Flow K}

section

variable (hm : m.Tame limit depth) (hq : v.place.toExpr.Quiet m.funcs types)
  (hs : Realizes False types env s) (ht : Touches B s t) (hclear : v.place.ClearOf env B)
  (hplace : types.place? v.place = some v.ty) (hb : env.lookup v.temp = some b)
  (hty : b.HasTy t (v.tempTy inLoop))

include hm hq hs ht hclear hplace hb hty

/-- Saving an argument changes nothing but where it is saved. -/
theorem of_keep (hrun : execStmt (m.context limit depth) limit env (v.keep inLoop) t = .ok r t') :
    r = (env, .next) ∧ Touches (· = b) t t' ∧
      ∃ slot, m.At limit depth env s v.place slot ∧ b.Holds t' (t.read slot) := by
  have hr := hs.retained ht.retains
  have hslot : ∀ w u, eval (m.context limit depth) env v.place.toExpr t = .ok w u →
      Touches (· = b) t u ∧ w.ty = v.ty.value ∧
        ∃ slot, m.At limit depth env s v.place slot ∧ w = t.read slot := by
    intro w u hw
    obtain ⟨slot, hslot, rfl⟩ := of_eval_toExpr hw
    obtain ⟨hcalm, hret, ty, hty', hslotTy⟩ := slotOf_calm hm hq hr hslot
    obtain rfl : ty = v.ty := by simpa [hplace] using hty'.symm
    have hat := at_of_slotOf hm hq hs ht hclear hslot
    refine ⟨⟨hret, hcalm.sparing _⟩, Store.ty_read hslotTy, slot, hat, ?_⟩
    exact hcalm.slots slot (ht.kept.slot_in (hat.slot_in hq hs))
  cases inLoop with
  | true =>
    simp only [Derive.Saved.keep, if_true, execStmt, eval?, state_bind_eq_ok] at hrun
    obtain ⟨o, t₁, ⟨o', t₂, ho', hvalue⟩, hpure⟩ := hrun
    obtain ⟨id, w, u, hid, hw, rfl, rfl⟩ := of_operand?_pushTo ho'
    obtain ⟨rfl, rfl⟩ := EStateM.Result.ok.inj hvalue
    obtain ⟨rfl, rfl⟩ := EStateM.Result.ok.inj hpure
    obtain rfl : b = .tape id := by simpa [hb] using hid
    obtain ⟨htouch, hwty, slot, hat, rfl⟩ := hslot w u hw
    obtain ⟨elem, helem, htape⟩ := hty
    obtain rfl : v.ty = elem := by simpa [Derive.Saved.tempTy] using helem
    have hpush := htouch.push rfl (htouch.retains.tapes htape) hwty
    exact ⟨rfl, hpush.1, slot, hat, hpush.2⟩
  | false =>
    simp only [Derive.Saved.keep, Bool.false_eq_true, if_false, Stmt.set, execStmt, execAssignment,
      state_bind_eq_ok] at hrun
    obtain ⟨_, t₁, ⟨slot', t₂, hslot', w, u, hw, hwrite⟩, hpure⟩ := hrun
    obtain ⟨hlookup, rfl⟩ := of_slotOf_var hslot'
    obtain ⟨_, rfl⟩ := EStateM.Result.ok.inj hwrite
    obtain ⟨rfl, rfl⟩ := EStateM.Result.ok.inj hpure
    obtain rfl : b = .scalar slot' := by simpa [hb] using hlookup
    obtain ⟨htouch, hwty, slot, hat, rfl⟩ := hslot w u hw
    have hslotTy : u.slotTy? slot' = some (t₂.read slot).ty := by
      rw [hwty]
      exact htouch.retains.slots hty
    have hwrite := htouch.write rfl hslotTy
    exact ⟨rfl, hwrite.1, slot, hat, hwrite.2⟩

/-- Restoring an argument gives its slot the value that was saved, and changes nothing besides. -/
theorem of_restore {slot : Slot} (hat : m.At limit depth env s v.place slot)
    (hholds : b.Holds t (s.read slot))
    (hrun : execStmt (m.context limit depth) limit env (v.restore inLoop) t = .ok r t') :
    r = (env, .next) ∧ Touches (fun b' => b' = b ∨ b' = .scalar slot) t t' ∧
      t'.read slot = s.read slot := by
  have hr := hs.retained ht.retains
  obtain ⟨u, hslot⟩ := hat.slotOf hm hq hs ht hclear
  have hw := hat.ty_read hm hq hs hplace
  obtain ⟨hcalm, hret, ty, hty', hslotTy⟩ := slotOf_calm hm hq hr hslot
  obtain rfl : ty = v.ty := by simpa [hplace] using hty'.symm
  have htouch : Touches (fun b' => b' = b ∨ b' = .scalar slot) t u := ⟨hret, hcalm.sparing _⟩
  have hcalm' : Touches (fun _ => False) t u := ⟨hret, hcalm.sparing _⟩
  have hholds' : b.Holds u (s.read slot) := hholds.touches hcalm' hty.inside fun h => h
  simp only [Derive.Saved.restore, Stmt.update, execStmt, execAssignment, state_bind_eq_ok] at hrun
  obtain ⟨_, t₁, ⟨slot', t₂, hslot', w', u', hw', hwrite⟩, hpure⟩ := hrun
  obtain ⟨rfl, rfl⟩ := EStateM.Result.ok.inj (hslot.symm.trans hslot')
  obtain ⟨_, rfl⟩ := EStateM.Result.ok.inj hwrite
  obtain ⟨rfl, rfl⟩ := EStateM.Result.ok.inj hpure
  suffices h : w' = s.read slot ∧ Touches (fun b' => b' = b ∨ b' = .scalar slot) t u' ∧ Retains u u' by
    obtain ⟨rfl, htouch', hret'⟩ := h
    exact ⟨rfl, htouch'.write (.inr rfl) (by rw [hret'.slots hslotTy, hw])⟩
  cases b with
  | scalar saved =>
    have heval : eval (m.context limit depth) env (.var v.temp) u = .ok (u.read saved) u := eval_var hb
    cases inLoop with
    | false =>
      obtain ⟨rfl, rfl⟩ := EStateM.Result.ok.inj (heval.symm.trans hw')
      exact ⟨hholds', htouch, .refl hret.typed⟩
    | true => cases Store.isScalar_of_slotTy? (show t.slotTy? saved = some (Ty.tape v.ty).value from hty)
  | array id => exact hholds'.elim
  | tape id =>
    cases inLoop with
    | false =>
      obtain ⟨elem, helem, _⟩ := hty
      obtain helem : v.ty = .tape elem := helem
      rw [helem] at hslotTy
      cases Store.isScalar_of_slotTy? hslotTy
    | true =>
      have heval : eval (m.context limit depth) env (Derive.popFrom v.temp) u =
          .ok (s.read slot) (u.drop id) :=
        eval_popFrom hb hholds'
      obtain ⟨rfl, rfl⟩ := EStateM.Result.ok.inj (heval.symm.trans hw')
      have hdrop : Retains u (u.drop id) := .drop hret.typed id
      exact ⟨rfl, ⟨hret.trans hdrop, htouch.kept.trans (.drop fun hG => hG.2 (.inl rfl))⟩, hdrop⟩

end

/-! ### The call -/

section

variable {B' : Binding → Prop} {e : Expr} {es : List Expr} (hm : m.Tame limit depth)

include hm

theorem operand?_calm (hq : e.Quiet m.funcs types) (hr : Realizes False types env t)
    {o : Option (Operand K)} (h : operand? (m.context limit depth) env e t = .ok o t') :
    Touches B t t' := by
  obtain ⟨ty, hty⟩ := hq.checked
  have hcalm := calm hm.conforms (hm.framed t.guard trivial) e hq
    ⟨⟨fun _ h => h, fun _ h => h⟩, hr⟩
  exact ⟨((sound_operand? hm.conforms _ hr hty hq.differences).of_ok h).1, (hcalm.of_ok h).1.sparing B⟩

/-- Each operand of a call is found where the operands before it changed nothing. -/
theorem of_operands (hq : ∀ e ∈ es, e.Quiet m.funcs types) (hr : Realizes False types env t)
    {os : List (Operand K)} (h : operands (m.context limit depth) env es t = .ok os t') :
    Touches B t t' ∧ ∀ (i : Nat) e o, es[i]? = some e → os[i]? = some o →
      ∃ u u', Touches B t u ∧ operand? (m.context limit depth) env e u = .ok (some o) u' := by
  induction es generalizing t os with
  | nil =>
    obtain ⟨rfl, rfl⟩ := EStateM.Result.ok.inj h
    exact ⟨.refl hr.typed, by simp⟩
  | cons e es ih =>
    simp only [operands, state_bind_eq_ok] at h
    obtain ⟨o?, t₁, ho, o, t₂, hreq, os', t₃, hos, hpure⟩ := h
    obtain ⟨rfl, rfl⟩ := EStateM.Result.ok.inj hpure
    have hfirst : Touches B t t₁ := operand?_calm hm (hq e List.mem_cons_self) hr ho
    cases o? with
    | none => cases hreq
    | some o' =>
      obtain ⟨rfl, rfl⟩ := EStateM.Result.ok.inj hreq
      obtain ⟨hrest, heach⟩ := ih (fun e he => hq e (List.mem_cons_of_mem _ he))
        (hr.retained hfirst.retains) hos
      refine ⟨hfirst.trans hrest, fun i e' o hi hoi => ?_⟩
      cases i with
      | zero =>
        obtain rfl : e = e' := by simpa using hi
        obtain rfl : o' = o := by simpa using hoi
        exact ⟨t, t₁, .refl hr.typed, ho⟩
      | succ i =>
        obtain ⟨u, u', hu, hop⟩ := heach i e' o (by simpa using hi) (by simpa using hoi)
        exact ⟨u, u', hfirst.trans hu, hop⟩

/-- A call changes nothing but the slots of the places that it is given to write. -/
theorem of_call {f : String} {args : List Expr} {g : Func} {ts : List Ty} {ty : Ty}
    (hf : Intrinsic.ofName? f = none)
    (hts : Typing.checkArgs m.funcs.resolve types args = .ok ts)
    (hres : m.funcs.resolve f ts = some g)
    (hty : Typing.checkExpr m.funcs.resolve types (.call f args) = .ok ty)
    (hq : ∀ e ∈ args, e.Quiet m.funcs types) (hs : Realizes False types env s) (ht : Touches B s t)
    (hB : ∀ i ∈ m.funcs.written g, ∀ e, args[i]? = some e → ∃ place slot, e = place.toExpr ∧
      place.ClearOf env B ∧ m.At limit depth env s place slot ∧ B' (.scalar slot))
    (hrun : execStmt (m.context limit depth) limit env (.expr (.call f args)) t = .ok r t') :
    r = (env, .next) ∧ Touches B' t t' := by
  have hr := hs.retained ht.retains
  simp only [execStmt, eval?, state_bind_eq_ok] at hrun
  obtain ⟨w, t₁, ⟨o, t₂, ho, hvalue⟩, hpure⟩ := hrun
  obtain ⟨rfl, rfl⟩ := EStateM.Result.ok.inj hpure
  obtain ⟨_, _, rfl⟩ := (safe_value? (G := t.guard) (.call f args) o).of_ok hvalue
  have hdiff : (differenceRule False m.funcs).Expr (.call f args) := by
    refine Rule.expr_call.mpr ⟨fun hname => ?_, fun e he => (hq e he).differences⟩
    simp [hf] at hname
  have hret := ((sound_operand? hm.conforms _ hr hty hdiff).of_ok ho).1
  refine ⟨rfl, hret, ?_⟩
  simp only [operand?, hf, state_bind_eq_ok] at ho
  obtain ⟨os, u, hos, w', t₂, hcall, hend⟩ := ho
  obtain ⟨_, rfl⟩ := EStateM.Result.ok.inj hend
  obtain ⟨hcalm, heach⟩ := of_operands (B := fun _ => False) hm hq hr hos
  have htouch : Touches B' t u := hcalm.mono fun _ h => h.elim
  obtain ⟨_, htyped, hplaced⟩ := (sound_operands (fun e _ => sound_operand? hm.conforms e) hr hts
    (fun h => h.elim) (fun e he => (hq e he).differences)).of_ok hos
  have hin : (t.sparing B').In u :=
    ⟨fun _ hslot => htouch.kept.slot_in hslot.1,
      fun _ hid => Nat.lt_of_lt_of_le hid.1 htouch.kept.tapes_le⟩
  have hsafe := safe_callNamed_of_resolve hm.conforms (hm.framed (t.sparing B') trivial) hin htyped hres
    fun i hi o ho => ?_
  · exact htouch.kept.trans (hsafe.of_ok hcall).1
  -- where the function writes, the operand is the slot of a place
  obtain ⟨hlt, -⟩ := List.getElem?_eq_some_iff.mp ho
  have hlt' : i < args.length := by rwa [hplaced.length_eq]
  obtain ⟨place, slot, hplace, hclear, hat, hslot⟩ := hB i hi args[i] (List.getElem?_eq_getElem hlt')
  obtain ⟨u₁, u₂, hu, hop⟩ := heach i args[i] o (List.getElem?_eq_getElem hlt') ho
  have hplaceq := hq args[i] (List.getElem_mem hlt')
  rw [hplace] at hplaceq hop
  obtain ⟨u₃, hfound⟩ := hat.slotOf hm hplaceq hs (ht.trans (hu.mono fun _ h => h.elim)) hclear
  obtain ⟨hsome, -⟩ := EStateM.Result.ok.inj ((operand?_toExpr hfound).symm.trans hop)
  obtain rfl : Operand.place slot (u₃.read slot) = o := by simpa using hsome
  exact fun hG => hG.2 hslot

end

/-! ### All saved arguments -/

/-- The slots of saved arguments. -/
def Slots (m : Machine K) (limit depth : Nat) (env : Env) (s : Store K) (vs : List Derive.Saved)
    (b : Binding) : Prop :=
  ∃ v ∈ vs, ∃ slot, b = .scalar slot ∧ m.At limit depth env s v.place slot

/-- The argument is saved. -/
def Secured (m : Machine K) (limit depth : Nat) (env : Env) (s t : Store K) (v : Derive.Saved) : Prop :=
  ∃ b slot, env.lookup v.temp = some b ∧ m.At limit depth env s v.place slot ∧
    b.Holds t (s.read slot)

section

variable {all vs : List Derive.Saved} {slot : Slot} {flow : Flow K}
  (hm : m.Tame limit depth) (hs : Realizes False types env s)
  (hq : ∀ v ∈ all, v.place.toExpr.Quiet m.funcs types)
  (hplace : ∀ v ∈ all, types.place? v.place = some v.ty)
  (htemps : Temporaries (all.map fun v => (v.temp, v.tempTy inLoop)) types env s)

include hq htemps

omit [Scalar K] in
theorem clearOf_temps (hv : v ∈ all) : v.place.ClearOf env (Temps env all) := by
  intro x hx b hb b' hb'
  obtain ⟨v', hv', htemp⟩ := hb'
  have hknown : Typing.Known types x := by
    have hquiet := hq v hv
    cases hplace : v.place with
    | var y => simp [hplace, Place.reads] at hx
    | index y i =>
      rw [hplace] at hx hquiet
      exact hquiet.of_index.known x hx
  exact htemps.apart _ (List.mem_map_of_mem hv') b' htemp x hknown b hb

theorem At.home_ne_temps (hv : v ∈ all) (hat : m.At limit depth env s v.place slot)
    (hb : Temps env all b) : b.home ≠ (Binding.scalar slot).home := by
  obtain ⟨v', hv', htemp⟩ := hb
  obtain ⟨b', hb', hhome⟩ := hat.home
  have hknown : Typing.Known types v.place.name := by
    apply (hq v hv).known
    cases v.place with
    | var x => exact List.mem_singleton.mpr rfl
    | index x i => exact List.mem_cons_self
  rw [hhome]
  exact htemps.apart _ (List.mem_map_of_mem hv') b htemp _ hknown b' hb'

omit [Scalar K] hq in
/-- Different arguments are saved in different variables. -/
theorem temps_ne (hsub : (v :: vs).Sublist all) (hb : env.lookup v.temp = some b) :
    ¬ Temps env vs b := by
  rintro ⟨v', hv', hb'⟩
  have hdistinct := htemps.distinct.sublist (hsub.map _)
  rw [List.map_cons, List.pairwise_cons] at hdistinct
  exact hdistinct.1 _ (List.mem_map_of_mem hv') (hb.trans hb'.symm)

include hm hs hplace

/-- Saving arguments one after the other. -/
theorem of_keeps {rest : List Stmt} (hsub : vs.Sublist all) (ht : Touches (Temps env all) s t)
    (hrun : execBody (m.context limit depth) limit env (vs.map (·.keep inLoop) ++ rest) t = .ok flow t') :
    ∃ t₁, Touches (Temps env vs) t t₁ ∧ (∀ v ∈ vs, m.Secured limit depth env s t₁ v) ∧
      execBody (m.context limit depth) limit env rest t₁ = .ok flow t' := by
  induction vs generalizing t with
  | nil => exact ⟨t, .refl ht.retains.typed, by simp, hrun⟩
  | cons v vs ih =>
    rw [List.map_cons, List.cons_append, execBody] at hrun
    obtain ⟨r₁, t₁, hkeep, hrest⟩ := state_bind_eq_ok.mp hrun
    have hv : v ∈ all := hsub.subset List.mem_cons_self
    obtain ⟨b, hb, hty⟩ := htemps.typed _ (List.mem_map_of_mem hv)
    obtain ⟨rfl, htouch, slot, hat, hholds⟩ := of_keep hm (hq v hv) hs ht
      (clearOf_temps hq htemps hv) (hplace v hv) hb (hty.retained ht.retains) hkeep
    have hread : t.read slot = s.read slot :=
      ht.kept.slots slot ⟨hat.slot_in (hq v hv) hs, fun hb => hat.home_ne_temps hq htemps hv hb rfl⟩
    rw [hread] at hholds
    have ht₁ : Touches (Temps env all) s t₁ := by
      apply ht.trans
      apply htouch.mono
      rintro b' rfl
      exact ⟨v, hv, hb⟩
    obtain ⟨t₂, htouch₂, hsecured, hend⟩ := ih ((List.sublist_cons_self v vs).trans hsub) ht₁ hrest
    refine ⟨t₂, ?_, ?_, hend⟩
    · apply Touches.trans (htouch.mono _) (htouch₂.mono _)
      · rintro b' rfl
        exact ⟨v, List.mem_cons_self, hb⟩
      · rintro b' ⟨v', hv', hb'⟩
        exact ⟨v', List.mem_cons_of_mem _ hv', hb'⟩
    · intro v' hv'
      rcases List.mem_cons.mp hv' with rfl | hv'
      · refine ⟨b, slot, hb, hat, hholds.touches htouch₂ ?_ (temps_ne htemps hsub hb)⟩
        exact (hty.retained ht₁.retains).inside
      · exact hsecured v' hv'

/-- Restoring arguments one after the other. Those that are not restored yet are stored apart from
what the index of the next one reads. -/
theorem of_restores (hsub : vs.Sublist all) (hself : ∀ v ∈ vs, Independent env v v)
    (horder : vs.Pairwise (Independent env))
    (ht : Touches (fun b => Temps env all b ∨ m.Slots limit depth env s vs b) s t)
    (hsecured : ∀ v ∈ vs, m.Secured limit depth env s t v)
    (hrun : execBody (m.context limit depth) limit env (vs.map (·.restore inLoop)) t = .ok flow t') :
    Touches (Temps env all) s t' := by
  induction vs generalizing t with
  | nil =>
    obtain ⟨_, rfl⟩ := EStateM.Result.ok.inj hrun
    apply ht.mono
    rintro b (hb | ⟨_, hv, _⟩)
    · exact hb
    · cases hv
  | cons v vs ih =>
    rw [List.map_cons, execBody] at hrun
    obtain ⟨r₁, t₁, hrestore, hrest⟩ := state_bind_eq_ok.mp hrun
    have hv : v ∈ all := hsub.subset List.mem_cons_self
    obtain ⟨hnext, horder⟩ := List.pairwise_cons.mp horder
    obtain ⟨b, slot, hb, hat, hholds⟩ := hsecured v List.mem_cons_self
    obtain ⟨b', hb', hty⟩ := htemps.typed _ (List.mem_map_of_mem hv)
    obtain rfl : b = b' := by simpa [hb] using hb'
    have hclear : v.place.ClearOf env
        fun b => Temps env all b ∨ m.Slots limit depth env s (v :: vs) b := by
      rintro x hx c hc c' (htemp | ⟨v', hv', slot', rfl, hat'⟩)
      · exact clearOf_temps hq htemps hv x hx c hc c' htemp
      · obtain ⟨d, hd, hhome⟩ := hat'.home
        rw [hhome]
        rcases List.mem_cons.mp hv' with rfl | hv'
        · exact hself v' List.mem_cons_self x hx c d hc hd
        · exact hnext v' hv' x hx c d hc hd
    obtain ⟨rfl, htouch, hread⟩ := of_restore hm (hq v hv) hs ht hclear (hplace v hv) hb
      (hty.retained ht.retains) hat hholds hrestore
    have ht₁ : Touches (fun b => Temps env all b ∨ m.Slots limit depth env s (v :: vs) b) s t₁ := by
      apply ht.trans
      apply htouch.mono
      rintro c (rfl | rfl)
      · exact .inl ⟨v, hv, hb⟩
      · exact .inr ⟨v, List.mem_cons_self, slot, rfl, hat⟩
    refine ih ((List.sublist_cons_self v vs).trans hsub)
      (fun v' hv' => hself v' (List.mem_cons_of_mem _ hv')) horder (ht₁.fewer ?_ ?_) ?_ hrest
    · rintro slot' hin (htemp | ⟨v', hv', slot'', heq, hat'⟩) hnot
      · exact absurd (.inl htemp) hnot
      · cases heq
        rcases List.mem_cons.mp hv' with rfl | hv'
        · rwa [hat'.unique hm (hq v' hv) hs hat]
        · exact absurd (.inr ⟨v', hv', slot', rfl, hat'⟩) hnot
    · rintro id (htemp | ⟨_, _, _, heq, _⟩)
      · exact .inl htemp
      · cases heq
    · intro v' hv'
      obtain ⟨c, slot', hc, hat', hholds'⟩ := hsecured v' (List.mem_cons_of_mem _ hv')
      have hv'all := hsub.subset (List.mem_cons_of_mem _ hv')
      obtain ⟨c', hc', hty'⟩ := htemps.typed _ (List.mem_map_of_mem hv'all)
      obtain rfl : c = c' := by simpa [hc] using hc'
      refine ⟨c, slot', hc, hat', hholds'.touches htouch (hty'.retained ht.retains).inside ?_⟩
      rintro (rfl | rfl)
      · exact temps_ne htemps hsub hb ⟨v', hv', hc⟩
      · exact hat.home_ne_temps hq htemps hv ⟨v', hv'all, hc⟩ rfl

/-- All storage but where the arguments are saved is after the restores as it was before the
saves. -/
theorem of_saved_call {f : String} {args : List Expr} {g : Func} {ts : List Ty} {ty : Ty}
    (hf : Intrinsic.ofName? f = none) (hts : Typing.checkArgs m.funcs.resolve types args = .ok ts)
    (hres : m.funcs.resolve f ts = some g)
    (hty : Typing.checkExpr m.funcs.resolve types (.call f args) = .ok ty)
    (hargs : ∀ e ∈ args, e.Quiet m.funcs types)
    (hsaved : ∀ i ∈ m.funcs.written g, ∀ e, args[i]? = some e → ∃ v ∈ all, e = v.place.toExpr)
    (hself : ∀ v ∈ all, Independent env v v) (horder : all.Pairwise (Independent env))
    (hrun : execBody (m.context limit depth) limit env
      (all.map (·.keep inLoop) ++ .expr (.call f args) :: all.map (·.restore inLoop)) s = .ok flow t') :
    Touches (Temps env all) s t' := by
  obtain ⟨t₁, htouch, hsecured, hrun⟩ :=
    of_keeps hm hs hq hplace htemps (.refl all) (.refl hs.typed) hrun
  rw [execBody] at hrun
  obtain ⟨r₁, t₂, hcall, hrun⟩ := state_bind_eq_ok.mp hrun
  have hwritten : ∀ i ∈ m.funcs.written g, ∀ e, args[i]? = some e → ∃ place slot, e = place.toExpr ∧
      place.ClearOf env (Temps env all) ∧ m.At limit depth env s place slot ∧
        m.Slots limit depth env s all (.scalar slot) := by
    intro i hi e he
    obtain ⟨v, hv, rfl⟩ := hsaved i hi e he
    obtain ⟨_, slot, _, hat, _⟩ := hsecured v hv
    exact ⟨v.place, slot, rfl, clearOf_temps hq htemps hv, hat, v, hv, slot, rfl, hat⟩
  obtain ⟨rfl, htouch₂⟩ := of_call hm hf hts hres hty hargs hs htouch hwritten hcall
  refine of_restores hm hs hq hplace htemps (.refl all) hself horder ?_ ?_ hrun
  · exact (htouch.mono fun _ h => .inl h).trans (htouch₂.mono fun _ h => .inr h)
  · intro v hv
    obtain ⟨b, slot, hb, hat, hholds⟩ := hsecured v hv
    obtain ⟨b', hb', hbty⟩ := htemps.typed _ (List.mem_map_of_mem hv)
    obtain rfl : b = b' := by simpa [hb] using hb'
    refine ⟨b, slot, hb, hat, hholds.touches htouch₂ (hbty.retained htouch.retains).inside ?_⟩
    rintro ⟨v', hv', slot', rfl, hat'⟩
    exact hat'.home_ne_temps hq htemps hv' ⟨v, hv, hb⟩ rfl

end

end Machine

/-! ### The sweeps of a call -/

namespace Derive

variable {α β : Type}

theorem toExpr_of_place? {e : Expr} {place : Place} (h : e.place? = some place) :
    place.toExpr = e := by
  cases e <;> simp [Expr.place?] at h <;> subst h <;> rfl

namespace Sweep

variable {storage storage' : Storage} {st st' : Progress}

/-- Saving a place declares one variable. -/
theorem of_save {inLoop : Bool} {place : Place} {ty : Ty} {stmts : Stmt × Stmt}
    (h : save inLoop place ty storage st = .ok (stmts, storage') st') (arg : Nat) :
    ∃ v : Saved, v.arg = arg ∧ v.place = place ∧ v.ty = ty ∧
      stmts = (v.keep inLoop, v.restore inLoop) ∧
        storage'.hoisted = storage.hoisted ++ [.let_ v.temp (v.tempTy inLoop) none] := by
  cases inLoop with
  | true =>
    obtain ⟨heq, _⟩ := EStateM.Result.ok.inj h
    obtain ⟨rfl, rfl⟩ := Prod.mk.inj heq
    exact ⟨⟨arg, place, ty, _⟩, rfl, rfl, rfl, rfl, rfl⟩
  | false =>
    obtain ⟨heq, _⟩ := EStateM.Result.ok.inj h
    obtain ⟨rfl, rfl⟩ := Prod.mk.inj heq
    exact ⟨⟨arg, place, ty, _⟩, rfl, rfl, rfl, rfl, rfl⟩

/-- The sweeps save the arguments of the list and restore them, in variables that were declared for
it. -/
structure Saves (inLoop : Bool) (vs : List Saved) (sweeps : Sweeps) (storage storage' : Storage) :
    Prop where
  primal : sweeps.primal = vs.map (·.keep inLoop)
  adjoint : sweeps.adjoint = vs.map (·.restore inLoop)
  hoisted : storage'.hoisted = storage.hoisted ++ vs.map fun v => .let_ v.temp (v.tempTy inLoop) none

theorem Saves.append {inLoop : Bool} {vs vs' : List Saved} {own rest : Sweeps}
    {storage₁ : Storage} (h : Saves inLoop vs own storage storage₁)
    (h' : Saves inLoop vs' rest storage₁ storage') :
    Saves inLoop (vs ++ vs') ⟨own.primal ++ rest.primal, own.adjoint ++ rest.adjoint⟩ storage
      storage' where
  primal := by simp [h.primal, h'.primal]
  adjoint := by simp [h.adjoint, h'.adjoint]
  hoisted := by simp [h.hoisted, h'.hoisted]

variable {c : Sweep} {at_ : Nesting} {f : String} {sweeps : Sweeps}

/-- An argument for a reference is saved where it is. -/
theorem of_saveArg {p : Param} {ty : Ty} {e : Expr} (hp : p.ty = .ref ty)
    (h : c.saveArg at_ f p e storage st = .ok (sweeps, storage') st') (arg : Nat) :
    ∃ v : Saved, Saves at_.inLoop [v] sweeps storage storage' ∧ v.arg = arg ∧
      v.place.toExpr = e ∧ c.env.place? v.place = some v.ty := by
  cases hplace : e.place? with
  | none =>
    simp only [saveArg, hp, hplace] at h
    cases h
  | some place =>
    cases hty : c.env.place? place with
    | none =>
      simp only [saveArg, hp, hplace, hty] at h
      cases h
    | some ty' =>
      simp only [saveArg, hp, hplace, hty] at h
      obtain ⟨⟨kept, restored⟩, storage₁, st₁, hsave, hend⟩ := stateT_bind_eq_ok.mp h
      obtain ⟨v, harg, hvplace, hvty, hstmts, hhoisted⟩ := of_save hsave arg
      obtain ⟨rfl, rfl⟩ := Prod.mk.inj hstmts
      obtain ⟨heq, _⟩ := EStateM.Result.ok.inj hend
      obtain ⟨rfl, rfl⟩ := Prod.mk.inj heq
      refine ⟨v, ⟨rfl, rfl, hhoisted⟩, harg, ?_, ?_⟩
      · rw [hvplace]
        exact toExpr_of_place? hplace
      · rw [hvplace, hvty]
        exact hty

/-- The list has the arguments that are written, from position `i` on and in their order. -/
structure Lists (c : Sweep) (written : List Nat) (i : Nat) (es : List Expr) (count : Nat) (vs : List Saved) :
    Prop where
  found : ∀ v ∈ vs, ∃ k, v.arg = i + k ∧ v.arg ∈ written ∧ es[k]? = some v.place.toExpr ∧
    c.env.place? v.place = some v.ty
  ordered : vs.Pairwise (·.arg < ·.arg)
  covers : ∀ k < count, ∀ e, es[k]? = some e → i + k ∈ written → ∃ v ∈ vs, v.arg = i + k

theorem saveArgs_cons (c : Sweep) (at_ : Nesting) (f : String) (written : List Nat) (i : Nat)
    (p : Param) (ps : List Param) (e : Expr) (es : List Expr) :
    c.saveArgs at_ f written i (p :: ps) (e :: es) = (do
      let own ← (if i ∈ written then c.saveArg at_ f p e else pure ⟨[], []⟩)
      let rest ← c.saveArgs at_ f written (i + 1) ps es
      return ⟨own.primal ++ rest.primal, own.adjoint ++ rest.adjoint⟩) := by
  rw [saveArgs]
  by_cases hi : i ∈ written
  · simp only [List.contains_iff_mem, hi, if_true]
  · simp only [List.contains_iff_mem, hi, if_false]

theorem of_saveArgs {written : List Nat} {ps : List Param} : ∀ {i : Nat} {es : List Expr}
    {sweeps : Sweeps} {storage : Storage} {st : Progress},
    (∀ k p, ps[k]? = some p → i + k ∈ written → ∃ ty, p.ty = .ref ty) →
    c.saveArgs at_ f written i ps es storage st = .ok (sweeps, storage') st' →
    ∃ vs, Saves at_.inLoop vs sweeps storage storage' ∧ Lists c written i es ps.length vs := by
  induction ps with
  | nil =>
    intro i es sweeps storage st _ h
    obtain ⟨heq, _⟩ := EStateM.Result.ok.inj h
    obtain ⟨rfl, rfl⟩ := Prod.mk.inj heq
    exact ⟨[], ⟨rfl, rfl, by simp⟩, by simp, .nil, by simp⟩
  | cons p ps ih =>
    intro i es sweeps storage st hrefs h
    cases es with
    | nil =>
      obtain ⟨heq, _⟩ := EStateM.Result.ok.inj h
      obtain ⟨rfl, rfl⟩ := Prod.mk.inj heq
      exact ⟨[], ⟨rfl, rfl, by simp⟩, by simp, .nil, by simp⟩
    | cons e es =>
      rw [saveArgs_cons] at h
      obtain ⟨own, storage₁, st₁, hown, h⟩ := stateT_bind_eq_ok.mp h
      obtain ⟨rest, storage₂, st₂, hrest, h⟩ := stateT_bind_eq_ok.mp h
      obtain ⟨heq, rfl⟩ := EStateM.Result.ok.inj h
      obtain ⟨rfl, rfl⟩ := Prod.mk.inj heq
      have hnext : ∀ k, i + 1 + k = i + (k + 1) := fun k => by omega
      obtain ⟨vs, hsaves, hlists⟩ := ih (fun k p hp hk => hrefs (k + 1) p (by simpa using hp)
        (by rwa [← hnext])) hrest
      have hlater : ∀ v ∈ vs, ∃ k, v.arg = i + (k + 1) ∧ v.arg ∈ written ∧
          (e :: es)[k + 1]? = some v.place.toExpr ∧ c.env.place? v.place = some v.ty := by
        intro v hv
        obtain ⟨k, harg, hwritten, hk, hty⟩ := hlists.found v hv
        exact ⟨k, by rw [harg, hnext], hwritten, by simpa using hk, hty⟩
      have hcovers : ∀ k < ps.length, ∀ e', (e :: es)[k + 1]? = some e' → i + (k + 1) ∈ written →
          ∃ v ∈ vs, v.arg = i + (k + 1) := by
        intro k hk e' he' hwritten
        rw [← hnext] at hwritten ⊢
        exact hlists.covers k hk e' (by simpa using he') hwritten
      by_cases hi : i ∈ written
      · obtain ⟨ty, hty⟩ := hrefs 0 p rfl (by simpa using hi)
        rw [if_pos hi] at hown
        obtain ⟨v, hsaved, harg, hplace, hvty⟩ := of_saveArg hty hown i
        refine ⟨v :: vs, hsaved.append hsaves, ⟨?_, ?_, ?_⟩⟩
        · intro v' hv'
          rcases List.mem_cons.mp hv' with rfl | hv'
          · exact ⟨0, by simpa using harg, harg ▸ hi, by simp [hplace], hvty⟩
          · obtain ⟨k, hk⟩ := hlater v' hv'
            exact ⟨k + 1, hk⟩
        · refine List.pairwise_cons.mpr ⟨fun v' hv' => ?_, hlists.ordered⟩
          obtain ⟨k, hk, _⟩ := hlater v' hv'
          omega
        · intro k hk e' he' hwritten
          cases k with
          | zero => exact ⟨v, List.mem_cons_self, by simpa using harg⟩
          | succ k =>
            obtain ⟨v', hv', harg'⟩ := hcovers k (by simpa using hk) e' he' hwritten
            exact ⟨v', List.mem_cons_of_mem _ hv', harg'⟩
      · rw [if_neg hi] at hown
        obtain ⟨heq, _⟩ := EStateM.Result.ok.inj hown
        obtain ⟨rfl, rfl⟩ := Prod.mk.inj heq
        refine ⟨vs, ⟨?_, ?_, hsaves.hoisted⟩, ⟨?_, hlists.ordered, ?_⟩⟩
        · simpa using hsaves.primal
        · simpa using hsaves.adjoint
        · intro v' hv'
          obtain ⟨k, hk⟩ := hlater v' hv'
          exact ⟨k + 1, hk⟩
        · intro k hk e' he' hwritten
          cases k with
          | zero => exact absurd (by simpa using hwritten) hi
          | succ k => exact hcovers k (by simpa using hk) e' he' hwritten

theorem of_callee {args : List Expr} {g : Func}
    (h : c.callee f args storage st = .ok (g, storage') st') :
    (c.setting.host st).callee? c.env f args = some g ∧ storage' = storage ∧ st' = st := by
  cases hg : (c.setting.host st).callee? c.env f args with
  | none =>
    have hfail : c.callee f args storage st =
        .error (.unsupported c.function (.noOverload f)) st := by
      simp only [callee, calleeOf, currentHost, liftM, monadLift, MonadLift.monadLift, StateT.lift,
        bind, EStateM.bind, state_get, pure, EStateM.pure, hg]
      rfl
    simp [hfail] at h
  | some g' =>
    have hok : c.callee f args storage st = .ok (g', storage) st := by
      simp only [callee, calleeOf, currentHost, liftM, monadLift, MonadLift.monadLift, StateT.lift,
        bind, EStateM.bind, state_get, pure, EStateM.pure, hg]
    rw [hok] at h
    obtain ⟨heq, rfl⟩ := EStateM.Result.ok.inj h
    obtain ⟨rfl, rfl⟩ := Prod.mk.inj heq
    exact ⟨rfl, rfl, rfl⟩

/-- The sweeps of a call: what it writes is saved before, and restored before its pullback. -/
theorem of_callStmt {args : List Expr} (hf : Intrinsic.ofName? f = none)
    (h : c.callStmt at_ f args storage st = .ok (sweeps, storage') st') :
    ∃ g saved storage₁ st₁ pulled, (c.setting.host st).callee? c.env f args = some g ∧
      c.saveArgs at_ f ((c.setting.host st).writtenParams g) 0 g.params args storage st =
        .ok (saved, storage₁) st₁ ∧
      (if (c.setting.host st₁).hasEffects g then c.effectPullback g args else pure []) storage₁ st₁ =
        .ok (pulled, storage') st' ∧
      sweeps = ⟨saved.primal ++ [.expr (.call f args)], saved.adjoint ++ pulled⟩ := by
  simp only [callStmt, hf] at h
  obtain ⟨g, storage₁, st₁, hcallee, hrest⟩ := stateT_bind_eq_ok.mp h
  obtain ⟨hg, rfl, rfl⟩ := of_callee hcallee
  obtain ⟨host, storage₂, st₂, hhost, hsaves⟩ := stateT_bind_eq_ok.mp hrest
  obtain ⟨heq, rfl⟩ := EStateM.Result.ok.inj hhost
  obtain ⟨rfl, rfl⟩ := Prod.mk.inj heq
  obtain ⟨saved, storage₃, st₃, hsaved, hpullback⟩ := stateT_bind_eq_ok.mp hsaves
  obtain ⟨host, storage₄, st₄, hhost', hpulls⟩ := stateT_bind_eq_ok.mp hpullback
  obtain ⟨heq', rfl⟩ := EStateM.Result.ok.inj hhost'
  obtain ⟨rfl, rfl⟩ := Prod.mk.inj heq'
  split at hpulls
  · rename_i heffects
    obtain ⟨pulled, storage₅, st₅, hpulled, hend⟩ := stateT_bind_eq_ok.mp hpulls
    obtain ⟨heq, rfl⟩ := EStateM.Result.ok.inj hend
    obtain ⟨rfl, rfl⟩ := Prod.mk.inj heq
    exact ⟨g, saved, _, _, pulled, hg, hsaved, by rwa [if_pos heffects], rfl⟩
  · rename_i heffects
    obtain ⟨heq, rfl⟩ := EStateM.Result.ok.inj hpulls
    obtain ⟨rfl, rfl⟩ := Prod.mk.inj heq
    exact ⟨g, saved, _, _, [], hg, hsaved, by rw [if_neg heffects]; rfl, rfl⟩

end Sweep

variable {K : Type} {c : Sweep} {at_ : Nesting} {f : String} {args : List Expr} {sweeps : Sweeps}
  {storage storage' : Storage} {st st' : Progress}

/-- No index reads what is restored together with its element or later: what the index of a written
argument reads is stored apart from the arguments that are written at its position and after it. -/
def RestoresInOrder (written : List Nat) (args : List Expr) (env : Env) : Prop :=
  ∀ i ∈ written, ∀ j ∈ written, i ≤ j → ∀ p p' : Place, args[i]? = some p.toExpr →
    args[j]? = some p'.toExpr → ∀ x ∈ p.reads, ∀ b b', env.lookup x = some b →
      env.lookup p'.name = some b' → b'.home ≠ b.home

/-- The sweeps of a call whose value is not used restore what the call writes through references
before its pullback: all storage but where arguments are saved is as it was before the saves. -/
theorem storage_restored_before_pullback [Scalar K] {m : Machine K}
    (hcheck : Typing.check m.funcs = []) (hlengths : m.funcs.ignoresLengths = true)
    (hnatives : m.funcs.floatNatives = true) (hdifferences : m.funcs.floatDifferences = true)
    (hpass : m.funcs.PassesWrites) (hprogram : c.setting.program = m.funcs)
    (hapart : st.Apart m.funcs) (hf : Intrinsic.ofName? f = none) {ty : Ty}
    (hty : Typing.checkExpr m.funcs.resolve c.env (.call f args) = .ok ty)
    (hargs : ∀ e ∈ args, e.Quiet m.funcs c.env) {g : Func}
    (hg : (c.setting.host st).callee? c.env f args = some g)
    (hrefs : ∀ i ∈ m.funcs.written g, ∀ p, g.params[i]? = some p → ∃ t, p.ty = .ref t)
    (h : (c.callStmt at_ f args).run storage st = .ok (sweeps, storage') st') :
    ∃ (saved : Sweeps) (storage₁ : Storage) (st₁ : Progress) (pulled : List Stmt)
      (decls : List (String × Ty)),
      c.saveArgs at_ f (m.funcs.written g) 0 g.params args storage st = .ok (saved, storage₁) st₁ ∧
      storage₁.hoisted = storage.hoisted ++ decls.map (fun d => .let_ d.1 d.2 none) ∧
      (if (c.setting.host st₁).hasEffects g then c.effectPullback g args else pure []) storage₁ st₁ =
        .ok (pulled, storage') st' ∧
      sweeps = ⟨saved.primal ++ [.expr (.call f args)], saved.adjoint ++ pulled⟩ ∧
      ∀ (env : Env) (s s' : Store K) (limit depth : Nat) (flow : Eval.Flow K),
        Realizes False c.env env s → Temporaries decls c.env env s →
        RestoresInOrder (m.funcs.written g) args env →
        Eval.execBody (m.context limit depth) limit env
          (saved.primal ++ .expr (.call f args) :: saved.adjoint) s = .ok flow s' →
        ∀ slot, slot.In s → (∀ d ∈ decls, env.lookup d.1 ≠ some (.scalar slot)) →
          s'.read slot = s.read slot := by
  obtain ⟨ts, g', hts, hres, _⟩ := Typing.of_checkExpr_call hty hf
  have hsame : ∀ f ∈ m.funcs, (c.setting.host st).resolve f.name = m.funcs.resolve f.name :=
    fun f hf => Host.resolve_of_mem (h := c.setting.host st) hprogram hapart hf
  obtain ⟨hname, hcalls⟩ := Rule.expr_call.mp (Typing.calls_of_checkExpr _ hty)
  obtain rfl : g = g' := by
    obtain ⟨f', hf', rfl⟩ := hname hf
    rw [Host.callee?, types?_eq hsame c.env args hcalls, hsame f' hf',
      Typing.types?_of_checkArgs hts] at hg
    exact Option.some.inj (hg.symm.trans hres)
  have hwritten : (c.setting.host st).writtenParams g = m.funcs.written g :=
    Host.writtenParams_eq hsame hcheck rfl hprogram (mem_of_resolve hres).1
  obtain ⟨g', saved, storage₁, st₁, pulled, hg', hsaved, hpulled, rfl⟩ := Sweep.of_callStmt hf h
  obtain rfl : g = g' := by simpa [hg] using hg'
  rw [hwritten] at hsaved
  obtain ⟨vs, hsaves, hlists⟩ := Sweep.of_saveArgs
    (fun k p hp hk => hrefs k (by simpa using hk) p hp) hsaved
  refine ⟨saved, storage₁, st₁, pulled, vs.map fun v => (v.temp, v.tempTy at_.inLoop), hsaved,
    by simp [hsaves.hoisted], hpulled, rfl, ?_⟩
  intro env s s' limit depth flow hs htemps horder hrun slot hslot hfree
  have hregular := Machine.regular_of_checked hcheck hlengths hnatives hdifferences
  have hm : m.Tame limit depth := {
    conforms := Machine.conforms_context hregular limit depth
    framed := fun G hG => Machine.framed_callAt (fun f hf p hp => (hregular.params hf p hp).2)
      (m.funcs.closed_written hcheck hpass) limit depth hG }
  have hfound : ∀ v ∈ vs, v.arg ∈ m.funcs.written g ∧ args[v.arg]? = some v.place.toExpr ∧
      c.env.place? v.place = some v.ty := by
    intro v hv
    obtain ⟨k, harg, hmem, hk, hvty⟩ := hlists.found v hv
    rw [Nat.zero_add] at harg
    exact ⟨hmem, harg ▸ hk, hvty⟩
  have hquiet : ∀ v ∈ vs, v.place.toExpr.Quiet m.funcs c.env := fun v hv =>
    hargs _ (List.mem_of_getElem? (hfound v hv).2.1)
  have hcovered : ∀ i ∈ m.funcs.written g, ∀ e, args[i]? = some e → ∃ v ∈ vs, e = v.place.toExpr := by
    intro i hi e he
    have hlt : i < g.params.length := by
      simpa using (List.mem_filter.mp hi).1
    obtain ⟨v, hv, harg⟩ := hlists.covers i hlt e he (by simpa using hi)
    rw [Nat.zero_add] at harg
    exact ⟨v, hv, Option.some.inj (he.symm.trans (harg ▸ (hfound v hv).2.1))⟩
  have hindependent : ∀ v ∈ vs, ∀ v' ∈ vs, v.arg ≤ v'.arg → Independent env v v' := fun v hv v' hv' hle =>
    horder v.arg (hfound v hv).1 v'.arg (hfound v' hv').1 hle v.place v'.place (hfound v hv).2.1
      (hfound v' hv').2.1
  rw [hsaves.primal, hsaves.adjoint] at hrun
  have htouch := Machine.of_saved_call hm hs hquiet (fun v hv => (hfound v hv).2.2) htemps hf hts hres hty
    hargs hcovered (fun v hv => hindependent v hv v hv (Nat.le_refl _))
    (hlists.ordered.imp_of_mem fun hv hv' hlt => hindependent _ hv _ hv' (Nat.le_of_lt hlt)) hrun
  refine htouch.kept.slots slot ⟨hslot, ?_⟩
  rintro ⟨v, hv, hb⟩
  exact hfree _ (List.mem_map_of_mem hv) hb

/-- The function `fn step(n: &i64, r: &f64)` changes both of its parameters. -/
def step : Func where
  name := "step"
  params := [⟨"n", .ref .int⟩, ⟨"r", .ref .float⟩]
  ret := .void
  body := some [.update (.var "n") .add (.int 1), .update (.var "r") .mul (.var "r")]
  span := ⟨0, 0⟩

/-- The function `fn square(k: &i64, n: &i64)` does as well. -/
def square : Func where
  name := "square"
  params := [⟨"k", .ref .int⟩, ⟨"n", .ref .int⟩]
  ret := .void
  body := some [.update (.var "k") .mul (.var "k"), .update (.var "n") .add (.int 1)]
  span := ⟨0, 0⟩

def stepping : Machine Float := ⟨[step, square], .standard⟩

/-- Sweeps of a function with two arrays and an integer, in which calls have no derivatives. -/
def steppingSweep : Sweep where
  setting := ⟨stepping.funcs, .empty, .standard, none⟩
  plan _ _ _ := return .inactive
  function := "f"
  env := [("x", .arrayOf .float), ("a", .arrayOf .int), ("n", .int)]
  reads := []
  alwaysSave := []
  seed := none
  lanes := none
  error := none

def steppingStorage : Storage := ⟨⟨["x", "a", "n"]⟩, [], []⟩

/-- The variables, and two more where arguments are saved. -/
def steppingEnv : Env :=
  [("_t0", .scalar (.cell 1)), ("_t1", .scalar (.cell 2)), ("x", .array 0), ("a", .array 1),
    ("n", .scalar (.cell 0))]

/-- Storage for these variables; the last value is of the second saved argument. -/
def steppingStore (saved : Value Float) : Store Float :=
  ⟨#[.int 0, .int 0, saved],
    #[⟨.float, #[.float 3.0, .float 5.0]⟩, ⟨.int, #[.int 3, .int 5]⟩], #[]⟩

theorem known_stepping {x : String} (h : Typing.Known steppingSweep.env x) :
    x = "x" ∨ x = "a" ∨ x = "n" := by
  by_contra hne
  obtain ⟨hx, ha, hn⟩ : x ≠ "x" ∧ x ≠ "a" ∧ x ≠ "n" := by simpa using hne
  simp [Typing.Known, steppingSweep, lookup_cons_of_ne hx, lookup_cons_of_ne ha,
    lookup_cons_of_ne hn] at h

theorem realizes_stepping (saved : Value Float) :
    Realizes False steppingSweep.env steppingEnv (steppingStore saved) := by
  refine ⟨⟨?_, ?_⟩, ?_, fun h => h.elim⟩
  · simp [steppingStore, Buffer.Typed, Value.ty, Ty.value]
  · simp [steppingStore]
  · intro x ty hx
    rcases known_stepping (Typing.known_of_lookup hx) with rfl | rfl | rfl <;> cases hx
    · exact ⟨.array 0, rfl, .float, none, rfl, rfl⟩
    · exact ⟨.array 1, rfl, .int, none, rfl, rfl⟩
    · exact ⟨.scalar (.cell 0), rfl, rfl⟩

/-- The arguments `n` and `x[n]`. -/
def counterFirst : List Expr := [.var "n", .index "x" (.var "n")]

theorem temporaries_stepping :
    Temporaries [("_t0", .int), ("_t1", .float)] steppingSweep.env steppingEnv
      (steppingStore (.float 0.0)) where
  typed d hd := by
    rcases List.mem_cons.mp hd with rfl | hd
    · exact ⟨.scalar (.cell 1), rfl, rfl⟩
    · rcases List.mem_cons.mp hd with rfl | hd
      · exact ⟨.scalar (.cell 2), rfl, rfl⟩
      · cases hd
  apart d hd b hb x hx b' hb' := by
    have hcell : b = .scalar (.cell 1) ∨ b = .scalar (.cell 2) := by
      simp only [List.mem_cons, List.not_mem_nil, or_false] at hd
      rcases hd with rfl | rfl <;> cases hb
      · exact .inl rfl
      · exact .inr rfl
    rcases known_stepping hx with rfl | rfl | rfl <;> cases hb' <;>
      rcases hcell with rfl | rfl <;> simp [Binding.home]
  distinct := by
    simp [steppingEnv, List.lookup_cons]

theorem quiet_counterFirst : ∀ e ∈ counterFirst, e.Quiet stepping.funcs steppingSweep.env := by
  have hparts : ∀ e ∈ counterFirst, ∀ part ∈ e.parts, part = .var "n" ∨ part = .index "x" (.var "n") := by
    simp [counterFirst, Expr.parts]
  intro e he
  refine ⟨?_, ?_, ?_⟩
  · simp only [counterFirst, List.mem_cons, List.not_mem_nil, or_false] at he
    rcases he with rfl | rfl
    · exact ⟨.int, by decide +kernel⟩
    · exact ⟨.float, by decide +kernel⟩
  · intro part hpart
    rcases hparts e he part hpart with rfl | rfl <;> trivial
  · intro part hpart
    rcases hparts e he part hpart with rfl | rfl <;> trivial

theorem restoresInOrder_counterFirst :
    RestoresInOrder (stepping.funcs.written step) counterFirst steppingEnv := by
  intro i _ j _ hle p p' hp hp' x hx b b' hb hb'
  match i, j with
  | 0, _ =>
    cases p <;> cases hp
    cases hx
  | 1, 0 => cases hle
  | 1, 1 =>
    cases p <;> cases hp
    cases p' <;> cases hp'
    obtain rfl : x = "n" := by simpa [Place.reads, Expr.reads, Expr.parts, Analysis.readBy] using hx
    cases hb
    cases hb'
    simp [Binding.home]
  | _ + 2, _ => cases hp
  | 1, _ + 2 => cases hp'

theorem storage_restored_before_pullback_counterFirst :
    Typing.check stepping.funcs = [] ∧ stepping.funcs.PassesWrites ∧
    ∃ (sweeps : Sweeps) (storage' : Storage) (st' : Progress) (saved : Sweeps)
      (flow : Eval.Flow Float) (s' : Store Float),
      (steppingSweep.callStmt ⟨false, false⟩ "step" counterFirst).run steppingStorage
        (.start stepping.funcs) = .ok (sweeps, storage') st' ∧
      sweeps = ⟨saved.primal ++ [.expr (.call "step" counterFirst)], saved.adjoint⟩ ∧
      Eval.execBody (stepping.context 10 10) 10 steppingEnv
        (saved.primal ++ .expr (.call "step" counterFirst) :: saved.adjoint)
        (steppingStore (.float 0.0)) = .ok flow s' ∧
      s'.read (.cell 0) = .int 0 ∧ s'.read (.element 0 0) = .float 3.0 := by
  have hcheck : Typing.check stepping.funcs = [] := by decide +kernel
  have hpass : stepping.funcs.PassesWrites := by decide +kernel
  refine ⟨hcheck, hpass, ?_⟩
  have hty : Typing.checkExpr stepping.funcs.resolve steppingSweep.env (.call "step" counterFirst) =
      .ok .void := by decide +kernel
  have hrefs : ∀ i ∈ stepping.funcs.written step, ∀ p, step.params[i]? = some p →
      ∃ t, p.ty = .ref t := by
    intro i _ p hp
    have hmem := List.mem_of_getElem? hp
    simp only [step, List.mem_cons, List.not_mem_nil, or_false] at hmem
    rcases hmem with rfl | rfl
    · exact ⟨.int, rfl⟩
    · exact ⟨.float, rfl⟩
  have hrun : ∃ sweeps storage' st', (steppingSweep.callStmt ⟨false, false⟩ "step" counterFirst).run
      steppingStorage (.start stepping.funcs) = .ok (sweeps, storage') st' := ⟨_, _, _, rfl⟩
  obtain ⟨sweeps, storage', st', h⟩ := hrun
  obtain ⟨saved, storage₁, st₁, pulled, decls, hsave, hhoisted, hpulled, hsweeps, hrestored⟩ :=
    storage_restored_before_pullback (m := stepping) (g := step) hcheck (by decide +kernel)
      (by decide +kernel) (by decide +kernel) hpass rfl (by simp [Progress.Apart, Progress.start])
      (by decide) hty quiet_counterFirst rfl hrefs h
  obtain ⟨hpair, rfl⟩ := EStateM.Result.ok.inj hsave
  obtain ⟨hsaved, rfl⟩ := Prod.mk.inj hpair
  obtain ⟨hpulls, _⟩ := EStateM.Result.ok.inj hpulled
  obtain ⟨rfl, _⟩ := Prod.mk.inj hpulls
  obtain rfl : decls = [("_t0", .int), ("_t1", .float)] := by
    have hinjective : Function.Injective fun d : String × Ty => Stmt.let_ d.1 d.2 none := by
      rintro ⟨x, t⟩ ⟨y, u⟩ heq
      cases heq
      rfl
    exact List.map_injective_iff.mpr hinjective hhoisted.symm
  obtain ⟨flow, s', hexec⟩ : ∃ flow s', Eval.execBody (stepping.context 10 10) 10 steppingEnv
      (saved.primal ++ .expr (.call "step" counterFirst) :: saved.adjoint)
      (steppingStore (.float 0.0)) = .ok flow s' := by
    subst hsaved
    exact ⟨_, _, rfl⟩
  have hkept := hrestored steppingEnv _ s' 10 10 flow (realizes_stepping _) temporaries_stepping
    restoresInOrder_counterFirst hexec
  refine ⟨sweeps, storage', st', saved, flow, s', h, ?_, hexec, ?_, ?_⟩
  · rw [hsweeps, List.append_nil]
  · exact hkept (.cell 0) (by simp [Slot.In, steppingStore]) (by decide)
  · exact hkept (.element 0 0) (by simp [Slot.In, steppingStore]) (by decide)

/-- With the element before its index, the element at another index is restored. -/
theorem element_changed_of_counter_last :
    Typing.check stepping.funcs = [] ∧ stepping.funcs.PassesWrites ∧
    ∃ sweeps storage' st' flow s',
      (steppingSweep.callStmt ⟨false, false⟩ "square" [.index "a" (.var "n"), .var "n"]).run
        steppingStorage (.start stepping.funcs) = .ok (sweeps, storage') st' ∧
      Eval.execBody (stepping.context 10 10) 10 steppingEnv (sweeps.primal ++ sweeps.adjoint)
        (steppingStore (.int 0)) = .ok flow s' ∧
      (steppingStore (.int 0)).read (.element 1 0) = .int 3 ∧ s'.read (.element 1 0) = .int 9 :=
  ⟨by decide +kernel, by decide +kernel, _, _, _, _, _, rfl, rfl, rfl, rfl⟩

end Derive

end Fluxion
