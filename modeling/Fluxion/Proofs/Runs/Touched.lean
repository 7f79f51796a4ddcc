import Fluxion.Derive.Build
import Fluxion.Proofs.Analysis.Effects
import Fluxion.Proofs.Canonical.Arranged
import Fluxion.Proofs.Paired.Calls

/-!
Code that changes only part of the storage. A place is the same slot before and after such code, if
what its index reads is stored apart from that part.
-/

namespace Fluxion

variable {K α β : Type}

/-! ### Storage that two stores have in common -/

/-- Locations that hold the same in both stores. -/
def Pairing.common (s t : Store K) : Pairing where
  cell i j := i = j ∧ ∃ v, s.cells[i]? = some v ∧ t.cells[i]? = some v
  array i j := i = j ∧ ∃ b, s.arrays[i]? = some b ∧ t.arrays[i]? = some b
  tape i j := i = j ∧ ∃ b, s.tapes[i]? = some b ∧ t.tapes[i]? = some b

theorem Matches.common (s t : Store K) : Matches (.common s t) s t := by
  have htwin : ∀ {α : Type} (xs ys : Array α),
      Twinned (fun i j => i = j ∧ ∃ a, xs[i]? = some a ∧ ys[i]? = some a) xs ys := by
    intro α xs ys
    refine ⟨?_, ?_⟩
    · rintro i _ ⟨rfl, h⟩
      exact h
    · rintro i _ i' _ ⟨rfl, _⟩ ⟨rfl, _⟩
      exact Iff.rfl
  exact ⟨htwin _ _, htwin _ _, htwin _ _⟩

/-- What the binding stands for holds the same in both stores. -/
def Binding.Same (s t : Store K) (b : Binding) : Prop := (Pairing.common s t).binding b b

theorem Binding.Same.trans {s t u : Store K} {b : Binding} (h : b.Same s t) (h' : b.Same s u) :
    b.Same t u := by
  have hopt : ∀ {α : Type} {x y z : Option α}, (∃ a, x = some a ∧ y = some a) →
      (∃ a, x = some a ∧ z = some a) → ∃ a, y = some a ∧ z = some a := by
    rintro α x y z ⟨a, rfl, rfl⟩ ⟨c, hc, rfl⟩
    exact ⟨a, rfl, hc.symm⟩
  cases b with
  | scalar slot =>
    cases slot with
    | cell i => exact ⟨rfl, hopt h.2 h'.2⟩
    | element a i => exact ⟨⟨rfl, hopt h.1.2 h'.1.2⟩, rfl⟩
  | array id => exact ⟨rfl, hopt h.2 h'.2⟩
  | tape id => exact ⟨rfl, hopt h.2 h'.2⟩

/-- The variables and arrays that an expression reads. -/
def Expr.reads (e : Expr) : List String := e.parts.filterMap Analysis.readBy

theorem Expr.uses_reads (e : Expr) : (Rule.uses (· ∈ e.reads)).Expr e := by
  intro part hpart
  cases part with
  | var x => exact List.mem_filterMap.mpr ⟨_, hpart, rfl⟩
  | index x i => exact List.mem_filterMap.mpr ⟨_, hpart, rfl⟩
  | _ => trivial

/-- What an expression reads holds the same in both stores. -/
def Expr.Alike (env : Env) (s t : Store K) (e : Expr) : Prop :=
  ∀ x ∈ e.reads, ∀ b, env.lookup x = some b → b.Same s t

/-- An index is the same wherever what it reads is the same. -/
theorem Machine.evalInt_of_alike [Scalar K] (m : Machine K) (limit depth : Nat) {env : Env}
    {s t s' : Store K} {e : Expr} {n : Int64} (h : e.Alike env s t)
    (hrun : Eval.evalInt (m.context limit depth) env e s = .ok n s') :
    ∃ t', Eval.evalInt (m.context limit depth) env e t = .ok n t' := by
  have hpaired : PairedEnv Eq (· ∈ e.reads) [] (.common s t) env env := by
    refine ⟨fun _ _ => rfl, fun x hx => ?_⟩
    change Option.Rel _ (env.lookup x) (env.lookup x)
    cases hb : env.lookup x with
    | none => exact .none
    | some b => exact .some (h x hx b hb)
  have hagree : Agree Eq (.common s t) (Eval.evalInt (m.context limit depth) env e) s
      (Eval.evalInt (m.context limit depth) env (e.rename [])) t fun _ => Eq :=
    Eval.agree_evalInt (Machine.steady_callAt (fun _ => rfl) m limit depth) hpaired (.common s t)
      e.uses_reads
  rw [Expr.rename_of_apply_self (fun _ => rfl) e, Agree, hrun] at hagree
  cases ht : Eval.evalInt (m.context limit depth) env e t with
  | ok n' t' =>
    rw [ht] at hagree
    obtain ⟨_, _, _, rfl⟩ := hagree
    exact ⟨t', rfl⟩
  | error e t' =>
    rw [ht] at hagree
    exact hagree.elim

/-! ### Storage that is left out -/

/-- The storage that a binding is part of. -/
def Binding.home : Binding → Binding
  | .scalar (.element a _) => .array a
  | b => b

/-- The guard of all that a store holds but for what the bindings of `B` stand for. -/
def Store.sparing (s : Store K) (B : Binding → Prop) : Guard :=
  ⟨fun slot => slot.In s ∧ ¬ B (.scalar slot), fun id => id < s.tapes.size ∧ ¬ B (.tape id), True,
    False, True, fun _ => False⟩

/-- The second store has the types of the first, and holds the same but for what `B` names. -/
structure Touches (B : Binding → Prop) (s t : Store K) : Prop where
  retains : Retains s t
  kept : Kept (s.sparing B) s t

theorem Kept.sparing {s t : Store K} (h : Kept s.guard s t) (B : Binding → Prop) :
    Kept (s.sparing B) s t :=
  h.covers ⟨fun _ h => h.1, fun _ h => h.1, fun _ => trivial, fun h => h⟩

namespace Touches

variable {s t u : Store K} {B B' : Binding → Prop}

theorem refl (hs : s.Typed) : Touches B s s := ⟨.refl hs, .refl _ s⟩

theorem mono (h : Touches B s t) (hB : ∀ b, B b → B' b) : Touches B' s t where
  retains := h.retains
  kept := h.kept.covers ⟨fun _ hs => ⟨hs.1, fun hb => hs.2 (hB _ hb)⟩,
    fun _ hs => ⟨hs.1, fun hb => hs.2 (hB _ hb)⟩, fun _ => trivial, fun hg => hg⟩

theorem trans (h : Touches B s t) (h' : Touches B t u) : Touches B s u where
  retains := h.retains.trans h'.retains
  kept := by
    refine h.kept.trans (h'.kept.covers ⟨fun _ hs => ?_, fun _ hs => ?_, fun _ => trivial, fun hg => hg⟩)
    · exact ⟨h.kept.slot_in hs.1, hs.2⟩
    · exact ⟨Nat.lt_of_lt_of_le hs.1 h.kept.tapes_le, hs.2⟩

/-- Storage that holds again what it held need not be left out. -/
theorem fewer (h : Touches B s t)
    (hslots : ∀ slot, slot.In s → B (.scalar slot) → ¬ B' (.scalar slot) → t.read slot = s.read slot)
    (htapes : ∀ id, B (.tape id) → B' (.tape id)) : Touches B' s t := by
  refine ⟨h.retains, h.kept.cells_le, h.kept.arrays_le, h.kept.tapes_le, h.kept.tapes_eq,
    h.kept.shapes, fun slot hs => ?_, fun id hid => ?_⟩
  · by_cases hB : B (.scalar slot)
    · exact hslots slot hs.1 hB hs.2
    · exact h.kept.slots slot ⟨hs.1, hB⟩
  · exact h.kept.tapes id ⟨hid.1, fun hB => hid.2 (htapes id hB)⟩

/-- What is stored elsewhere than the bindings that are left out is the same. -/
theorem same (h : Touches B s t) {b : Binding} (hb : b.In s)
    (hB : ∀ b', B b' → b'.home ≠ b.home) : b.Same s t := by
  replace h := h.kept
  have harray : ∀ id, id < s.arrays.size → (∀ b', B b' → b'.home ≠ .array id) →
      ∃ d, s.arrays[id]? = some d ∧ t.arrays[id]? = some d := by
    intro id hid hout
    have hid' : id < t.arrays.size := Nat.lt_of_lt_of_le hid h.arrays_le
    have hs : s.arrays[id]? = some (s.array id) := by simp [Store.array, hid]
    have ht : t.arrays[id]? = some (t.array id) := by simp [Store.array, hid']
    obtain ⟨helem, hsize⟩ := h.shapes id hid
    have hdata : (t.array id).data = (s.array id).data := by
      refine Array.ext hsize fun i hi hi' => ?_
      have hread := h.slots (.element id i) ⟨hid, fun hB' => hout _ hB' rfl⟩
      simpa [Store.read, hs, ht, hi, hi'] using hread
    refine ⟨s.array id, hs, ht.trans ?_⟩
    cases hb : s.array id
    cases hb' : t.array id
    simp_all
  cases b with
  | scalar slot =>
    cases slot with
    | cell i =>
      have hi : i < s.cells.size := hb
      have hi' : i < t.cells.size := Nat.lt_of_lt_of_le hi h.cells_le
      have hread := h.slots (.cell i) ⟨hb, fun hB' => hB _ hB' rfl⟩
      simp only [Store.read, hi, hi', getElem?_pos, Option.getD_some] at hread
      exact ⟨rfl, s.cells[i], by simp [hi], by simp [hi', hread]⟩
    | element a i => exact ⟨⟨rfl, harray a hb hB⟩, rfl⟩
  | array id => exact ⟨rfl, harray id hb hB⟩
  | tape id =>
    have hid : id < s.tapes.size := hb
    have hid' : id < t.tapes.size := Nat.lt_of_lt_of_le hid h.tapes_le
    have htape := h.tapes id ⟨hb, fun hB' => hB _ hB' rfl⟩
    simp only [Store.tape, hid, hid', getElem?_pos, Option.getD_some] at htape
    exact ⟨rfl, s.tapes[id], by simp [hid], by simp [hid', htape]⟩

end Touches

/-! ### Places -/

theorem Binding.HasTy.inside {t : Store K} {ty : Ty} {b : Binding} (h : b.HasTy t ty) : b.In t := by
  cases b with
  | scalar slot => exact Slot.in_of_slotTy? h
  | array id =>
    obtain ⟨_, _, _, hid⟩ := h
    exact (Array.getElem?_eq_some_iff.mp (Store.array_of_arrayTy? hid).1).1
  | tape id =>
    obtain ⟨_, _, hid⟩ := h
    exact (Array.getElem?_eq_some_iff.mp (Store.tape_of_tapeTy? hid).1).1

theorem Safe.of_ok {G : Guard} {m : Exec K α} {s s' : Store K} {Q : α → Store K → Prop} {a : α}
    (h : Safe G m s Q) (hrun : m s = .ok a s') : Kept G s s' ∧ Q a s' := by
  unfold Safe at h
  rwa [hrun] at h

namespace Eval

variable [Scalar K] {ctx : Context K} {env : Env} {t t' : Store K} {slot : Slot} {w : Value K}
  {x : String} {i : Expr} {id : Nat} {n : Int64}

omit [Scalar K] in
theorem elementSlot_eq : elementSlot x id n t =
    if n < 0 ∨ (t.array id).data.size ≤ n.toInt.toNat then
      .error (.fault (.indexOutOfBounds x n (t.array id).data.size)) t
    else .ok (.element id n.toInt.toNat) t := by
  by_cases h : n < 0 ∨ (t.array id).data.size ≤ n.toInt.toNat <;>
    simp only [elementSlot, bind, EStateM.bind, state_get, h, if_true, if_false] <;> rfl

theorem slotOf_index (hx : env.lookup x = some (.array id)) (hn : evalInt ctx env i t = .ok n t')
    (hin : ¬ (n < 0 ∨ (t'.array id).data.size ≤ n.toInt.toNat)) :
    slotOf ctx env (.index x i) t = .ok (.element id n.toInt.toNat) t' := by
  rw [slotOf, arrayOf_eq hx, pure_bind]
  exact state_bind_eq_ok.mpr ⟨n, t', hn, by rw [elementSlot_eq, if_neg hin]⟩

theorem of_slotOf_index (h : slotOf ctx env (.index x i) t = .ok slot t') :
    ∃ id n, env.lookup x = some (.array id) ∧ evalInt ctx env i t = .ok n t' ∧
      ¬ (n < 0 ∨ (t'.array id).data.size ≤ n.toInt.toNat) ∧ slot = .element id n.toInt.toNat := by
  simp only [slotOf, state_bind_eq_ok] at h
  obtain ⟨id, t₁, hid, n, t₂, hn, hslot⟩ := h
  obtain ⟨_, hx, rfl⟩ := (safe_arrayOf (G := t.guard) x).of_ok hid
  rw [elementSlot_eq] at hslot
  split at hslot
  · cases hslot
  · rename_i hin
    obtain ⟨rfl, rfl⟩ := EStateM.Result.ok.inj hslot
    exact ⟨id, n, hx, hn, hin, rfl⟩

theorem slotOf_var {y : String} (h : env.lookup y = some (.scalar slot)) :
    slotOf ctx env (.var y) t = .ok slot t := by
  simp only [slotOf, lookup_eq h, pure_bind]
  rfl

theorem of_slotOf_var {y : String} (h : slotOf ctx env (.var y) t = .ok slot t') :
    env.lookup y = some (.scalar slot) ∧ t' = t := by
  simp only [slotOf, state_bind_eq_ok] at h
  obtain ⟨b, t₁, hb, hslot⟩ := h
  obtain ⟨_, hy, rfl⟩ := (safe_lookup (G := t.guard) y).of_ok hb
  cases b with
  | scalar slot' =>
    obtain ⟨rfl, rfl⟩ := EStateM.Result.ok.inj hslot
    exact ⟨hy, rfl⟩
  | array id => cases hslot
  | tape id => cases hslot

theorem operand?_var (h : env.lookup x = some (.scalar slot)) :
    operand? ctx env (.var x) t = .ok (some (.place slot (t.read slot))) t := by
  simp [operand?, lookup, Exec.require, h, Binding.operand, Exec.read, bind, EStateM.bind, pure,
    EStateM.pure, state_get]

theorem eval_var (h : env.lookup x = some (.scalar slot)) :
    eval ctx env (.var x) t = .ok (t.read slot) t := by
  simp [eval, bind, EStateM.bind, operand?_var h, value, value?, pure, EStateM.pure, Exec.require]

theorem eval_popFrom {v : Value K} (h : env.lookup x = some (.tape id))
    (hv : (t.tape id).data.back? = some v) :
    eval ctx env (Derive.popFrom x) t = .ok v (t.drop id) := by
  have hname : Intrinsic.ofName? "pop" = some .pop := by decide
  simp [eval, Derive.popFrom, operand?, hname, tapeOf, lookup, Exec.require, h, bind, EStateM.bind,
    pure, EStateM.pure, Eval.popFrom, hv, state_get, state_modify, value, value?]

/-- As an operand, a place gives the slot and what the slot holds. -/
theorem operand?_toExpr {place : Place} (h : slotOf ctx env place t = .ok slot t') :
    operand? ctx env place.toExpr t = .ok (some (.place slot (t'.read slot))) t' := by
  cases place with
  | var y =>
    obtain ⟨hy, rfl⟩ := of_slotOf_var h
    exact operand?_var hy
  | index x i =>
    obtain ⟨id, n, hx, hn, hin, rfl⟩ := of_slotOf_index h
    simp only [evalInt, state_bind_eq_ok] at hn
    obtain ⟨o, t₁, ho, hint⟩ := hn
    rw [Place.toExpr, operand?, arrayOf_eq hx, pure_bind]
    refine state_bind_eq_ok.mpr ⟨o, t₁, ho, state_bind_eq_ok.mpr ⟨n, t', hint, ?_⟩⟩
    exact state_bind_eq_ok.mpr ⟨_, t', by rw [elementSlot_eq, if_neg hin], rfl⟩

/-- The value of a place is what its slot holds. -/
theorem of_eval_toExpr {place : Place} (h : eval ctx env place.toExpr t = .ok w t') :
    ∃ slot, slotOf ctx env place t = .ok slot t' ∧ w = t'.read slot := by
  simp only [eval, state_bind_eq_ok] at h
  obtain ⟨o, t₁, ho, hw⟩ := h
  cases place with
  | var y =>
    simp only [Place.toExpr, operand?, state_bind_eq_ok] at ho
    obtain ⟨b, t₂, hb, o', t₃, ho', hpure⟩ := ho
    obtain ⟨_, hy, rfl⟩ := (safe_lookup (G := t.guard) y).of_ok hb
    obtain ⟨rfl, rfl⟩ := EStateM.Result.ok.inj hpure
    cases b with
    | scalar slot =>
      obtain ⟨rfl, rfl⟩ := EStateM.Result.ok.inj ho'
      obtain ⟨rfl, rfl⟩ := EStateM.Result.ok.inj hw
      exact ⟨slot, slotOf_var hy, rfl⟩
    | array id =>
      obtain ⟨rfl, rfl⟩ := EStateM.Result.ok.inj ho'
      cases hw
    | tape id =>
      obtain ⟨rfl, rfl⟩ := EStateM.Result.ok.inj ho'
      cases hw
  | index x i =>
    simp only [Place.toExpr, operand?, state_bind_eq_ok] at ho
    obtain ⟨id, t₂, hid, o', t₃, ho', n, t₄, hn, slot, t₅, hslot, v, t₆, hv, hpure⟩ := ho
    obtain ⟨_, hx, rfl⟩ := (safe_arrayOf (G := t.guard) x).of_ok hid
    obtain ⟨rfl, rfl⟩ := EStateM.Result.ok.inj hv
    obtain ⟨rfl, rfl⟩ := EStateM.Result.ok.inj hpure
    obtain ⟨rfl, rfl⟩ := EStateM.Result.ok.inj hw
    refine ⟨slot, ?_, rfl⟩
    rw [slotOf, arrayOf_eq hx, pure_bind]
    exact state_bind_eq_ok.mpr ⟨n, t₄, state_bind_eq_ok.mpr ⟨o', t₃, ho', hn⟩, hslot⟩

end Eval

/-- The variables and arrays that the index of a place reads. -/
def Place.reads : Place → List String
  | .var _ => []
  | .index _ i => i.reads

/-- What the index of a place reads is stored apart from the bindings of `B`. -/
def Place.ClearOf (env : Env) (B : Binding → Prop) (place : Place) : Prop :=
  ∀ x ∈ place.reads, ∀ b, env.lookup x = some b → ∀ b', B b' → b'.home ≠ b.home

theorem Place.clearOf_none (env : Env) (place : Place) : place.ClearOf env fun _ => False :=
  fun _ _ _ _ _ h => h.elim

/-- Checked expressions read variables that have a type. -/
theorem Expr.Quiet.known {p : Program} {types : TyEnv} {e : Expr} (hq : e.Quiet p types) :
    ∀ x ∈ e.reads, Typing.Known types x := by
  intro x hx
  obtain ⟨ty, hty⟩ := hq.checked
  obtain ⟨part, hpart, hread⟩ := List.mem_filterMap.mp hx
  have huses := Typing.uses_of_checkExpr hty part hpart
  cases part <;> cases hread
  · exact huses
  · exact huses

theorem Touches.alike {p : Program} {types : TyEnv} {env : Env} {s t : Store K} {B : Binding → Prop}
    (ht : Touches B s t) (hs : Realizes False types env s) {x : String} {i : Expr}
    (hq : i.Quiet p types) (hclear : (Place.index x i).ClearOf env B) : i.Alike env s t := by
  intro y hy b hb
  obtain ⟨ty, hty⟩ := Option.isSome_iff_exists.mp (hq.known y hy)
  obtain ⟨b', hb', hdesc⟩ := hs.describes y ty hty
  obtain rfl : b' = b := by simpa [hb] using hb'.symm
  exact ht.same hdesc.inside (hclear y hy b' hb)

namespace Machine

open Eval

variable [Scalar K]

/-- The place is the slot, in this store and wherever its index reads the same. -/
def At (m : Machine K) (limit depth : Nat) (env : Env) (s : Store K) : Place → Slot → Prop
  | .var x, slot => env.lookup x = some (.scalar slot)
  | .index x i, slot => ∃ id n, env.lookup x = some (.array id) ∧ id < s.arrays.size ∧
      slot = .element id n.toInt.toNat ∧ ¬ (n < 0 ∨ (s.array id).data.size ≤ n.toInt.toNat) ∧
      ∀ t, i.Alike env s t → ∃ t', evalInt (m.context limit depth) env i t = .ok n t'

variable {m : Machine K} {limit depth : Nat} {types : TyEnv} {env : Env} {s t t' : Store K}
  {B : Binding → Prop} {place : Place} {slot : Slot}

theorem At.home (h : m.At limit depth env s place slot) :
    ∃ b, env.lookup place.name = some b ∧ (Binding.scalar slot).home = b.home := by
  cases place with
  | var x => exact ⟨_, h, rfl⟩
  | index x i =>
    obtain ⟨id, n, hx, _, rfl, _⟩ := h
    exact ⟨_, hx, rfl⟩

/-- Calls follow types, and keep what is under guard where the analysis finds nothing written. -/
structure Tame (m : Machine K) (limit depth : Nat) : Prop where
  conforms : Conforms False (m.context limit depth)
  framed : ∀ G : Guard, G.pops →
    Framed (fun f i => i ∈ m.funcs.written f) G (m.context limit depth)

section

variable (hm : m.Tame limit depth) (hq : place.toExpr.Quiet m.funcs types)

include hm

theorem evalInt_calm {i : Expr} {n : Int64} (hi : i.Quiet m.funcs types)
    (hr : Realizes False types env t)
    (h : evalInt (m.context limit depth) env i t = .ok n t') : Kept t.guard t t' := by
  have hcalm := calm hm.conforms (hm.framed t.guard trivial) i hi
    ⟨⟨fun _ h => h, fun _ h => h⟩, hr⟩
  have hsafe : Safe t.guard (evalInt (m.context limit depth) env i) t fun _ _ => True :=
    hcalm.bind fun o u _ _ => (safe_int i o).imp fun _ _ _ _ => trivial
  exact (hsafe.of_ok h).1

include hq

/-- Finding the slot of a place changes nothing. -/
theorem slotOf_calm (hr : Realizes False types env t)
    (h : slotOf (m.context limit depth) env place t = .ok slot t') :
    Kept t.guard t t' ∧ Retains t t' ∧ ∃ ty, types.place? place = some ty ∧
      t'.slotTy? slot = some ty.value := by
  have hop := operand?_toExpr h
  obtain ⟨ty, hty⟩ := hq.checked
  have hcalm := calm hm.conforms (hm.framed t.guard trivial) place.toExpr hq
    ⟨⟨fun _ h => h, fun _ h => h⟩, hr⟩
  obtain ⟨hret, hgiven, _⟩ := (sound_operand? hm.conforms _ hr hty hq.differences).of_ok hop
  refine ⟨(hcalm.of_ok hop).1, hret, ?_⟩
  refine ⟨ty, ?_, hgiven.2⟩
  cases place with
  | var x =>
    obtain ⟨declared, hx, rfl⟩ := Typing.of_checkExpr_var hty
    simp [TyEnv.place?, TyEnv.value?, hx]
  | index x i =>
    obtain ⟨_, len, hx⟩ := Typing.of_checkExpr_index hty
    simp [TyEnv.place?, TyEnv.element?, hx, Ty.element?]

/-- Where its index reads the same, a place is the slot that it was. -/
theorem At.slotOf (hs : Realizes False types env s) (hat : m.At limit depth env s place slot)
    (ht : Touches B s t) (hclear : place.ClearOf env B) :
    ∃ t', slotOf (m.context limit depth) env place t = .ok slot t' := by
  cases place with
  | var x => exact ⟨t, slotOf_var hat⟩
  | index x i =>
    obtain ⟨id, n, hx, hid, rfl, hin, heval⟩ := hat
    obtain ⟨t', ht'⟩ := heval t (ht.alike hs hq.of_index hclear)
    have hcalm := evalInt_calm hm hq.of_index (hs.retained ht.retains) ht'
    refine ⟨t', slotOf_index hx ht' ?_⟩
    rwa [(hcalm.shapes id (Nat.lt_of_lt_of_le hid ht.kept.arrays_le)).2, (ht.kept.shapes id hid).2]

theorem at_of_slotOf (hs : Realizes False types env s) (ht : Touches B s t)
    (hclear : place.ClearOf env B)
    (h : slotOf (m.context limit depth) env place t = .ok slot t') :
    m.At limit depth env s place slot := by
  cases place with
  | var x => exact (of_slotOf_var h).1
  | index x i =>
    obtain ⟨id, n, hx, hn, hin, rfl⟩ := of_slotOf_index h
    obtain ⟨ty, hty⟩ := hq.checked
    obtain ⟨_, len, htypes⟩ := Typing.of_checkExpr_index hty
    obtain ⟨id', hid', harray⟩ := hs.array htypes
    obtain rfl : id' = id := by simpa [hx] using hid'.symm
    have hid : id' < s.arrays.size :=
      (Array.getElem?_eq_some_iff.mp (Store.array_of_arrayTy? harray).1).1
    have hcalm := evalInt_calm hm hq.of_index (hs.retained ht.retains) hn
    have halike := ht.alike hs hq.of_index hclear
    rw [(hcalm.shapes id' (Nat.lt_of_lt_of_le hid ht.kept.arrays_le)).2,
      (ht.kept.shapes id' hid).2] at hin
    refine ⟨id', n, hx, hid, rfl, hin, fun u hu => ?_⟩
    exact m.evalInt_of_alike limit depth (fun y hy b hb => (halike y hy b hb).trans (hu y hy b hb)) hn

omit hm in
theorem At.slot_in (hs : Realizes False types env s) (h : m.At limit depth env s place slot) :
    slot.In s := by
  cases place with
  | var x =>
    obtain ⟨ty, hty⟩ := hq.checked
    obtain ⟨declared, hx, rfl⟩ := Typing.of_checkExpr_var hty
    obtain ⟨b, hb, hdesc⟩ := hs.describes x _ hx
    obtain rfl : b = .scalar slot := by simpa [At] using hb.symm.trans h
    exact hdesc.inside
  | index x i =>
    obtain ⟨id, n, _, hid, rfl, _⟩ := h
    exact hid

theorem At.unique {other : Slot} (hs : Realizes False types env s)
    (h : m.At limit depth env s place slot) (h' : m.At limit depth env s place other) :
    slot = other := by
  have hsame : Touches (fun _ => False) s s := .refl hs.typed
  obtain ⟨s₁, hs₁⟩ := h.slotOf hm hq hs hsame (place.clearOf_none env)
  obtain ⟨s₂, hs₂⟩ := h'.slotOf hm hq hs hsame (place.clearOf_none env)
  exact (EStateM.Result.ok.inj (hs₁.symm.trans hs₂)).1

theorem At.ty_read {ty : Ty} (hs : Realizes False types env s)
    (h : m.At limit depth env s place slot) (hplace : types.place? place = some ty) :
    (s.read slot).ty = ty.value := by
  have hsame : Touches (fun _ => False) s s := .refl hs.typed
  obtain ⟨s', hs'⟩ := h.slotOf hm hq hs hsame (place.clearOf_none env)
  obtain ⟨hcalm, _, ty', hty', hslot⟩ := slotOf_calm hm hq hs hs'
  obtain rfl : ty' = ty := by simpa [hplace] using hty'.symm
  rw [← hcalm.slots slot (h.slot_in hq hs)]
  exact Store.ty_read hslot

end

end Machine

end Fluxion
