import Mathlib.Data.List.Forall2
import Fluxion.Proofs.Runs.Kept
import Fluxion.Proofs.Typing.Lengths
import Fluxion.Typing.Infer

/-!
Types of storage. A slot has the type of the value in it, an array or tape that of its elements. A
run is sound when all storage keeps its type and what the run gives has the type expected of it.
-/

namespace Fluxion

variable {K α β : Type}

theorem forall_mem_modify {P : α → Prop} {xs : Array α} {i : Nat} {f : α → α}
    (h : ∀ x ∈ xs, P x) (hf : ∀ x, xs[i]? = some x → P (f x)) : ∀ x ∈ xs.modify i f, P x := by
  intro x hx
  obtain ⟨j, hj⟩ := Array.mem_iff_getElem?.mp hx
  rw [Array.getElem?_modify] at hj
  split at hj
  · rename_i hij
    subst hij
    obtain ⟨y, hy, rfl⟩ := Option.map_eq_some_iff.mp hj
    exact hf y hy
  · exact h x (Array.mem_of_getElem? hj)

theorem mem_of_mem_take {xs : Array α} {n : Nat} {x : α} (h : x ∈ xs.take n) : x ∈ xs := by
  obtain ⟨i, hi⟩ := Array.mem_iff_getElem?.mp h
  rw [Array.take_eq_extract, Array.getElem?_extract] at hi
  split at hi
  · exact Array.mem_of_getElem? hi
  · cases hi

theorem mem_of_mem_pop {xs : Array α} {x : α} (h : x ∈ xs.pop) : x ∈ xs := by
  rw [Array.mem_def, Array.toList_pop] at h
  exact Array.mem_def.mpr (List.dropLast_subset _ h)

/-- The failure is one that types are meant to rule out. -/
def RuntimeError.isIllTyped : RuntimeError → Bool
  | .type _ | .unbound _ | .unknownFunction _ | .noOverload _ _ | .argumentKind _ _ _
  | .arity _ _ _ | .missingNative _ => true
  | .indexOutOfBounds _ _ _ | .emptyTape _ | .divisionByZero | .missingReturn _
  | .stackOverflow _ => false

/-- The run stopped in a way that types are meant to rule out. -/
def Stop.isIllTyped : Stop → Bool
  | .fault e => e.isIllTyped
  | .nativeArity _ => true
  | .outOfRounds => false

/-! ### Values -/

theorem Value.isScalar_ty (v : Value K) : v.ty.isScalar = true := by cases v <;> rfl

theorem Value.value_ty (v : Value K) : v.ty.value = v.ty := by cases v <;> rfl

theorem Ty.eq_of_value {t a : Ty} (h : t.value = a) : t = a ∨ t = .ref a := by
  cases t with
  | ref t => exact .inr (congrArg _ h)
  | _ => exact .inl h

theorem Ty.value_of_cost? {t a : Ty} {c : Nat} (ha : a.isScalar = true) (h : t.cost? a = some c) :
    t.value = a ∨ (t = .float ∧ a = .int) := by
  have hexact : (t.value.acceptsExactly a = true) ∨ (t = .float ∧ a = .int) := by
    rcases Ty.isScalar_iff.mp ha with rfl | rfl | rfl <;> cases t <;>
      simp_all [Ty.cost?, Ty.value]
  exact hexact.imp_left (Ty.acceptsExactly_scalar ha).mp

/-- Only types of tapes accept a tape, and only void ones nothing. -/
theorem Ty.value_of_cost?_other {t a : Ty} {c : Nat} (ha : a = .void ∨ ∃ elem, a = .tape elem)
    (h : t.cost? a = some c) : t.value = a := by
  have hexact : t.value.acceptsExactly a = true := by
    rcases ha with rfl | ⟨elem, rfl⟩ <;> cases t <;> simp_all [Ty.cost?, Ty.value]
  rcases ha with rfl | ⟨elem, rfl⟩ <;> cases hvalue : t.value <;>
    simp_all [Ty.acceptsExactly]

/-- A type that takes a scalar is of such scalars, or of floats in place of integers. -/
theorem Ty.value_of_takes {t a b : Ty} (hb : b.isScalar = true) (ha : a.value = b)
    (h : t.takes a = true) : t.value = b ∨ (t = .float ∧ b = .int) := by
  simp only [takes, Bool.or_eq_true, beq_iff_eq] at h
  rcases h with rfl | h
  · exact .inl ha
  obtain ⟨c, hc⟩ := Option.isSome_iff_exists.mp h
  rcases Ty.eq_of_value ha with rfl | rfl
  · exact Ty.value_of_cost? hb hc
  · rw [Ty.cost?_ref hb] at hc
    exact Ty.value_of_cost? hb hc

section

variable [Scalar K]

theorem Value.ty_coerce {t : Ty} {v : Value K}
    (h : t.value = v.ty ∨ (t.value = .float ∧ v.ty = .int)) : (v.coerce t).ty = t.value := by
  unfold Value.coerce
  rcases h with h | ⟨h, hv⟩
  · cases v <;> simp [h, Value.ty]
  · cases v <;> simp_all [Value.ty]

theorem Value.ty_coerce_of_takes {t a : Ty} {v : Value K} (hv : v.ty = a.value)
    (h : t.takes a = true) : (v.coerce t).ty = t.value := by
  apply Value.ty_coerce
  rcases Ty.value_of_takes v.isScalar_ty hv.symm h with ht | ⟨rfl, hint⟩
  · exact .inl ht
  · exact .inr ⟨rfl, hint⟩

end

/-! ### Storage -/

namespace Store

/-- The type of what a slot holds. -/
def slotTy? (s : Store K) : Slot → Option Ty
  | .cell i => s.cells[i]?.map Value.ty
  | .element a i => (s.arrays[a]?.bind fun b => b.data[i]?).map Value.ty

/-- The type of an array's elements. -/
def arrayTy? (s : Store K) (id : Nat) : Option Ty := s.arrays[id]?.map Buffer.elem

/-- The type of a tape's entries. -/
def tapeTy? (s : Store K) (id : Nat) : Option Ty := s.tapes[id]?.map Buffer.elem

end Store

theorem Slot.in_of_slotTy? {s : Store K} {slot : Slot} {t : Ty} (h : s.slotTy? slot = some t) :
    slot.In s := by
  cases slot with
  | cell i =>
    obtain ⟨v, hv, _⟩ := Option.map_eq_some_iff.mp h
    exact (Array.getElem?_eq_some_iff.mp hv).1
  | element a i =>
    obtain ⟨v, hv, _⟩ := Option.map_eq_some_iff.mp h
    obtain ⟨b, hb, _⟩ := Option.bind_eq_some_iff.mp hv
    exact (Array.getElem?_eq_some_iff.mp hb).1

/-- All values are of the element type. -/
def Buffer.Typed (b : Buffer K) : Prop := ∀ v ∈ b.data, v.ty = b.elem.value

/-- Arrays and tapes hold values of their element types. -/
structure Store.Typed (s : Store K) : Prop where
  arrays : ∀ b ∈ s.arrays, b.Typed
  tapes : ∀ b ∈ s.tapes, b.Typed

/-- All storage of the first store is in the second, with the same types. -/
structure Retains (s s' : Store K) : Prop where
  typed : s'.Typed
  slots : ∀ {slot t}, s.slotTy? slot = some t → s'.slotTy? slot = some t
  arrays : ∀ {id t}, s.arrayTy? id = some t → s'.arrayTy? id = some t
  tapes : ∀ {id t}, s.tapeTy? id = some t → s'.tapeTy? id = some t

namespace Store

variable {s : Store K}

theorem isScalar_of_slotTy? {slot : Slot} {t : Ty} (h : s.slotTy? slot = some t) :
    t.isScalar = true := by
  cases slot <;>
    · simp only [slotTy?, Option.map_eq_some_iff] at h
      obtain ⟨v, _, rfl⟩ := h
      exact v.isScalar_ty

theorem ty_read {slot : Slot} {t : Ty} (h : s.slotTy? slot = some t) : (s.read slot).ty = t := by
  cases slot <;>
    · simp only [slotTy?, Option.map_eq_some_iff] at h
      obtain ⟨v, hv, rfl⟩ := h
      simp [read, hv]

theorem array_of_arrayTy? {id : Nat} {t : Ty} (h : s.arrayTy? id = some t) :
    s.arrays[id]? = some (s.array id) ∧ (s.array id).elem = t := by
  simp only [arrayTy?, Option.map_eq_some_iff] at h
  obtain ⟨b, hb, rfl⟩ := h
  simp [array, hb]

theorem tape_of_tapeTy? {id : Nat} {t : Ty} (h : s.tapeTy? id = some t) :
    s.tapes[id]? = some (s.tape id) ∧ (s.tape id).elem = t := by
  simp only [tapeTy?, Option.map_eq_some_iff] at h
  obtain ⟨b, hb, rfl⟩ := h
  simp [tape, hb]

/-- An element of an array has the array's element type. -/
theorem slotTy?_element (hs : s.Typed) {id i : Nat} {t : Ty} (h : s.arrayTy? id = some t)
    (hi : i < (s.array id).data.size) : s.slotTy? (.element id i) = some t.value := by
  obtain ⟨hb, rfl⟩ := array_of_arrayTy? h
  have hv := hs.arrays _ (Array.mem_of_getElem? hb) _ (Array.getElem_mem hi)
  simp [slotTy?, hb, hi, hv]

end Store

theorem elem_modify {xs : Array (Buffer K)} {i j : Nat} {f : Buffer K → Buffer K}
    (hf : ∀ b, (f b).elem = b.elem) :
    (xs.modify i f)[j]?.map Buffer.elem = xs[j]?.map Buffer.elem := by
  rw [Array.getElem?_modify]
  split
  · cases xs[j]? <;> simp [hf]
  · rfl

namespace Retains

variable {s s' s'' : Store K}

theorem refl (hs : s.Typed) : Retains s s := ⟨hs, id, id, id⟩

theorem trans (h : Retains s s') (h' : Retains s' s'') : Retains s s'' :=
  ⟨h'.typed, fun hs => h'.slots (h.slots hs), fun hs => h'.arrays (h.arrays hs),
    fun hs => h'.tapes (h.tapes hs)⟩

theorem newCell (hs : s.Typed) (v : Value K) : Retains s { s with cells := s.cells.push v } where
  typed := ⟨hs.arrays, hs.tapes⟩
  slots {slot t} h := by
    cases slot with
    | cell i =>
      have hi : i ≠ s.cells.size := by
        rintro rfl
        simp [Store.slotTy?] at h
      simpa [Store.slotTy?, Array.getElem?_push, hi] using h
    | element a i => exact h
  arrays h := h
  tapes h := h

theorem newArray (hs : s.Typed) {b : Buffer K} (hb : b.Typed) :
    Retains s { s with arrays := s.arrays.push b } where
  typed := by
    refine ⟨fun b' hb' => ?_, hs.tapes⟩
    rcases Array.mem_push.mp hb' with hold | rfl
    · exact hs.arrays b' hold
    · exact hb
  slots {slot t} h := by
    cases slot with
    | cell i => exact h
    | element a i =>
      have ha : a ≠ s.arrays.size := by
        rintro rfl
        simp [Store.slotTy?] at h
      simpa [Store.slotTy?, Array.getElem?_push, ha] using h
  arrays {id t} h := by
    have hid : id ≠ s.arrays.size := by
      rintro rfl
      simp [Store.arrayTy?] at h
    simpa [Store.arrayTy?, Array.getElem?_push, hid] using h
  tapes h := h

theorem newTape (hs : s.Typed) (elem : Ty) :
    Retains s { s with tapes := s.tapes.push ⟨elem, #[]⟩ } where
  typed := by
    refine ⟨hs.arrays, fun b' hb' => ?_⟩
    rcases Array.mem_push.mp hb' with hold | rfl
    · exact hs.tapes b' hold
    · simp [Buffer.Typed]
  slots {slot t} h := by cases slot <;> exact h
  arrays h := h
  tapes {id t} h := by
    have hid : id ≠ s.tapes.size := by
      rintro rfl
      simp [Store.tapeTy?] at h
    simpa [Store.tapeTy?, Array.getElem?_push, hid] using h

theorem write [Scalar K] (hs : s.Typed) {slot : Slot} {v : Value K}
    (hv : ∀ t, s.slotTy? slot = some t → (v.coerce t).ty = t) : Retains s (s.write slot v) := by
  have hslots : ∀ other, (s.write slot v).slotTy? other = s.slotTy? other := by
    intro other
    cases slot with
    | cell i =>
      cases other with
      | element a j => rfl
      | cell j =>
        by_cases hij : i = j
        · subst hij
          cases hc : s.cells[i]? with
          | none => simp [Store.write, Store.slotTy?, Array.getElem?_modify, hc]
          | some old =>
            have := hv old.ty (by simp [Store.slotTy?, hc])
            simp [Store.write, Store.slotTy?, Array.getElem?_modify, hc, this]
        · simp [Store.write, Store.slotTy?, Array.getElem?_modify, hij]
    | element a i =>
      cases other with
      | cell j => rfl
      | element b j =>
        by_cases hab : a = b
        · subst hab
          cases ha : s.arrays[a]? with
          | none => simp [Store.write, Store.slotTy?, Array.getElem?_modify, ha]
          | some buffer =>
            by_cases hij : i = j
            · subst hij
              cases hc : buffer.data[i]? with
              | none => simp [Store.write, Store.slotTy?, Array.getElem?_modify, ha, hc]
              | some old =>
                have := hv old.ty (by simp [Store.slotTy?, ha, hc])
                simp [Store.write, Store.slotTy?, Array.getElem?_modify, ha, hc, this]
            · simp [Store.write, Store.slotTy?, Array.getElem?_modify, ha, hij]
        · simp [Store.write, Store.slotTy?, Array.getElem?_modify, hab]
  refine ⟨⟨?_, ?_⟩, fun h => (hslots _).trans h, fun {id t} h => ?_, fun {id t} h => ?_⟩
  · cases slot with
    | cell i => exact hs.arrays
    | element a i =>
      dsimp only [Store.write]
      refine forall_mem_modify hs.arrays fun b hb => ?_
      have hold := hs.arrays b (Array.mem_of_getElem? hb)
      dsimp only [Buffer.Typed]
      refine forall_mem_modify hold fun old hi => ?_
      rw [hv old.ty (by simp [Store.slotTy?, hb, hi])]
      exact hold old (Array.mem_of_getElem? hi)
  · cases slot <;> exact hs.tapes
  · cases slot with
    | cell i => exact h
    | element a i => simpa [Store.arrayTy?, Store.write, elem_modify] using h
  · cases slot <;> exact h

theorem push [Scalar K] (hs : s.Typed) {id : Nat} {v : Value K}
    (hv : ∀ t, s.tapeTy? id = some t → (v.coerce t).ty = t.value) : Retains s (s.push id v) where
  typed := by
    refine ⟨hs.arrays, ?_⟩
    dsimp only [Store.push]
    refine forall_mem_modify hs.tapes fun b hb w hw => ?_
    rcases Array.mem_push.mp hw with hold | rfl
    · exact hs.tapes b (Array.mem_of_getElem? hb) w hold
    · exact hv b.elem (by simp [Store.tapeTy?, hb])
  slots {slot t} h := by cases slot <;> exact h
  arrays h := h
  tapes h := by simpa [Store.tapeTy?, Store.push, elem_modify] using h

theorem drop (hs : s.Typed) (id : Nat) : Retains s (s.drop id) where
  typed := by
    refine ⟨hs.arrays, ?_⟩
    dsimp only [Store.drop]
    refine forall_mem_modify hs.tapes fun b hb w hw => ?_
    exact hs.tapes b (Array.mem_of_getElem? hb) w (mem_of_mem_pop hw)
  slots {slot t} h := by cases slot <;> exact h
  arrays h := h
  tapes h := by simpa [Store.tapeTy?, Store.drop, elem_modify] using h

/-- What was allocated before a scope keeps its type when the scope ends. -/
theorem release (h : Retains s s') : Retains s (s'.release s.marks) where
  typed := by
    refine ⟨fun b hb => h.typed.arrays b ?_, fun b hb => h.typed.tapes b ?_⟩
    · exact mem_of_mem_take hb
    · exact mem_of_mem_take hb
  slots {slot t} ht := by
    have ht' := h.slots ht
    cases slot with
    | cell i =>
      have hi : i < s.cells.size := by
        by_contra hi
        simp [Store.slotTy?, Array.getElem?_eq_none (Nat.not_lt.mp hi)] at ht
      simpa [Store.slotTy?, Store.release, Store.marks, getElem?_take_of_lt hi] using ht'
    | element a i =>
      have ha : a < s.arrays.size := by
        by_contra ha
        simp [Store.slotTy?, Array.getElem?_eq_none (Nat.not_lt.mp ha)] at ht
      simpa [Store.slotTy?, Store.release, Store.marks, getElem?_take_of_lt ha] using ht'
  arrays {id t} ht := by
    have hid : id < s.arrays.size := by
      by_contra hid
      simp [Store.arrayTy?, Array.getElem?_eq_none (Nat.not_lt.mp hid)] at ht
    simpa [Store.arrayTy?, Store.release, Store.marks, getElem?_take_of_lt hid] using h.arrays ht
  tapes {id t} ht := by
    have hid : id < s.tapes.size := by
      by_contra hid
      simp [Store.tapeTy?, Array.getElem?_eq_none (Nat.not_lt.mp hid)] at ht
    simpa [Store.tapeTy?, Store.release, Store.marks, getElem?_take_of_lt hid] using h.tapes ht

end Retains

/-! ### What has a type -/

/-- What a variable stands for is storage of the type. -/
def Binding.HasTy (s : Store K) (t : Ty) : Binding → Prop
  | .scalar slot => s.slotTy? slot = some t.value
  | .array id => ∃ elem len, t = .array elem len ∧ s.arrayTy? id = some elem
  | .tape id => ∃ elem, t = .tape elem ∧ s.tapeTy? id = some elem

/-- What an expression gave has the type. -/
def Operand.HasTy (s : Store K) (t : Ty) : Operand K → Prop
  | .value v => v.ty = t.value
  | .place slot v => v.ty = t.value ∧ s.slotTy? slot = some t.value
  | .array id => ∃ elem len, t = .array elem len ∧ s.arrayTy? id = some elem
  | .tape id => ∃ elem, t = .tape elem ∧ s.tapeTy? id = some elem

/-- What an expression of the type gave, which is nothing only for a void call. -/
def Given (s : Store K) (t : Ty) : Option (Operand K) → Prop
  | none => t = .void
  | some o => o.HasTy s t

/-- What is bound to a parameter fits its type. -/
def Bound.HasTy [Scalar K] (s : Store K) (t : Ty) : Bound K → Prop
  | .value v => (v.coerce t).ty = t.value
  | .slot place => s.slotTy? place = some t.value
  | .array id => ∃ elem len, t = .array elem len ∧ s.arrayTy? id = some elem
  | .tape _ => False

/-- Every variable stands for storage of its declared type. -/
def TyEnv.Describes (types : TyEnv) (env : Env) (s : Store K) : Prop :=
  ∀ x t, types.lookup x = some t → ∃ b, env.lookup x = some b ∧ b.HasTy s t

section

variable {s s' : Store K} {t : Ty}

theorem Binding.HasTy.retained {b : Binding} (h : b.HasTy s t) (hr : Retains s s') :
    b.HasTy s' t := by
  cases b with
  | scalar slot => exact hr.slots h
  | array id =>
    obtain ⟨elem, len, ht, hid⟩ := h
    exact ⟨elem, len, ht, hr.arrays hid⟩
  | tape id =>
    obtain ⟨elem, ht, hid⟩ := h
    exact ⟨elem, ht, hr.tapes hid⟩

theorem Operand.HasTy.retained {o : Operand K} (h : o.HasTy s t) (hr : Retains s s') :
    o.HasTy s' t := by
  cases o with
  | value v => exact h
  | place slot v => exact ⟨h.1, hr.slots h.2⟩
  | array id =>
    obtain ⟨elem, len, ht, hid⟩ := h
    exact ⟨elem, len, ht, hr.arrays hid⟩
  | tape id =>
    obtain ⟨elem, ht, hid⟩ := h
    exact ⟨elem, ht, hr.tapes hid⟩

theorem Bound.HasTy.retained [Scalar K] {b : Bound K} (h : b.HasTy s t) (hr : Retains s s') :
    b.HasTy s' t := by
  cases b with
  | value v => exact h
  | slot place => exact hr.slots h
  | array id =>
    obtain ⟨elem, len, ht, hid⟩ := h
    exact ⟨elem, len, ht, hr.arrays hid⟩
  | tape id => exact h

theorem TyEnv.Describes.retained {types : TyEnv} {env : Env} (h : types.Describes env s)
    (hr : Retains s s') : types.Describes env s' := by
  intro x t hx
  obtain ⟨b, hb, hty⟩ := h x t hx
  exact ⟨b, hb, hty.retained hr⟩

/-- A variable that is declared shadows the others. -/
theorem TyEnv.Describes.cons {types : TyEnv} {env : Env} (h : types.Describes env s) {x : String}
    {b : Binding} (hb : b.HasTy s t) : TyEnv.Describes ((x, t) :: types) ((x, b) :: env) s := by
  intro y t' hy
  by_cases hxy : y = x
  · subst hxy
    simp only [List.lookup_cons_self, Option.some.injEq] at hy
    subst hy
    exact ⟨b, List.lookup_cons_self, hb⟩
  · rw [lookup_cons_of_ne hxy] at hy
    rw [lookup_cons_of_ne hxy]
    exact h y t' hy

/-- The types that a run sees its operands by are their static types without lengths. -/
theorem Operand.HasTy.operandTy {o : Operand K} (h : o.HasTy s t) :
    t.isPassed = true ∧ Eval.operandTy s o = t.seen := by
  have hscalar : ∀ v : Value K, v.ty = t.value → t.isPassed = true ∧ v.ty = t.seen := by
    intro v hv
    rcases Ty.eq_of_value hv.symm with rfl | rfl
    · cases v <;> exact ⟨rfl, rfl⟩
    · exact ⟨v.isScalar_ty, rfl⟩
  cases o with
  | value v => exact hscalar v h
  | place slot v => exact hscalar v h.1
  | array id =>
    obtain ⟨elem, len, rfl, hid⟩ := h
    simp [Ty.isPassed, Eval.operandTy, Ty.seen, (Store.array_of_arrayTy? hid).2]
  | tape id =>
    obtain ⟨elem, rfl, hid⟩ := h
    simp [Ty.isPassed, Eval.operandTy, Ty.seen, (Store.tape_of_tapeTy? hid).2]

end

/-! ### Sound runs -/

/-- All storage keeps its type, and what the computation gives has the property `Q`. If the run is
`strict`, it does not stop in a way that types are meant to rule out. -/
def Sound (strict : Prop) (m : Exec K α) (s : Store K) (Q : α → Store K → Prop) : Prop :=
  match m s with
  | .ok a s' => Retains s s' ∧ Q a s'
  | .error e s' => Retains s s' ∧ (strict → e.isIllTyped = false)

namespace Sound

variable {strict : Prop} {s : Store K} {Q : α → Store K → Prop} {R : β → Store K → Prop}

theorem pure {a : α} (hs : s.Typed) (h : Q a s) : Sound strict (pure a) s Q := ⟨.refl hs, h⟩

theorem bind {m : Exec K α} {f : α → Exec K β} (hm : Sound strict m s Q)
    (hf : ∀ a s', Retains s s' → Q a s' → Sound strict (f a) s' R) :
    Sound strict (m >>= f) s R := by
  simp only [Sound, Bind.bind, EStateM.bind] at hm ⊢
  cases hms : m s with
  | error e s' =>
    rw [hms] at hm
    exact hm
  | ok a s' =>
    rw [hms] at hm
    have hend := hf a s' hm.1 hm.2
    simp only [Sound] at hend ⊢
    cases hfs : f a s' with
    | ok b s'' =>
      rw [hfs] at hend
      exact ⟨hm.1.trans hend.1, hend.2⟩
    | error e s'' =>
      rw [hfs] at hend
      exact ⟨hm.1.trans hend.1, hend.2⟩

theorem imp {Q' : α → Store K → Prop} {m : Exec K α} (hm : Sound strict m s Q)
    (h : ∀ a s', Retains s s' → Q a s' → Q' a s') : Sound strict m s Q' := by
  unfold Sound at hm ⊢
  cases hms : m s with
  | ok a s' =>
    rw [hms] at hm
    exact ⟨hm.1, h a s' hm.1 hm.2⟩
  | error e s' =>
    rw [hms] at hm
    exact hm

theorem of_ok {m : Exec K α} {a : α} {s' : Store K} (hm : Sound strict m s Q)
    (hrun : m s = .ok a s') : Retains s s' ∧ Q a s' := by
  unfold Sound at hm
  rwa [hrun] at hm

theorem of_error {m : Exec K α} {e : Stop} {s' : Store K} (hm : Sound strict m s Q)
    (hrun : m s = .error e s') : Retains s s' ∧ (strict → e.isIllTyped = false) := by
  unfold Sound at hm
  rwa [hrun] at hm

theorem get_bind {f : Store K → Exec K β} (h : Sound strict (f s) s R) :
    Sound strict (get >>= f) s R := h

theorem fail {e : RuntimeError} (hs : s.Typed) (h : strict → e.isIllTyped = false) :
    Sound strict (Exec.fail (α := α) e) s Q :=
  ⟨.refl hs, h⟩

theorem require {e : RuntimeError} {o : Option α} (hs : s.Typed)
    (hnone : o = none → strict → e.isIllTyped = false) (h : ∀ a, o = some a → Q a s) :
    Sound strict (Exec.require e o) s Q := by
  cases o with
  | none => exact Sound.fail hs (hnone rfl)
  | some a => exact Sound.pure hs (h a rfl)

/-- A scope ends with what was allocated before it. -/
theorem inScope {m : Exec K α} {Q : α → Prop} (h : Sound strict m s fun a _ => Q a) :
    Sound strict (Exec.inScope m) s fun a _ => Q a := by
  unfold Sound Exec.inScope at *
  cases hms : m s with
  | ok a s' =>
    rw [hms] at h
    exact ⟨h.1.release, h.2⟩
  | error e s' =>
    rw [hms] at h
    exact ⟨h.1.release, h.2⟩

end Sound

end Fluxion
