import Mathlib.Data.List.Basic
import Fluxion.Eval.Machine

/-!
Storage that a run leaves as it is. A guard names storage, and a computation is safe under it when
it keeps what the guard names, also when it stops early.
-/

namespace Fluxion

variable {K α β : Type}

theorem getElem?_take_of_lt {xs : Array α} {n i : Nat} (h : i < n) : (xs.take n)[i]? = xs[i]? := by
  rw [Array.take_eq_extract, Array.getElem?_extract]
  simp only [Nat.zero_add, Nat.sub_zero, ite_eq_left_iff]
  intro hsize
  exact (Array.getElem?_eq_none (by omega)).symm

theorem lookup_cons_of_ne {α : Type} {l : List (String × α)} {x y : String} {a : α} (h : x ≠ y) :
    List.lookup x ((y, a) :: l) = List.lookup x l := by
  have hbeq : (x == y) = false := by simpa using h
  simp only [List.lookup_cons, hbeq]

/-- Storage that has to stay as it is, and what code may do besides: push and pop, which may find a
tape empty, declare tapes, return, and declare names that are not fixed. -/
structure Guard where
  slots : Slot → Prop
  tapes : Nat → Prop
  pops : Prop
  grows : Prop
  returns : Prop
  fixed : String → Prop

/-- The slot is allocated. -/
def Slot.In (s : Store K) : Slot → Prop
  | .cell i => i < s.cells.size
  | .element a _ => a < s.arrays.size

def Binding.In (s : Store K) : Binding → Prop
  | .scalar slot => slot.In s
  | .array id => id < s.arrays.size
  | .tape id => id < s.tapes.size

/-- A parameter is bound to something allocated, and not to a tape. -/
def Bound.In (s : Store K) : Bound K → Prop
  | .value _ => True
  | .slot place => place.In s
  | .array id => id < s.arrays.size
  | .tape _ => False

namespace Guard

/-- All that the guard names is allocated. -/
structure In (G : Guard) (s : Store K) : Prop where
  slots : ∀ slot, G.slots slot → slot.In s
  tapes : ∀ id, G.tapes id → id < s.tapes.size

/-- Only code that may pop finds a tape empty. -/
def Allows (G : Guard) (e : Stop) : Prop := ∀ x, e = .fault (.emptyTape x) → G.pops

theorem allows_fault {G : Guard} {e : RuntimeError} (h : ∀ x, e ≠ .emptyTape x) :
    G.Allows (.fault e) := by
  intro x hx
  cases hx
  exact absurd rfl (h x)

/-- The guard of code in a scope of its own, which gives back the tapes that it declares. -/
def growing (G : Guard) : Guard := { G with grows := True }

/-- The guard of a function's body in place of a call: its names and returns are its own. -/
def entered (G : Guard) : Guard := { G with grows := True, returns := True, fixed := fun _ => False }

/-- Whatever is safe under the first guard is safe under the second. -/
structure Covers (G G' : Guard) : Prop where
  slots : ∀ slot, G'.slots slot → G.slots slot
  tapes : ∀ id, G'.tapes id → G.tapes id
  pops : G.pops → G'.pops
  grows : G.grows → G'.grows

theorem covers_growing (G : Guard) : G.Covers G.growing :=
  ⟨fun _ h => h, fun _ h => h, fun h => h, fun _ => trivial⟩

theorem entered_covers (G : Guard) : G.entered.Covers G.growing :=
  ⟨fun _ h => h, fun _ h => h, fun h => h, fun h => h⟩

end Guard

/-- The slots of a binding are not under guard. -/
def Binding.Apart (G : Guard) : Binding → Prop
  | .scalar slot => ¬ G.slots slot
  | .array id => ∀ i, ¬ G.slots (.element id i)
  | .tape _ => True

def Bound.Apart (G : Guard) : Bound K → Prop
  | .value _ => True
  | .slot place => ¬ G.slots place
  | .array id => ∀ i, ¬ G.slots (.element id i)
  | .tape _ => False

/-- The elements of an array have the same type in both stores, and are as many. -/
def Store.SameShape (s s' : Store K) (id : Nat) : Prop :=
  (s'.array id).elem = (s.array id).elem ∧ (s'.array id).data.size = (s.array id).data.size

/-- From the first store to the second, what the guard names is kept. -/
structure Kept (G : Guard) (s s' : Store K) : Prop where
  cells_le : s.cells.size ≤ s'.cells.size
  arrays_le : s.arrays.size ≤ s'.arrays.size
  tapes_le : s.tapes.size ≤ s'.tapes.size
  tapes_eq : ¬ G.grows → s'.tapes.size = s.tapes.size
  shapes : ∀ id < s.arrays.size, s.SameShape s' id
  slots : ∀ slot, G.slots slot → s'.read slot = s.read slot
  tapes : ∀ id, G.tapes id → s'.tape id = s.tape id

namespace Kept

variable {G : Guard} {s s' s'' : Store K}

theorem refl (G : Guard) (s : Store K) : Kept G s s :=
  ⟨Nat.le_refl _, Nat.le_refl _, Nat.le_refl _, fun _ => rfl, fun _ _ => ⟨rfl, rfl⟩, fun _ _ => rfl,
    fun _ _ => rfl⟩

theorem trans (h : Kept G s s') (h' : Kept G s' s'') : Kept G s s'' where
  cells_le := Nat.le_trans h.cells_le h'.cells_le
  arrays_le := Nat.le_trans h.arrays_le h'.arrays_le
  tapes_le := Nat.le_trans h.tapes_le h'.tapes_le
  tapes_eq hg := (h'.tapes_eq hg).trans (h.tapes_eq hg)
  shapes id hid := by
    have h₁ := h.shapes id hid
    have h₂ := h'.shapes id (Nat.lt_of_lt_of_le hid h.arrays_le)
    exact ⟨h₂.1.trans h₁.1, h₂.2.trans h₁.2⟩
  slots slot hs := (h'.slots slot hs).trans (h.slots slot hs)
  tapes id hid := (h'.tapes id hid).trans (h.tapes id hid)

theorem covers {G' : Guard} (h : Kept G s s') (hc : G.Covers G') : Kept G' s s' where
  cells_le := h.cells_le
  arrays_le := h.arrays_le
  tapes_le := h.tapes_le
  tapes_eq hn := h.tapes_eq fun hg => hn (hc.grows hg)
  shapes := h.shapes
  slots slot hs := h.slots slot (hc.slots slot hs)
  tapes id hid := h.tapes id (hc.tapes id hid)

theorem slot_in (h : Kept G s s') {slot : Slot} (hs : slot.In s) : slot.In s' := by
  cases slot with
  | cell i => exact Nat.lt_of_lt_of_le hs h.cells_le
  | element a i => exact Nat.lt_of_lt_of_le hs h.arrays_le

theorem binding_in (h : Kept G s s') {b : Binding} (hb : b.In s) : b.In s' := by
  cases b with
  | scalar slot => exact h.slot_in hb
  | array id => exact Nat.lt_of_lt_of_le hb h.arrays_le
  | tape id => exact Nat.lt_of_lt_of_le hb h.tapes_le

theorem bound_in (h : Kept G s s') {b : Bound K} (hb : b.In s) : b.In s' := by
  cases b with
  | value v => trivial
  | slot slot => exact h.slot_in hb
  | array id => exact Nat.lt_of_lt_of_le hb h.arrays_le
  | tape id => exact hb

theorem guard_in (h : Kept G s s') (hG : G.In s) : G.In s' :=
  ⟨fun slot hs => h.slot_in (hG.slots slot hs),
    fun id hid => Nat.lt_of_lt_of_le (hG.tapes id hid) h.tapes_le⟩

/-! ### Single steps -/

theorem newCell (hG : G.In s) (v : Value K) : Kept G s { s with cells := s.cells.push v } where
  cells_le := by simp
  arrays_le := Nat.le_refl _
  tapes_le := Nat.le_refl _
  tapes_eq _ := rfl
  shapes _ _ := ⟨rfl, rfl⟩
  slots slot hs := by
    cases slot with
    | cell i =>
      have hi : i < s.cells.size := hG.slots _ hs
      simp [Store.read, Array.getElem?_push, Nat.ne_of_lt hi]
    | element a i => rfl
  tapes _ _ := rfl

theorem newArray (hG : G.In s) (b : Buffer K) : Kept G s { s with arrays := s.arrays.push b } where
  cells_le := Nat.le_refl _
  arrays_le := by simp
  tapes_le := Nat.le_refl _
  tapes_eq _ := rfl
  shapes id hid := by
    simp [Store.SameShape, Store.array, Array.getElem?_push, Nat.ne_of_lt hid]
  slots slot hs := by
    cases slot with
    | cell i => rfl
    | element a i =>
      have ha : a < s.arrays.size := hG.slots _ hs
      simp [Store.read, Array.getElem?_push, Nat.ne_of_lt ha]
  tapes _ _ := rfl

theorem newTape (hG : G.In s) (hgrow : G.grows) (b : Buffer K) :
    Kept G s { s with tapes := s.tapes.push b } where
  cells_le := Nat.le_refl _
  arrays_le := Nat.le_refl _
  tapes_le := by simp
  tapes_eq h := absurd hgrow h
  shapes _ _ := ⟨rfl, rfl⟩
  slots slot _ := by cases slot <;> rfl
  tapes id hid := by simp [Store.tape, Array.getElem?_push, Nat.ne_of_lt (hG.tapes id hid)]

theorem write [Scalar K] {slot : Slot} (h : ¬ G.slots slot) (v : Value K) :
    Kept G s (s.write slot v) where
  cells_le := by cases slot <;> simp [Store.write]
  arrays_le := by cases slot <;> simp [Store.write]
  tapes_le := by cases slot <;> simp [Store.write]
  tapes_eq _ := by cases slot <;> rfl
  shapes id hid := by
    cases slot with
    | cell i => exact ⟨rfl, rfl⟩
    | element a i =>
      by_cases ha : a = id
      · subst ha
        cases hb : s.arrays[a]? <;>
          simp [Store.SameShape, Store.array, Store.write, Array.getElem?_modify, hb]
      · simp [Store.SameShape, Store.array, Store.write, Array.getElem?_modify, ha]
  slots other hother := by
    have hne : other ≠ slot := fun he => h (he ▸ hother)
    cases slot with
    | cell i =>
      cases other with
      | cell j =>
        have hij : i ≠ j := fun he => hne (he ▸ rfl)
        simp [Store.write, Store.read, Array.getElem?_modify, hij]
      | element b j => rfl
    | element a i =>
      cases other with
      | cell j => rfl
      | element b j =>
        by_cases hab : a = b
        · subst hab
          have hij : i ≠ j := fun he => hne (he ▸ rfl)
          cases ha : s.arrays[a]? <;>
            simp [Store.write, Store.read, Array.getElem?_modify, ha, hij]
        · simp [Store.write, Store.read, Array.getElem?_modify, hab]
  tapes id _ := by cases slot <;> rfl

theorem push [Scalar K] {id : Nat} (h : ¬ G.tapes id) (v : Value K) : Kept G s (s.push id v) where
  cells_le := Nat.le_refl _
  arrays_le := Nat.le_refl _
  tapes_le := by simp [Store.push]
  tapes_eq _ := by simp [Store.push]
  shapes _ _ := ⟨rfl, rfl⟩
  slots slot _ := by cases slot <;> rfl
  tapes other hother := by
    have hne : id ≠ other := fun he => h (he ▸ hother)
    simp [Store.push, Store.tape, Array.getElem?_modify, hne]

theorem drop {id : Nat} (h : ¬ G.tapes id) : Kept G s (s.drop id) where
  cells_le := Nat.le_refl _
  arrays_le := Nat.le_refl _
  tapes_le := by simp [Store.drop]
  tapes_eq _ := by simp [Store.drop]
  shapes _ _ := ⟨rfl, rfl⟩
  slots slot _ := by cases slot <;> rfl
  tapes other hother := by
    have hne : id ≠ other := fun he => h (he ▸ hother)
    simp [Store.drop, Store.tape, Array.getElem?_modify, hne]

/-- What was allocated before a scope is kept when the scope ends, and no tape remains. -/
theorem release (hG : G.In s) (h : Kept G.growing s s') : Kept G s (s'.release s.marks) where
  cells_le := by simp [Store.release, Store.marks, h.cells_le]
  arrays_le := by simp [Store.release, Store.marks, h.arrays_le]
  tapes_le := by simp [Store.release, Store.marks, h.tapes_le]
  tapes_eq _ := by simp [Store.release, Store.marks, h.tapes_le]
  shapes id hid := by
    have hshape := h.shapes id hid
    simpa only [Store.SameShape, Store.array, Store.release, Store.marks,
      getElem?_take_of_lt hid] using hshape
  slots slot hs := by
    rw [← h.slots slot hs]
    have hin := hG.slots slot hs
    cases slot with
    | cell i => simp only [Store.release, Store.marks, Store.read, getElem?_take_of_lt hin]
    | element a i => simp only [Store.release, Store.marks, Store.read, getElem?_take_of_lt hin]
  tapes id hid := by
    rw [← h.tapes id hid]
    simp only [Store.release, Store.marks, Store.tape, getElem?_take_of_lt (hG.tapes id hid)]

end Kept

/-- The storage that a run leaves, whether it ends or stops early. -/
def Exec.leaves (m : Exec K α) (s : Store K) : Store K :=
  match m s with
  | .ok _ s' => s'
  | .error _ s' => s'

/-- The computation keeps what the guard names, and what it gives has the property `Q`. -/
def Safe (G : Guard) (m : Exec K α) (s : Store K) (Q : α → Store K → Prop) : Prop :=
  match m s with
  | .ok a s' => Kept G s s' ∧ Q a s'
  | .error e s' => Kept G s s' ∧ G.Allows e

namespace Safe

variable {G : Guard} {s : Store K} {Q : α → Store K → Prop} {R : β → Store K → Prop}

theorem pure {a : α} (h : Q a s) : Safe G (pure a) s Q := ⟨.refl G s, h⟩

theorem bind {m : Exec K α} {f : α → Exec K β} (hm : Safe G m s Q)
    (hf : ∀ a s', Kept G s s' → Q a s' → Safe G (f a) s' R) : Safe G (m >>= f) s R := by
  simp only [Safe, Bind.bind, EStateM.bind] at hm ⊢
  cases hms : m s with
  | error e s' =>
    rw [hms] at hm
    exact hm
  | ok a s' =>
    rw [hms] at hm
    have hend := hf a s' hm.1 hm.2
    simp only [Safe] at hend ⊢
    cases hfs : f a s' with
    | ok b s'' =>
      rw [hfs] at hend
      exact ⟨hm.1.trans hend.1, hend.2⟩
    | error e s'' =>
      rw [hfs] at hend
      exact ⟨hm.1.trans hend.1, hend.2⟩

theorem imp {Q' : α → Store K → Prop} {m : Exec K α} (hm : Safe G m s Q)
    (h : ∀ a s', Kept G s s' → Q a s' → Q' a s') : Safe G m s Q' := by
  unfold Safe at hm ⊢
  cases hms : m s with
  | ok a s' =>
    rw [hms] at hm
    exact ⟨hm.1, h a s' hm.1 hm.2⟩
  | error e s' =>
    rw [hms] at hm
    exact hm

theorem leaves {m : Exec K α} (hm : Safe G m s Q) : Kept G s (m.leaves s) := by
  unfold Safe at hm
  unfold Exec.leaves
  cases hms : m s with
  | ok a s' =>
    rw [hms] at hm
    exact hm.1
  | error e s' =>
    rw [hms] at hm
    exact hm.1

theorem get_bind {f : Store K → Exec K β} (h : Safe G (f s) s R) : Safe G (get >>= f) s R := h

theorem fail {e : RuntimeError} (h : ∀ x, e ≠ .emptyTape x) : Safe G (Exec.fail (α := α) e) s Q :=
  ⟨.refl G s, Guard.allows_fault h⟩

theorem mistyped {f : TypeFault} : Safe G (Exec.mistyped (α := α) f) s Q :=
  Safe.fail (by simp)

theorem require {e : RuntimeError} {o : Option α} (he : ∀ x, e ≠ .emptyTape x)
    (h : ∀ a, o = some a → Q a s) : Safe G (Exec.require e o) s Q := by
  cases o with
  | none => exact Safe.fail he
  | some a => exact Safe.pure (h a rfl)

/-- A scope may declare tapes of its own, since it gives them back. -/
theorem inScope {m : Exec K α} {Q : α → Prop} (hG : G.In s)
    (h : Safe G.growing m s fun a _ => Q a) : Safe G (Exec.inScope m) s fun a _ => Q a := by
  unfold Safe Exec.inScope at *
  cases hms : m s with
  | ok a s' =>
    rw [hms] at h
    exact ⟨.release hG h.1, h.2⟩
  | error e s' =>
    rw [hms] at h
    exact ⟨.release hG h.1, h.2⟩

theorem covers {G' : Guard} {m : Exec K α} (h : Safe G m s Q) (hc : G.Covers G') :
    Safe G' m s Q := by
  unfold Safe at *
  cases hms : m s with
  | ok a s' =>
    rw [hms] at h
    exact ⟨h.1.covers hc, h.2⟩
  | error e s' =>
    rw [hms] at h
    exact ⟨h.1.covers hc, fun x hx => hc.pops (h.2 x hx)⟩

end Safe

end Fluxion
