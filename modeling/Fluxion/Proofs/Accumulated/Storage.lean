import Fluxion.Proofs.Paired.Calls
import Fluxion.Proofs.Runs.Calls

/-!
Storage that code only adds to. Two runs may differ in what accumulators hold at first: as long as
nothing reads them, both runs go the same way, and every slot of an accumulator stays ahead in the
second run by as much as it was.
-/

namespace Fluxion

variable {K α β γ δ : Type}

/-- Cells and arrays that are only added to, and by how much each slot of them is ahead in the
second of two runs. -/
structure Accumulators (K : Type) where
  cell : Nat → Prop
  array : Nat → Prop
  ahead : Slot → K

namespace Accumulators

variable (A : Accumulators K)

/-- The slots of accumulators, whether their arrays are that long or not. -/
def slots : Slot → Prop
  | .cell i => A.cell i
  | .element a _ => A.array a

/-- Only what accumulators hold is kept. -/
def guard : Guard := ⟨A.slots, fun _ => False, True, True, True, fun _ => False⟩

/-- The slot belongs to an accumulator and is allocated. -/
def Has (s : Store K) : Slot → Prop
  | .cell i => A.cell i
  | .element a i => A.array a ∧ i < (s.array a).data.size

/-- The variable stands for an accumulator or a slot of one. -/
def Lends (s : Store K) : Binding → Prop
  | .scalar slot => A.Has s slot
  | .array id => A.array id
  | .tape _ => False

theorem slots_of_has {A : Accumulators K} {s : Store K} {slot : Slot} (h : A.Has s slot) :
    A.slots slot := by
  cases slot with
  | cell i => exact h
  | element a i => exact h.1

end Accumulators

/-- The guard that keeps no more than the shapes of arrays. -/
def Guard.shapes : Guard := ⟨fun _ => False, fun _ => False, True, True, True, fun _ => False⟩

theorem Guard.shapes_in (s : Store K) : Guard.shapes.In s :=
  ⟨fun _ h => h.elim, fun _ h => h.elim⟩

theorem Accumulators.guard_covers (A : Accumulators K) : A.guard.Covers .shapes :=
  ⟨fun _ h => h.elim, fun _ h => h.elim, fun h => h, fun h => h⟩

/-! ### Pairs that are no accumulators -/

namespace Pairing

/-- Nothing that is paired is an accumulator. -/
structure Spares (P : Pairing) (A : Accumulators K) : Prop where
  cell : ∀ {i j}, P.cell i j → ¬ A.cell i ∧ ¬ A.cell j
  array : ∀ {a b}, P.array a b → ¬ A.array a ∧ ¬ A.array b

/-- The pairs that are no accumulators. -/
def sparing (P : Pairing) (A : Accumulators K) : Pairing where
  cell i j := P.cell i j ∧ ¬ A.cell i ∧ ¬ A.cell j
  array a b := P.array a b ∧ ¬ A.array a ∧ ¬ A.array b
  tape := P.tape

variable {P P' : Pairing} {A : Accumulators K}

theorem sparing_spares (P : Pairing) (A : Accumulators K) : (P.sparing A).Spares A :=
  ⟨fun h => h.2, fun h => h.2⟩

theorem sparing_within (P : Pairing) (A : Accumulators K) : (P.sparing A).Within P :=
  ⟨fun h => h.1, fun h => h.1, id⟩

theorem Spares.within (h : P.Spares A) (hP : P.Within P') : P.Within (P'.sparing A) :=
  ⟨fun hc => ⟨hP.cell hc, h.cell hc⟩, fun ha => ⟨hP.array ha, h.array ha⟩, hP.tape⟩

theorem Spares.mono (h : P'.Spares A) (hP : P.Within P') : P.Spares A :=
  ⟨fun hc => h.cell (hP.cell hc), fun ha => h.array (hP.array ha)⟩

/-- Variables that correspond are paired apart from accumulators if both stand for other storage. -/
theorem sparing_binding : ∀ {b c : Binding}, P.binding b c → b.Apart A.guard → c.Apart A.guard →
    (P.sparing A).binding b c
  | .scalar (.cell _), .scalar (.cell _), h, hb, hc => ⟨h, hb, hc⟩
  | .scalar (.element _ _), .scalar (.element _ _), h, hb, hc => ⟨⟨h.1, hb, hc⟩, h.2⟩
  | .array _, .array _, h, hb, hc => ⟨h, hb 0, hc 0⟩
  | .tape _, .tape _, h, _, _ => h

end Pairing

/-! ### Stores that have drifted apart -/

namespace Twinned

variable {R : Nat → Nat → Prop} {xs ys : Array α}

theorem modify_left (h : Twinned R xs ys) {i : Nat} (hi : ∀ j, ¬ R i j) (f : α → α) :
    Twinned R (xs.modify i f) ys where
  same := by
    intro k l hkl
    obtain ⟨a, hx, hy⟩ := h.same hkl
    have hne : i ≠ k := fun he => hi l (he ▸ hkl)
    exact ⟨a, by simp [Array.getElem?_modify, hne, hx], hy⟩
  unique := h.unique

theorem modify_right (h : Twinned R xs ys) {j : Nat} (hj : ∀ i, ¬ R i j) (f : α → α) :
    Twinned R xs (ys.modify j f) where
  same := by
    intro k l hkl
    obtain ⟨a, hx, hy⟩ := h.same hkl
    have hne : j ≠ l := fun he => hj k (he ▸ hkl)
    exact ⟨a, hx, by simp [Array.getElem?_modify, hne, hy]⟩
  unique := h.unique

end Twinned

namespace Store

/-- A float that replaces a float is what the slot holds. -/
theorem read_write_float [Scalar K] {s : Store K} {slot : Slot} {a : K}
    (h : s.read slot = .float a) (v : K) : (s.write slot (.float v)).read slot = .float v := by
  cases slot with
  | cell i =>
    cases hi : s.cells[i]? with
    | none => simp [read, hi] at h
    | some w =>
      obtain rfl : w = .float a := by simpa [read, hi] using h
      simp [write, read, Array.getElem?_modify, hi, Value.coerce, Value.ty, Ty.value]
  | element b i =>
    cases hb : s.arrays[b]? with
    | none => simp [read, hb] at h
    | some d =>
      cases hi : d.data[i]? with
      | none => simp [read, hb, hi] at h
      | some w =>
        obtain rfl : w = .float a := by simpa [read, hb, hi] using h
        simp [write, read, Array.getElem?_modify, hb, hi, Value.coerce, Value.ty, Ty.value]

theorem data_of_read {s : Store K} {id i : Nat} {w : K} (h : s.read (.element id i) = .float w) :
    (s.array id).data[i]? = some (.float w) := by
  unfold Store.read at h
  unfold Store.array
  cases hb : s.arrays[id]? with
  | none => simp [hb] at h
  | some b =>
    cases hi : b.data[i]? with
    | none => simp [hb, hi] at h
    | some v => simpa [hb, hi] using h

theorem read_release {s t : Store K} {slot : Slot} (h : slot.In s) :
    (t.release s.marks).read slot = t.read slot := by
  cases slot with
  | cell i => simp only [release, marks, read, getElem?_take_of_lt h]
  | element a i => simp only [release, marks, read, getElem?_take_of_lt h]

theorem array_release {s t : Store K} {id : Nat} (h : id < s.arrays.size) :
    (t.release s.marks).array id = t.array id := by
  simp only [array, release, marks, getElem?_take_of_lt h]

end Store

/-- The stores agree on what is paired, and accumulators are ahead in the second one. -/
structure Drift [Add K] (A : Accumulators K) (P : Pairing) (s s' : Store K) : Prop where
  paired : Matches P s s'
  spares : P.Spares A
  held : ∀ slot, A.Has s slot →
    ∃ a : K, s.read slot = .float a ∧ s'.read slot = .float (a + A.ahead slot)
  arrays : ∀ id, A.array id → id < s.arrays.size ∧ id < s'.arrays.size ∧ s.SameShape s' id

namespace Accumulators

/-- A slot stays one of an accumulator while arrays keep their shapes. -/
theorem Has.of_shape {A : Accumulators K} {s t : Store K}
    (hshape : ∀ id, A.array id → s.SameShape t id) : ∀ {slot : Slot}, A.Has s slot → A.Has t slot
  | .cell _, h => h
  | .element a _, h => ⟨h.1, by rw [(hshape a h.1).2]; exact h.2⟩

end Accumulators

theorem Store.SameShape.symm {s t : Store K} {id : Nat} (h : s.SameShape t id) : t.SameShape s id :=
  ⟨h.1.symm, h.2.symm⟩

theorem Store.SameShape.trans {s t u : Store K} {id : Nat} (h : s.SameShape t id)
    (h' : t.SameShape u id) : s.SameShape u id :=
  ⟨h'.1.trans h.1, h'.2.trans h.2⟩

namespace Drift

section

variable [Add K] {A : Accumulators K} {P P' : Pairing} {s s' t t' : Store K}

theorem mono (h : Drift A P' s s') (hP : P.Within P') : Drift A P s s' :=
  ⟨h.paired.mono hP, h.spares.mono hP, h.held, h.arrays⟩

theorem cell_lt (h : Drift A P s s') {i : Nat} (hi : A.cell i) :
    i < s.cells.size ∧ i < s'.cells.size := by
  obtain ⟨a, hread, hread'⟩ := h.held (.cell i) hi
  constructor
  · by_contra hlt
    simp [Store.read, Array.getElem?_eq_none (Nat.le_of_not_lt hlt)] at hread
  · by_contra hlt
    simp [Store.read, Array.getElem?_eq_none (Nat.le_of_not_lt hlt)] at hread'

theorem slot_in (h : Drift A P s s') {slot : Slot} (hs : A.slots slot) :
    slot.In s ∧ slot.In s' := by
  cases slot with
  | cell i => exact h.cell_lt hs
  | element a i => exact ⟨(h.arrays a hs).1, (h.arrays a hs).2.1⟩

theorem guard_in (h : Drift A P s s') : A.guard.In s :=
  ⟨fun _ hs => (h.slot_in hs).1, fun _ hid => hid.elim⟩

theorem guard_in' (h : Drift A P s s') : A.guard.In s' :=
  ⟨fun _ hs => (h.slot_in hs).2, fun _ hid => hid.elim⟩

/-- Accumulators keep their shapes. -/
theorem same_shape (h : Drift A P s s') {G : Guard} (hk : Kept G s t) (id : Nat) (hid : A.array id) :
    s.SameShape t id :=
  hk.shapes id (h.arrays id hid).1

/-- Code that leaves accumulators alone in both runs. -/
theorem of_kept (h : Drift A P s s') (hm : Matches P' t t') (hP : P'.Spares A)
    (hk : Kept A.guard s t) (hk' : Kept A.guard s' t') : Drift A P' t t' where
  paired := hm
  spares := hP
  held slot hs := by
    have hold : A.Has s slot := hs.of_shape fun id hid => (h.same_shape hk id hid).symm
    obtain ⟨a, hread, hread'⟩ := h.held slot hold
    have hslot : A.guard.slots slot := Accumulators.slots_of_has hold
    exact ⟨a, (hk.slots slot hslot).trans hread, (hk'.slots slot hslot).trans hread'⟩
  arrays id hid := by
    obtain ⟨hin, hin', hshape⟩ := h.arrays id hid
    exact ⟨Nat.lt_of_lt_of_le hin hk.arrays_le, Nat.lt_of_lt_of_le hin' hk'.arrays_le,
      (hk.shapes id hin).symm.trans (hshape.trans (hk'.shapes id hin'))⟩

/-- Both runs leave a scope. -/
theorem release (h : Drift A P s s') (ht : Drift A P t t') :
    Drift A P (t.release s.marks) (t'.release s'.marks) where
  paired := h.paired.release_right (h.paired.release_left ht.paired)
  spares := h.spares
  held slot hs := by
    have hin := h.slot_in (Accumulators.slots_of_has hs)
    rw [Store.read_release hin.1, Store.read_release hin.2]
    refine ht.held slot (hs.of_shape fun id hid => ?_)
    rw [Store.SameShape, Store.array_release (h.arrays id hid).1]
    exact ⟨rfl, rfl⟩
  arrays id hid := by
    obtain ⟨hin, hin', _⟩ := h.arrays id hid
    obtain ⟨ht, ht', hshape⟩ := ht.arrays id hid
    refine ⟨?_, ?_, ?_⟩
    · simpa [Store.release, Store.marks] using Nat.lt_min.mpr ⟨hin, ht⟩
    · simpa [Store.release, Store.marks] using Nat.lt_min.mpr ⟨hin', ht'⟩
    rw [Store.SameShape, Store.array_release hin, Store.array_release hin']
    exact hshape

end

/-- Both runs add the same to a slot of an accumulator. -/
theorem write {K : Type} [Scalar K] {A : Accumulators K} {P : Pairing} {s s' : Store K}
    (h : Drift A P s s') {slot : Slot} (hs : A.Has s slot) (v : K) :
    Drift A P (s.write slot (.float v)) (s'.write slot (.float (v + A.ahead slot))) := by
  -- everything but the slot is kept
  let G : Guard := ⟨(· ≠ slot), fun _ => False, True, True, True, fun _ => False⟩
  have hk : Kept G s (s.write slot (.float v)) := .write (by simp [G]) _
  have hk' : Kept G s' (s'.write slot (.float (v + A.ahead slot))) := .write (by simp [G]) _
  have hslot := Accumulators.slots_of_has hs
  refine ⟨?_, h.spares, fun other hother => ?_, fun id hid => ?_⟩
  · cases slot with
    | cell i =>
      have hleft := h.paired.cells.modify_left (fun j hij => (h.spares.cell hij).1 hslot)
        fun old => (Value.float v).coerce old.ty
      have hboth := hleft.modify_right (fun j hij => (h.spares.cell hij).2 hslot)
        fun old => (Value.float (v + A.ahead (.cell i))).coerce old.ty
      exact ⟨hboth, h.paired.arrays, h.paired.tapes⟩
    | element a i =>
      have hleft := h.paired.arrays.modify_left (fun b hab => (h.spares.array hab).1 hslot)
        fun b => { b with data := b.data.modify i fun old => (Value.float v).coerce old.ty }
      have hboth := hleft.modify_right (fun b hab => (h.spares.array hab).2 hslot) fun b =>
        { b with data := b.data.modify i fun old =>
            (Value.float (v + A.ahead (.element a i))).coerce old.ty }
      exact ⟨h.paired.cells, hboth, h.paired.tapes⟩
  · have hold : A.Has s other := hother.of_shape fun id hid => (h.same_shape hk id hid).symm
    obtain ⟨a, hread, hread'⟩ := h.held other hold
    by_cases heq : other = slot
    · subst heq
      exact ⟨v, Store.read_write_float hread v, Store.read_write_float hread' _⟩
    · exact ⟨a, (hk.slots other heq).trans hread, (hk'.slots other heq).trans hread'⟩
  · obtain ⟨hin, hin', hshape⟩ := h.arrays id hid
    exact ⟨Nat.lt_of_lt_of_le hin hk.arrays_le, Nat.lt_of_lt_of_le hin' hk'.arrays_le,
      (hk.shapes id hin).symm.trans (hshape.trans (hk'.shapes id hin'))⟩

end Drift

/-! ### Runs side by side -/

section

variable [Add K]

/-- Both computations end, with stores that have drifted apart as before, or both stop. In a total
comparison they stop for the same reason; otherwise one of them may stop alone. -/
def Drifts (total : Prop) (A : Accumulators K) (P : Pairing) (m : Exec K α) (s : Store K)
    (m' : Exec K β) (s' : Store K) (Q : Pairing → α → β → Store K → Store K → Prop) : Prop :=
  match m s, m' s' with
  | .ok a t, .ok b t' => ∃ P', P.Within P' ∧ Drift A P' t t' ∧ Kept .shapes s t ∧
      Kept .shapes s' t' ∧ Q P' a b t t'
  | .error e _, .error e' _ => total → e = e'
  | _, _ => ¬ total

/-- The two computations give the same. -/
abbrev SameResult : Pairing → α → α → Store K → Store K → Prop := fun _ a b _ _ => a = b

namespace Drifts

variable {total : Prop} {A : Accumulators K} {P : Pairing} {s s' : Store K}
  {Q Q' : Pairing → α → β → Store K → Store K → Prop}
  {R : Pairing → γ → δ → Store K → Store K → Prop}

theorem pure {a : α} {b : β} (h : Drift A P s s') (hQ : Q P a b s s') :
    Drifts total A P (pure a) s (pure b) s' Q :=
  ⟨P, .refl P, h, .refl _ s, .refl _ s', hQ⟩

theorem stop {e : Stop} :
    Drifts total A P (throw e : Exec K α) s (throw e : Exec K β) s' Q :=
  fun _ => rfl

theorem imp {m : Exec K α} {m' : Exec K β} (hm : Drifts total A P m s m' s' Q)
    (h : ∀ P' a b t t', P.Within P' → Drift A P' t t' → Kept .shapes s t → Q P' a b t t' →
      Q' P' a b t t') : Drifts total A P m s m' s' Q' := by
  unfold Drifts at *
  cases hms : m s <;> cases hms' : m' s' <;> rw [hms, hms'] at hm
  · obtain ⟨P', hP, ht, hk, hk', hQ⟩ := hm
    exact ⟨P', hP, ht, hk, hk', h P' _ _ _ _ hP ht hk hQ⟩
  all_goals exact hm

/-- What follows may forget pairs, but for those of `P₀`. -/
theorem bind_within {P₀ : Pairing} {m : Exec K α} {m' : Exec K β} {f : α → Exec K γ}
    {f' : β → Exec K δ} (hm : Drifts total A P m s m' s' Q)
    (hf : ∀ P' a b t t', P.Within P' → Drift A P' t t' → Kept .shapes s t → Q P' a b t t' →
      Drifts total A P₀ (f a) t (f' b) t' R) : Drifts total A P₀ (m >>= f) s (m' >>= f') s' R := by
  simp only [Drifts, Bind.bind, EStateM.bind] at hm ⊢
  cases hms : m s with
  | error e t =>
    rw [hms] at hm
    cases hms' : m' s' with
    | error e' t' =>
      rw [hms'] at hm
      exact hm
    | ok b t' =>
      rw [hms'] at hm
      dsimp only
      cases f' b t' with
      | ok _ _ => exact hm
      | error _ _ => exact fun htotal => absurd htotal hm
  | ok a t =>
    rw [hms] at hm
    cases hms' : m' s' with
    | error e' t' =>
      rw [hms'] at hm
      dsimp only
      cases f a t with
      | ok _ _ => exact hm
      | error _ _ => exact fun htotal => absurd htotal hm
    | ok b t' =>
      rw [hms'] at hm
      obtain ⟨P', hP, ht, hk, hk', hQ⟩ := hm
      have hend := hf P' a b t t' hP ht hk hQ
      simp only [Drifts] at hend ⊢
      cases hfs : f a t <;> cases hfs' : f' b t' <;> rw [hfs, hfs'] at hend
      · obtain ⟨P'', hP'', hu, hk₁, hk₁', hR⟩ := hend
        exact ⟨P'', hP'', hu, hk.trans hk₁, hk'.trans hk₁', hR⟩
      all_goals exact hend

theorem narrow {P' : Pairing} {m : Exec K α} {m' : Exec K β} (hm : Drifts total A P' m s m' s' Q)
    (hP : P.Within P') : Drifts total A P m s m' s' Q := by
  unfold Drifts at *
  cases hms : m s <;> cases hms' : m' s' <;> rw [hms, hms'] at hm
  · obtain ⟨P'', hP'', hrest⟩ := hm
    exact ⟨P'', hP.trans hP'', hrest⟩
  all_goals exact hm

theorem bind {m : Exec K α} {m' : Exec K β} {f : α → Exec K γ} {f' : β → Exec K δ}
    (hm : Drifts total A P m s m' s' Q)
    (hf : ∀ P' a b t t', P.Within P' → Drift A P' t t' → Kept .shapes s t → Q P' a b t t' →
      Drifts total A P' (f a) t (f' b) t' R) : Drifts total A P (m >>= f) s (m' >>= f') s' R :=
  bind_within hm fun P' a b t t' hP ht hk hQ => (hf P' a b t t' hP ht hk hQ).narrow hP

theorem get_bind {f : Store K → Exec K γ} {f' : Store K → Exec K δ}
    (h : Drifts total A P (f s) s (f' s') s' R) :
    Drifts total A P (get >>= f) s (get >>= f') s' R := h

/-- A scope that both runs have. -/
theorem inScope {Q : α → β → Prop} {m : Exec K α} {m' : Exec K β} (h : Drift A P s s')
    (hm : Drifts total A P m s m' s' fun _ a b _ _ => Q a b) :
    Drifts total A P (Exec.inScope m) s (Exec.inScope m') s' fun _ a b _ _ => Q a b := by
  simp only [Drifts, Exec.inScope] at hm ⊢
  cases hms : m s <;> cases hms' : m' s' <;> rw [hms, hms'] at hm
  · obtain ⟨P', hP, ht, hk, hk', hQ⟩ := hm
    exact ⟨P, .refl P, h.release (ht.mono hP), .release (Guard.shapes_in s) hk,
      .release (Guard.shapes_in s') hk', hQ⟩
  all_goals exact hm

/-- Code that reads no accumulator does the same in both runs, and code that writes none leaves them
as far apart as they were. -/
theorem of_agree {m : Exec K α} {m' : Exec K β} {T : Pairing → α → β → Prop}
    {U : α → Store K → Prop} {U' : β → Store K → Prop} (h : Drift A P s s')
    (hm : Agree Eq P m s m' s' T) (hk : Safe A.guard m s U) (hk' : Safe A.guard m' s' U') :
    Drifts total A P m s m' s' fun P' a b t t' =>
      ∃ P'', P' = P''.sparing A ∧ T P'' a b ∧ U a t ∧ U' b t' := by
  unfold Agree at hm
  unfold Safe at hk hk'
  unfold Drifts
  cases hms : m s <;> cases hms' : m' s' <;> rw [hms, hms'] at hm <;> rw [hms] at hk <;>
    rw [hms'] at hk'
  · obtain ⟨P'', hP, hmatch, hT⟩ := hm
    refine ⟨P''.sparing A, h.spares.within hP, ?_, hk.1.covers A.guard_covers,
      hk'.1.covers A.guard_covers, P'', rfl, hT, hk.2, hk'.2⟩
    exact h.of_kept (hmatch.mono (P''.sparing_within A)) (P''.sparing_spares A) hk.1 hk'.1
  · exact hm.elim
  · exact hm.elim
  · exact fun _ => Stop.eq_of_alike hm.2

end Drifts

/-! ### Variables side by side -/

/-- The variables of `O` stand for accumulators, and the others for storage that corresponds. -/
structure Abreast (A : Accumulators K) (O : String → Bool) (P : Pairing) (env env' : Env)
    (s s' : Store K) : Prop where
  drift : Drift A P s s'
  vars : PairedEnv Eq (fun x => O x = false) [] P env env'
  lent : ∀ x, O x = true → ∃ b, env.lookup x = some b ∧ env'.lookup x = some b ∧ A.Lends s b

theorem Accumulators.Lends.in {A : Accumulators K} {P : Pairing} {s s' : Store K} {b : Binding}
    (h : A.Lends s b) (hd : Drift A P s s') : b.In s ∧ b.In s' := by
  cases b with
  | scalar slot => exact hd.slot_in (slots_of_has h)
  | array id => exact ⟨(hd.arrays id h).1, (hd.arrays id h).2.1⟩
  | tape id => exact h.elim

theorem Drift.binding_in {A : Accumulators K} {P : Pairing} {s s' : Store K} (h : Drift A P s s') :
    ∀ {b c : Binding}, P.binding b c →
      (b.In s ∧ b.Apart A.guard) ∧ c.In s' ∧ c.Apart A.guard
  | .scalar (.cell _), .scalar (.cell _), hbc =>
    ⟨⟨h.paired.cells.lt_left hbc, (h.spares.cell hbc).1⟩, h.paired.cells.lt_right hbc,
      (h.spares.cell hbc).2⟩
  | .scalar (.element _ _), .scalar (.element _ _), hbc =>
    ⟨⟨h.paired.arrays.lt_left hbc.1, (h.spares.array hbc.1).1⟩, h.paired.arrays.lt_right hbc.1,
      (h.spares.array hbc.1).2⟩
  | .array _, .array _, hbc =>
    ⟨⟨h.paired.arrays.lt_left hbc, fun _ => (h.spares.array hbc).1⟩, h.paired.arrays.lt_right hbc,
      fun _ => (h.spares.array hbc).2⟩
  | .tape _, .tape _, hbc =>
    ⟨⟨h.paired.tapes.lt_left hbc, trivial⟩, h.paired.tapes.lt_right hbc, trivial⟩

namespace Abreast

variable {total : Prop} {A : Accumulators K} {O : String → Bool} {P P' : Pairing} {env env' : Env}
  {s s' t t' : Store K}

/-- What a variable stands for in both runs. -/
theorem binding (h : Abreast A O P env env' s s') (x : String) :
    (env.lookup x = none ∧ env'.lookup x = none) ∨
      ∃ b c, env.lookup x = some b ∧ env'.lookup x = some c ∧
        ((O x = true ∧ b = c ∧ A.Lends s b) ∨ (O x = false ∧ P.binding b c)) := by
  cases hO : O x with
  | true =>
    obtain ⟨b, hb, hb', hl⟩ := h.lent x hO
    exact .inr ⟨b, b, hb, hb', .inl ⟨rfl, rfl, hl⟩⟩
  | false =>
    have hrel : Option.Rel P.binding (env.lookup x) (env'.lookup x) := h.vars.bindings x hO
    generalize env.lookup x = o, env'.lookup x = o' at hrel ⊢
    cases hrel with
    | none => exact .inl ⟨rfl, rfl⟩
    | some hbc => exact .inr ⟨_, _, rfl, rfl, .inr ⟨rfl, hbc⟩⟩

/-- Whatever a variable stands for is allocated, and only those of `O` stand for accumulators. -/
theorem binding_in (h : Abreast A O P env env' s s') {x : String} {b c : Binding}
    (hb : env.lookup x = some b) (hc : env'.lookup x = some c) :
    (b.In s ∧ c.In s') ∧ (¬ O x = true → b.Apart A.guard ∧ c.Apart A.guard) := by
  rcases h.binding x with ⟨hnone, _⟩ | ⟨b', c', hb', hc', hcase⟩
  · rw [hb] at hnone
    cases hnone
  obtain rfl := Option.some.inj (hb.symm.trans hb')
  obtain rfl := Option.some.inj (hc.symm.trans hc')
  rcases hcase with ⟨hO, rfl, hl⟩ | ⟨_, hp⟩
  · exact ⟨hl.in h.drift, fun hn => absurd hO hn⟩
  · obtain ⟨hleft, hright⟩ := h.drift.binding_in hp
    exact ⟨⟨hleft.1, hright.1⟩, fun _ => ⟨hleft.2, hright.2⟩⟩

theorem isSome_iff (h : Abreast A O P env env' s s') (x : String) :
    (∃ b, env.lookup x = some b) ↔ ∃ c, env'.lookup x = some c := by
  rcases h.binding x with ⟨hnone, hnone'⟩ | ⟨b, c, hb, hc, _⟩
  · simp [hnone, hnone']
  · simp [hb, hc]

theorem fits (h : Abreast A O P env env' s s') : Fits (fun x => O x = true) A.guard env s where
  guard := h.drift.guard_in
  inside x b hb := by
    obtain ⟨c, hc⟩ := (h.isSome_iff x).mp ⟨b, hb⟩
    exact (h.binding_in hb hc).1.1
  apart x b hb hO := by
    obtain ⟨c, hc⟩ := (h.isSome_iff x).mp ⟨b, hb⟩
    exact ((h.binding_in hb hc).2 hO).1
  tapes _ _ _ _ hid := hid

theorem fits' (h : Abreast A O P env env' s s') :
    Fits (fun x => O x = true) A.guard env' s' where
  guard := h.drift.guard_in'
  inside x c hc := by
    obtain ⟨b, hb⟩ := (h.isSome_iff x).mpr ⟨c, hc⟩
    exact (h.binding_in hb hc).1.2
  apart x c hc hO := by
    obtain ⟨b, hb⟩ := (h.isSome_iff x).mpr ⟨c, hc⟩
    exact ((h.binding_in hb hc).2 hO).2
  tapes _ _ _ _ hid := hid

theorem later (h : Abreast A O P env env' s s') (hP : P.Within P') (ht : Drift A P' t t')
    (hk : Kept .shapes s t) : Abreast A O P' env env' t t' := by
  refine ⟨ht, h.vars.mono hP, fun x hx => ?_⟩
  obtain ⟨b, hb, hb', hl⟩ := h.lent x hx
  refine ⟨b, hb, hb', ?_⟩
  cases b with
  | scalar slot =>
    exact Accumulators.Has.of_shape (h.drift.same_shape hk) hl
  | array id => exact hl
  | tape id => exact hl

/-- A step that reads and writes no accumulator. -/
theorem step (h : Abreast A O P env env' s s') {m m' : Exec K α}
    (hm : Agree Eq P m s m' s' fun _ => Eq) {U U' : α → Store K → Prop} (hk : Safe A.guard m s U)
    (hk' : Safe A.guard m' s' U') :
    Drifts total A P m s m' s' fun P' a b t t' => a = b ∧ Abreast A O P' env env' t t' :=
  (Drifts.of_agree h.drift hm hk hk').imp fun P' a b t t' hP ht hk₁ hQ => by
    obtain ⟨_, _, hab, _, _⟩ := hQ
    exact ⟨hab, h.later hP ht hk₁⟩

end Abreast

end

end Fluxion
