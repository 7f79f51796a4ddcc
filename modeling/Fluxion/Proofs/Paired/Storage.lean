import Mathlib.Data.List.Forall2
import Fluxion.Proofs.Runs.Kept

/-!
Two runs side by side, each on storage of its own. A pairing says which locations of the two stores
correspond: paired locations hold the same, and no location is in two pairs. What both runs allocate
is paired as they go, so that neither run can tell where its storage begins.
-/

namespace Fluxion

variable {K α β γ δ : Type}

/-! ### Arrays side by side -/

/-- Paired positions of two arrays hold the same, and no position is in two pairs. -/
structure Twinned (R : Nat → Nat → Prop) (xs ys : Array α) : Prop where
  same : ∀ {i j}, R i j → ∃ a, xs[i]? = some a ∧ ys[j]? = some a
  unique : ∀ {i j i' j'}, R i j → R i' j' → (i = i' ↔ j = j')

/-- The pairs and one more. -/
def withPair (R : Nat → Nat → Prop) (m n : Nat) : Nat → Nat → Prop :=
  fun i j => R i j ∨ (i = m ∧ j = n)

namespace Twinned

variable {R R' : Nat → Nat → Prop} {xs ys : Array α} {i j : Nat}

theorem lt_left (h : Twinned R xs ys) (hij : R i j) : i < xs.size := by
  obtain ⟨a, ha, _⟩ := h.same hij
  exact (Array.getElem?_eq_some_iff.mp ha).1

theorem lt_right (h : Twinned R xs ys) (hij : R i j) : j < ys.size := by
  obtain ⟨a, _, ha⟩ := h.same hij
  exact (Array.getElem?_eq_some_iff.mp ha).1

theorem getElem?_eq (h : Twinned R xs ys) (hij : R i j) : xs[i]? = ys[j]? := by
  obtain ⟨a, hx, hy⟩ := h.same hij
  rw [hx, hy]

theorem mono (h : Twinned R' xs ys) (hR : ∀ {i j}, R i j → R' i j) : Twinned R xs ys :=
  ⟨fun hij => h.same (hR hij), fun hij hij' => h.unique (hR hij) (hR hij')⟩

/-- What is added to both arrays becomes a pair. -/
theorem push (h : Twinned R xs ys) (a : α) :
    Twinned (withPair R xs.size ys.size) (xs.push a) (ys.push a) where
  same := by
    rintro i j (hij | ⟨rfl, rfl⟩)
    · obtain ⟨b, hx, hy⟩ := h.same hij
      refine ⟨b, ?_, ?_⟩
      · rw [Array.getElem?_push, if_neg (Nat.ne_of_lt (h.lt_left hij)), hx]
      · rw [Array.getElem?_push, if_neg (Nat.ne_of_lt (h.lt_right hij)), hy]
    · exact ⟨a, by simp, by simp⟩
  unique := by
    -- a pair from before lies below both ends, where the new one is
    rintro i j i' j' (hij | ⟨rfl, rfl⟩) (hij' | ⟨rfl, rfl⟩)
    · exact h.unique hij hij'
    · have := h.lt_left hij
      have := h.lt_right hij
      omega
    · have := h.lt_left hij'
      have := h.lt_right hij'
      omega
    · simp

theorem modify (h : Twinned R xs ys) (hij : R i j) (f : α → α) :
    Twinned R (xs.modify i f) (ys.modify j f) where
  same := by
    intro k l hkl
    obtain ⟨a, hx, hy⟩ := h.same hkl
    have hiff := h.unique hij hkl
    by_cases hik : i = k
    · exact ⟨f a, by simp [Array.getElem?_modify, hik, hx],
        by simp [Array.getElem?_modify, hiff.mp hik, hy]⟩
    · exact ⟨a, by simp [Array.getElem?_modify, hik, hx],
        by simp [Array.getElem?_modify, mt hiff.mpr hik, hy]⟩
  unique := h.unique

theorem take_left {n : Nat} (h : Twinned R xs ys) (hn : ∀ {i j}, R i j → i < n) :
    Twinned R (xs.take n) ys where
  same := by
    intro k l hkl
    obtain ⟨a, hx, hy⟩ := h.same hkl
    exact ⟨a, by rw [getElem?_take_of_lt (hn hkl), hx], hy⟩
  unique := h.unique

theorem take_right {n : Nat} (h : Twinned R xs ys) (hn : ∀ {i j}, R i j → j < n) :
    Twinned R xs (ys.take n) where
  same := by
    intro k l hkl
    obtain ⟨a, hx, hy⟩ := h.same hkl
    exact ⟨a, hx, by rw [getElem?_take_of_lt (hn hkl), hy]⟩
  unique := h.unique

end Twinned

/-! ### Stores side by side -/

/-- Which cells, arrays and tapes of two stores correspond. -/
structure Pairing where
  cell : Nat → Nat → Prop
  array : Nat → Nat → Prop
  tape : Nat → Nat → Prop

namespace Pairing

/-- Nothing corresponds. -/
def nothing : Pairing := ⟨fun _ _ => False, fun _ _ => False, fun _ _ => False⟩

/-- All storage of a store corresponds to itself. -/
def identity (s : Store K) : Pairing where
  cell i j := i = j ∧ i < s.cells.size
  array i j := i = j ∧ i < s.arrays.size
  tape i j := i = j ∧ i < s.tapes.size

/-- What is paired in the first is paired in the second. -/
structure Within (P P' : Pairing) : Prop where
  cell : ∀ {i j}, P.cell i j → P'.cell i j
  array : ∀ {i j}, P.array i j → P'.array i j
  tape : ∀ {i j}, P.tape i j → P'.tape i j

theorem Within.refl (P : Pairing) : P.Within P := ⟨id, id, id⟩

theorem Within.trans {P P' P'' : Pairing} (h : P.Within P') (h' : P'.Within P'') : P.Within P'' :=
  ⟨fun hc => h'.cell (h.cell hc), fun ha => h'.array (h.array ha), fun ht => h'.tape (h.tape ht)⟩

def slot (P : Pairing) : Slot → Slot → Prop
  | .cell i, .cell j => P.cell i j
  | .element a i, .element b j => P.array a b ∧ i = j
  | _, _ => False

def binding (P : Pairing) : Binding → Binding → Prop
  | .scalar x, .scalar y => P.slot x y
  | .array a, .array b => P.array a b
  | .tape a, .tape b => P.tape a b
  | _, _ => False

/-- Both give the same value, or corresponding storage. -/
def operand (P : Pairing) : Operand K → Operand K → Prop
  | .value v, .value w => v = w
  | .place x v, .place y w => P.slot x y ∧ v = w
  | .array a, .array b => P.array a b
  | .tape a, .tape b => P.tape a b
  | _, _ => False

def bound (P : Pairing) : Bound K → Bound K → Prop
  | .value v, .value w => v = w
  | .slot x, .slot y => P.slot x y
  | .array a, .array b => P.array a b
  | .tape a, .tape b => P.tape a b
  | _, _ => False

section

variable {P P' : Pairing} (h : P.Within P')

include h

theorem Within.slot : ∀ {x y : Slot}, P.slot x y → P'.slot x y
  | .cell _, .cell _, hs => h.cell hs
  | .element _ _, .element _ _, hs => ⟨h.array hs.1, hs.2⟩

theorem Within.binding : ∀ {b c : Binding}, P.binding b c → P'.binding b c
  | .scalar _, .scalar _, hb => h.slot hb
  | .array _, .array _, hb => h.array hb
  | .tape _, .tape _, hb => h.tape hb

theorem Within.operand : ∀ {o p : Operand K}, P.operand o p → P'.operand o p
  | .value _, .value _, ho => ho
  | .place _ _, .place _ _, ho => ⟨h.slot ho.1, ho.2⟩
  | .array _, .array _, ho => h.array ho
  | .tape _, .tape _, ho => h.tape ho

theorem Within.bound : ∀ {b c : Bound K}, P.bound b c → P'.bound b c
  | .value _, .value _, hb => hb
  | .slot _, .slot _, hb => h.slot hb
  | .array _, .array _, hb => h.array hb
  | .tape _, .tape _, hb => h.tape hb

end

end Pairing

/-- Paired storage of the two stores holds the same, and nothing is in two pairs. -/
structure Matches (P : Pairing) (s s' : Store K) : Prop where
  cells : Twinned P.cell s.cells s'.cells
  arrays : Twinned P.array s.arrays s'.arrays
  tapes : Twinned P.tape s.tapes s'.tapes

namespace Matches

variable {P P' : Pairing} {s s' t t' : Store K}

theorem nothing (s s' : Store K) : Matches .nothing s s' :=
  ⟨⟨False.elim, fun h => h.elim⟩, ⟨False.elim, fun h => h.elim⟩, ⟨False.elim, fun h => h.elim⟩⟩

theorem identity (s : Store K) : Matches (.identity s) s s := by
  have hself : ∀ {α : Type} (xs : Array α), Twinned (fun i j => i = j ∧ i < xs.size) xs xs := by
    intro α xs
    refine ⟨?_, ?_⟩
    · rintro i j ⟨rfl, hi⟩
      exact ⟨xs[i], by simp [hi]⟩
    · rintro i j i' j' ⟨rfl, _⟩ ⟨rfl, _⟩
      rfl
  exact ⟨hself _, hself _, hself _⟩

theorem mono (h : Matches P' s s') (hP : P.Within P') : Matches P s s' :=
  ⟨h.cells.mono hP.cell, h.arrays.mono hP.array, h.tapes.mono hP.tape⟩

theorem array_eq (h : Matches P s s') {a b : Nat} (hab : P.array a b) : s.array a = s'.array b := by
  rw [Store.array, Store.array, h.arrays.getElem?_eq hab]

theorem tape_eq (h : Matches P s s') {a b : Nat} (hab : P.tape a b) : s.tape a = s'.tape b := by
  rw [Store.tape, Store.tape, h.tapes.getElem?_eq hab]

theorem read_eq (h : Matches P s s') : ∀ {x y : Slot}, P.slot x y → s.read x = s'.read y
  | .cell _, .cell _, hxy => by
    rw [Store.read, Store.read, h.cells.getElem?_eq hxy]
  | .element _ _, .element _ _, hxy => by
    obtain ⟨hab, rfl⟩ := hxy
    rw [Store.read, Store.read, h.arrays.getElem?_eq hab]

theorem write [Scalar K] (h : Matches P s s') (v : Value K) :
    ∀ {x y : Slot}, P.slot x y → Matches P (s.write x v) (s'.write y v)
  | .cell _, .cell _, hxy => ⟨h.cells.modify hxy fun old => v.coerce old.ty, h.arrays, h.tapes⟩
  | .element _ i, .element _ _, hxy => by
    obtain ⟨hab, rfl⟩ := hxy
    exact ⟨h.cells, h.arrays.modify hab fun b =>
      { b with data := b.data.modify i fun old => v.coerce old.ty }, h.tapes⟩

theorem push [Scalar K] (h : Matches P s s') {a b : Nat} (hab : P.tape a b) (v : Value K) :
    Matches P (s.push a v) (s'.push b v) :=
  ⟨h.cells, h.arrays,
    h.tapes.modify hab fun b => { b with data := b.data.push (v.coerce b.elem) }⟩

theorem drop (h : Matches P s s') {a b : Nat} (hab : P.tape a b) :
    Matches P (s.drop a) (s'.drop b) :=
  ⟨h.cells, h.arrays, h.tapes.modify hab fun b => { b with data := b.data.pop }⟩

theorem newCell (h : Matches P s s') (v : Value K) :
    Matches { P with cell := withPair P.cell s.cells.size s'.cells.size }
      { s with cells := s.cells.push v } { s' with cells := s'.cells.push v } :=
  ⟨h.cells.push v, h.arrays, h.tapes⟩

theorem newArray (h : Matches P s s') (b : Buffer K) :
    Matches { P with array := withPair P.array s.arrays.size s'.arrays.size }
      { s with arrays := s.arrays.push b } { s' with arrays := s'.arrays.push b } :=
  ⟨h.cells, h.arrays.push b, h.tapes⟩

theorem newTape (h : Matches P s s') (b : Buffer K) :
    Matches { P with tape := withPair P.tape s.tapes.size s'.tapes.size }
      { s with tapes := s.tapes.push b } { s' with tapes := s'.tapes.push b } :=
  ⟨h.cells, h.arrays, h.tapes.push b⟩

/-- What was paired before a scope stays so when the first run leaves its scope. -/
theorem release_left (h : Matches P s s') (ht : Matches P t t') :
    Matches P (t.release s.marks) t' :=
  ⟨ht.cells.take_left fun hc => h.cells.lt_left hc,
    ht.arrays.take_left fun ha => h.arrays.lt_left ha,
    ht.tapes.take_left fun hp => h.tapes.lt_left hp⟩

/-- What was paired before a scope stays so when the second run leaves its scope. -/
theorem release_right (h : Matches P s s') (ht : Matches P t t') :
    Matches P t (t'.release s'.marks) :=
  ⟨ht.cells.take_right fun hc => h.cells.lt_right hc,
    ht.arrays.take_right fun ha => h.arrays.lt_right ha,
    ht.tapes.take_right fun hp => h.tapes.lt_right hp⟩

end Matches

/-! ### Errors side by side -/

/-- The faults are the same, but for names of variables that `N` relates. -/
def TypeFault.Alike (N : String → String → Prop) : TypeFault → TypeFault → Prop
  | .notScalar x, .notScalar y => N x y
  | .notArray x, .notArray y => N x y
  | .notTape x, .notTape y => N x y
  | .arrayLocal x, .arrayLocal y => N x y
  | .localType x t, .localType y u => N x y ∧ t = u
  | f, g => f = g

/-- The errors are the same, but for names of variables that `N` relates. -/
def RuntimeError.Alike (N : String → String → Prop) : RuntimeError → RuntimeError → Prop
  | .unbound x, .unbound y => N x y
  | .indexOutOfBounds x i n, .indexOutOfBounds y j m => N x y ∧ i = j ∧ n = m
  | .emptyTape x, .emptyTape y => N x y
  | .type f, .type g => f.Alike N g
  | e, e' => e = e'

/-- The runs stop for the same reason, but for names of variables that `N` relates. -/
def Stop.Alike (N : String → String → Prop) : Stop → Stop → Prop
  | .fault e, .fault e' => e.Alike N e'
  | e, e' => e = e'

section

variable {N : String → String → Prop}

theorem RuntimeError.alike_refl (hN : ∀ x, N x x) (e : RuntimeError) : e.Alike N e := by
  cases e with
  | type f => cases f <;> simp [Alike, TypeFault.Alike, hN]
  | _ => simp [Alike, hN]

theorem Stop.eq_of_alike {e e' : Stop} (h : e.Alike Eq e') : e = e' := by
  cases e with
  | fault e =>
    cases e' with
    | fault e' =>
      cases e <;> cases e' <;> simp_all [Alike, RuntimeError.Alike]
      rename_i f g
      cases f <;> cases g <;> simp_all [TypeFault.Alike]
    | _ => cases h
  | _ => exact h

end

/-! ### Computations side by side -/

/-- Both computations end, with results and storage that correspond, or both stop for the same
reason. -/
def Agree (N : String → String → Prop) (P : Pairing) (m : Exec K α) (s : Store K) (m' : Exec K β)
    (s' : Store K) (Q : Pairing → α → β → Prop) : Prop :=
  match m s, m' s' with
  | .ok a t, .ok b t' => ∃ P', P.Within P' ∧ Matches P' t t' ∧ Q P' a b
  | .error e t, .error e' t' => Matches P t t' ∧ e.Alike N e'
  | _, _ => False

namespace Agree

variable {N : String → String → Prop} {P : Pairing} {s s' : Store K} {Q Q' : Pairing → α → β → Prop}
  {R : Pairing → γ → δ → Prop}

theorem pure {a : α} {b : β} (h : Matches P s s') (hQ : Q P a b) :
    Agree N P (pure a) s (pure b) s' Q :=
  ⟨P, .refl P, h, hQ⟩

theorem stop {e e' : Stop} (h : Matches P s s') (he : e.Alike N e') :
    Agree N P (throw e : Exec K α) s (throw e' : Exec K β) s' Q :=
  ⟨h, he⟩

theorem fail {e e' : RuntimeError} (h : Matches P s s') (he : e.Alike N e') :
    Agree N P (Exec.fail e : Exec K α) s (Exec.fail e' : Exec K β) s' Q :=
  ⟨h, he⟩

/-- Fewer pairs are asked for. -/
theorem narrow {P' : Pairing} {m : Exec K α} {m' : Exec K β} (hm : Agree N P' m s m' s' Q)
    (hP : P.Within P') : Agree N P m s m' s' Q := by
  unfold Agree at *
  cases hms : m s <;> cases hms' : m' s' <;> rw [hms, hms'] at hm
  · obtain ⟨P'', hP'', hmatch, hQ⟩ := hm
    exact ⟨P'', hP.trans hP'', hmatch, hQ⟩
  · exact hm.elim
  · exact hm.elim
  · exact ⟨hm.1.mono hP, hm.2⟩

theorem imp {m : Exec K α} {m' : Exec K β} (hm : Agree N P m s m' s' Q)
    (h : ∀ P' a b, P.Within P' → Q P' a b → Q' P' a b) : Agree N P m s m' s' Q' := by
  unfold Agree at *
  cases hms : m s <;> cases hms' : m' s' <;> rw [hms, hms'] at hm
  · obtain ⟨P', hP', hmatch, hQ⟩ := hm
    exact ⟨P', hP', hmatch, h P' _ _ hP' hQ⟩
  · exact hm.elim
  · exact hm.elim
  · exact hm

/-- What follows may forget pairs that the first step knew of, but for those of `P₀`. -/
theorem bind_within {P₀ : Pairing} {m : Exec K α} {m' : Exec K β} {f : α → Exec K γ}
    {f' : β → Exec K δ} (hP : P₀.Within P) (hm : Agree N P m s m' s' Q)
    (hf : ∀ P' a b t t', P.Within P' → Matches P' t t' → Q P' a b →
      Agree N P₀ (f a) t (f' b) t' R) : Agree N P₀ (m >>= f) s (m' >>= f') s' R := by
  simp only [Agree, Bind.bind, EStateM.bind] at hm ⊢
  cases hms : m s <;> cases hms' : m' s' <;> rw [hms, hms'] at hm
  · obtain ⟨P', hP', hmatch, hQ⟩ := hm
    exact hf P' _ _ _ _ hP' hmatch hQ
  · exact hm.elim
  · exact hm.elim
  · exact ⟨hm.1.mono hP, hm.2⟩

theorem bind {m : Exec K α} {m' : Exec K β} {f : α → Exec K γ} {f' : β → Exec K δ}
    (hm : Agree N P m s m' s' Q)
    (hf : ∀ P' a b t t', P.Within P' → Matches P' t t' → Q P' a b →
      Agree N P' (f a) t (f' b) t' R) : Agree N P (m >>= f) s (m' >>= f') s' R :=
  bind_within (.refl P) hm fun P' a b t t' hP ht hQ => (hf P' a b t t' hP ht hQ).narrow hP

/-- Steps that give the same value. -/
theorem bind_eq {m m' : Exec K α} {f : α → Exec K γ} {f' : α → Exec K δ}
    (hm : Agree N P m s m' s' fun _ => Eq)
    (hf : ∀ P' a t t', P.Within P' → Matches P' t t' → Agree N P' (f a) t (f' a) t' R) :
    Agree N P (m >>= f) s (m' >>= f') s' R := by
  refine hm.bind fun P' a b t t' hP ht hab => ?_
  subst hab
  exact hf P' a t t' hP ht

theorem get_bind {f : Store K → Exec K γ} {f' : Store K → Exec K δ}
    (h : Agree N P (f s) s (f' s') s' R) :
    Agree N P (get >>= f) s (get >>= f') s' R := h

theorem require {e e' : RuntimeError} {o : Option α} {o' : Option β} (h : Matches P s s')
    (he : e.Alike N e') (ho : Option.Rel (Q P) o o') :
    Agree N P (Exec.require e o) s (Exec.require e' o') s' Q := by
  cases ho with
  | none => exact .fail h he
  | some hQ => exact .pure h hQ

/-! ### Scopes -/

section

variable {Q : α → β → Prop} {m : Exec K α} {m' : Exec K β}

theorem inScope_left (h : Matches P s s') (hm : Agree N P m s m' s' fun _ => Q) :
    Agree N P (Exec.inScope m) s m' s' fun _ => Q := by
  simp only [Agree, Exec.inScope] at hm ⊢
  cases hms : m s <;> cases hms' : m' s' <;> rw [hms, hms'] at hm
  · obtain ⟨P', hP', hmatch, hQ⟩ := hm
    exact ⟨P, .refl P, h.release_left (hmatch.mono hP'), hQ⟩
  · exact hm.elim
  · exact hm.elim
  · exact ⟨h.release_left hm.1, hm.2⟩

theorem inScope_right (h : Matches P s s') (hm : Agree N P m s m' s' fun _ => Q) :
    Agree N P m s (Exec.inScope m') s' fun _ => Q := by
  simp only [Agree, Exec.inScope] at hm ⊢
  cases hms : m s <;> cases hms' : m' s' <;> rw [hms, hms'] at hm
  · obtain ⟨P', hP', hmatch, hQ⟩ := hm
    exact ⟨P, .refl P, h.release_right (hmatch.mono hP'), hQ⟩
  · exact hm.elim
  · exact hm.elim
  · exact ⟨h.release_right hm.1, hm.2⟩

theorem inScope (h : Matches P s s') (hm : Agree N P m s m' s' fun _ => Q) :
    Agree N P (Exec.inScope m) s (Exec.inScope m') s' fun _ => Q :=
  (hm.inScope_left h).inScope_right h

/-- A scope that only the first run has: it ends with a release, wherever the second run is. -/
theorem inScope_bind_left {R : Pairing → γ → β → Prop} {f : α → Exec K γ} (h : Matches P s s')
    (hm : Agree N P (m >>= fun a => do modify (·.release s.marks); f a) s m' s' R) :
    Agree N P (Exec.inScope m >>= f) s m' s' R := by
  simp only [Agree, Exec.inScope, Bind.bind, EStateM.bind] at hm ⊢
  cases hms : m s with
  | ok a t =>
    rw [hms] at hm
    exact hm
  | error e t =>
    rw [hms] at hm
    cases hms' : m' s' <;> rw [hms'] at hm
    · exact hm.elim
    · exact ⟨h.release_left hm.1, hm.2⟩

end

end Agree

end Fluxion
