import Fluxion.Proofs.Accumulated.Calls
import Fluxion.Proofs.Accumulated.Gradients
import Fluxion.Proofs.Numbers.Rational
import Fluxion.Proofs.Session.Loaded

/-!
Two runs of an error estimate on arguments that differ in what the adjoint outputs hold. Outputs are
accumulators: where both runs end, each increases by the same in both. The estimate of a scalar that
the function does not assign has a last term that reads its output after the sweep, so the whole
error increases by the same when these outputs start alike, and not otherwise.
-/

namespace Fluxion

variable {K : Type} {A : Accumulators K} {P : Pairing} {s s' : Store K}

/-! ### More accumulators -/

theorem Twinned.push_both {α : Type} {R : Nat → Nat → Prop} {xs ys : Array α} (h : Twinned R xs ys)
    (a b : α) : Twinned R (xs.push a) (ys.push b) where
  same := by
    intro i j hij
    obtain ⟨c, hx, hy⟩ := h.same hij
    refine ⟨c, ?_, ?_⟩
    · rw [Array.getElem?_push, if_neg (Nat.ne_of_lt (h.lt_left hij)), hx]
    · rw [Array.getElem?_push, if_neg (Nat.ne_of_lt (h.lt_right hij)), hy]
  unique := h.unique

namespace Accumulators

/-- What is an accumulator in the first is the same one in the second. -/
structure Within (A A' : Accumulators K) : Prop where
  cell : ∀ {i}, A.cell i → A'.cell i
  array : ∀ {id}, A.array id → A'.array id
  ahead : ∀ slot, A.slots slot → A'.ahead slot = A.ahead slot

theorem Within.refl (A : Accumulators K) : A.Within A := ⟨id, id, fun _ _ => rfl⟩

theorem Within.slots {A A' : Accumulators K} (h : A.Within A') : ∀ {slot : Slot}, A.slots slot →
    A'.slots slot
  | .cell _, hs => h.cell hs
  | .element _ _, hs => h.array hs

theorem Within.trans {A A' A'' : Accumulators K} (h : A.Within A') (h' : A'.Within A'') :
    A.Within A'' :=
  ⟨fun hc => h'.cell (h.cell hc), fun ha => h'.array (h.array ha), fun slot hs =>
    (h'.ahead slot (h.slots hs)).trans (h.ahead slot hs)⟩

theorem Within.has {A A' : Accumulators K} (h : A.Within A') {s : Store K} : ∀ {slot : Slot},
    A.Has s slot → A'.Has s slot
  | .cell _, hs => h.cell hs
  | .element _ _, hs => ⟨h.array hs.1, hs.2⟩

/-- One more cell. -/
def withCell (A : Accumulators K) (i : Nat) (d : K) : Accumulators K where
  cell j := A.cell j ∨ j = i
  array := A.array
  ahead slot := if slot = .cell i then d else A.ahead slot

/-- One more array. -/
def withArray (A : Accumulators K) (id : Nat) (d : Nat → K) : Accumulators K where
  cell := A.cell
  array a := A.array a ∨ a = id
  ahead
    | .element a i => if a = id then d i else A.ahead (.element a i)
    | .cell i => A.ahead (.cell i)

theorem within_withCell {i : Nat} (hi : ¬ A.cell i) (d : K) : A.Within (A.withCell i d) := by
  refine ⟨.inl, id, fun slot hs => if_neg ?_⟩
  rintro rfl
  exact hi hs

theorem within_withArray {id : Nat} (hid : ¬ A.array id) (d : Nat → K) :
    A.Within (A.withArray id d) := by
  refine ⟨fun h => h, .inl, fun slot hs => ?_⟩
  cases slot with
  | cell i => rfl
  | element a i => exact if_neg fun (ha : a = id) => hid (ha ▸ hs)

end Accumulators

namespace Drift

variable [Add K]

theorem withCell (h : Drift A P s s') {i : Nat} (hi : ¬ A.cell i)
    (hfree : ∀ j, ¬ P.cell i j ∧ ¬ P.cell j i) {a d : K} (hread : s.read (.cell i) = .float a)
    (hread' : s'.read (.cell i) = .float (a + d)) : Drift (A.withCell i d) P s s' where
  paired := h.paired
  spares := by
    refine ⟨fun {j k} hjk => ?_, h.spares.array⟩
    obtain ⟨hj, hk⟩ := h.spares.cell hjk
    refine ⟨fun hc => hc.elim hj ?_, fun hc => hc.elim hk ?_⟩
    · rintro rfl
      exact (hfree k).1 hjk
    · rintro rfl
      exact (hfree j).2 hjk
  held slot hs := by
    by_cases heq : slot = .cell i
    · subst heq
      exact ⟨a, hread, by simpa [Accumulators.withCell] using hread'⟩
    · have hold : A.Has s slot := by
        cases slot with
        | cell j => exact hs.resolve_right fun hj => heq (hj ▸ rfl)
        | element b j => exact hs
      simpa [Accumulators.withCell, heq] using h.held slot hold
  arrays := h.arrays

theorem withArray (h : Drift A P s s') {id : Nat} (hid : ¬ A.array id)
    (hfree : ∀ b, ¬ P.array id b ∧ ¬ P.array b id) {d : Nat → K}
    (hin : id < s.arrays.size ∧ id < s'.arrays.size ∧ s.SameShape s' id)
    (hread : ∀ i < (s.array id).data.size, ∃ a : K, s.read (.element id i) = .float a ∧
      s'.read (.element id i) = .float (a + d i)) : Drift (A.withArray id d) P s s' where
  paired := h.paired
  spares := by
    refine ⟨h.spares.cell, fun {a b} hab => ?_⟩
    obtain ⟨ha, hb⟩ := h.spares.array hab
    refine ⟨fun hc => hc.elim ha ?_, fun hc => hc.elim hb ?_⟩
    · rintro rfl
      exact (hfree b).1 hab
    · rintro rfl
      exact (hfree a).2 hab
  held slot hs := by
    cases slot with
    | cell i => exact h.held (.cell i) hs
    | element a i =>
      by_cases ha : a = id
      · subst ha
        simpa [Accumulators.withArray] using hread i hs.2
      · simpa [Accumulators.withArray, ha] using
          h.held (.element a i) ⟨hs.1.resolve_right ha, hs.2⟩
  arrays a ha := by
    rcases ha with ha | rfl
    · exact h.arrays a ha
    · exact hin

end Drift

/-! ### Arguments -/

/-- The arguments are of the same kind, and arrays have the same length. -/
def Arg.SameForm : Arg K → Arg K → Prop
  | .ref _, .ref _ => True
  | .array vs, .array ws => vs.length = ws.length
  | a, b => a = b

namespace Accumulators

/-- The parameter is bound to an accumulator, which is ahead by as much as the arguments differ. -/
inductive Starts [Add K] (A : Accumulators K) (s : Store K) : Bound K → Arg K → Arg K → Prop
  | slot {slot : Slot} {v v' : K} (has : A.Has s slot) (ahead : v + A.ahead slot = v') :
    Starts A s (.slot slot) (.ref v) (.ref v')
  | array {id : Nat} {vs vs' : List K} (has : A.array id)
      (size : (s.array id).data.size = vs.length) (len : vs'.length = vs.length)
      (ahead : ∀ i v v', vs[i]? = some v → vs'[i]? = some v' → v + A.ahead (.element id i) = v') :
    Starts A s (.array id) (.array vs) (.array vs')

/-- The arguments are the same and bound to storage that corresponds, or are lent and differ as
accumulators do. -/
def Passed [Add K] (A : Accumulators K) (P : Pairing) (s : Store K) (lent : Bool) (b : Bound K)
    (a a' : Arg K) : Prop :=
  (lent = false ∧ (P.bound b b ∧ ∀ id, b ≠ .tape id) ∧ a = a') ∨ lent = true ∧ A.Starts s b a a'

theorem Starts.later [Add K] {A A' : Accumulators K} {s t : Store K} {b : Bound K} {a a' : Arg K}
    (h : A.Starts s b a a') (hA : A.Within A') (hshape : ∀ id, A.array id → s.SameShape t id) :
    A'.Starts t b a a' := by
  cases h with
  | slot has ahead =>
    refine .slot (hA.has (has.of_shape hshape)) ?_
    rwa [hA.ahead _ (slots_of_has has)]
  | array has size len ahead =>
    refine .array (hA.array has) ((hshape _ has).2.trans size) len fun i v v' hv hv' => ?_
    rw [hA.ahead (.element _ i) has]
    exact ahead i v v' hv hv'

theorem Passed.later [Add K] {A A' : Accumulators K} {P P' : Pairing} {s t : Store K} {lent : Bool}
    {b : Bound K} {a a' : Arg K} (h : A.Passed P s lent b a a') (hA : A.Within A') (hP : P.Within P')
    (hshape : ∀ id, A.array id → s.SameShape t id) : A'.Passed P' t lent b a a' :=
  h.imp (fun ⟨hlent, hb, ha⟩ => ⟨hlent, ⟨hP.bound hb.1, hb.2⟩, ha⟩)
    fun ⟨hlent, h⟩ => ⟨hlent, h.later hA hshape⟩

end Accumulators

/-- As many cells and arrays. -/
def Store.SameSize (s s' : Store K) : Prop :=
  s.cells.size = s'.cells.size ∧ s.arrays.size = s'.arrays.size

section

variable [ExactScalar K] {α β : Type}

/-- Both computations stop for the same reason, or end with the same, and with more accumulators. -/
def Opens (A : Accumulators K) (P : Pairing) (m : Exec K α) (s : Store K) (m' : Exec K α)
    (s' : Store K) (Q : Accumulators K → Pairing → α → Store K → Prop) : Prop :=
  (∃ e t t', m s = .error e t ∧ m' s' = .error e t') ∨
    ∃ A' P' a t t', (m s = .ok a t ∧ m' s' = .ok a t') ∧
      ((A.Within A' ∧ P.Within P' ∧ Kept .shapes s t) ∧ Drift A' P' t t' ∧ t.SameSize t') ∧
      Q A' P' a t

namespace Opens

variable {Q : Accumulators K → Pairing → α → Store K → Prop}
  {R : Accumulators K → Pairing → β → Store K → Prop}

theorem pure {a : α} (h : Drift A P s s') (hs : s.SameSize s') (hQ : Q A P a s) :
    Opens A P (pure a) s (pure a) s' Q :=
  .inr ⟨A, P, a, s, s', ⟨rfl, rfl⟩, ⟨⟨.refl A, .refl P, .refl _ s⟩, h, hs⟩, hQ⟩

theorem stop {e : Stop} : Opens A P (throw e : Exec K α) s (throw e) s' Q :=
  .inl ⟨e, s, s', rfl, rfl⟩

theorem bind {m m' : Exec K α} {f f' : α → Exec K β} (hm : Opens A P m s m' s' Q)
    (hf : ∀ A' P' a t t', A.Within A' → P.Within P' → Kept .shapes s t → Drift A' P' t t' →
      t.SameSize t' → Q A' P' a t → Opens A' P' (f a) t (f' a) t' R) :
    Opens A P (m >>= f) s (m' >>= f') s' R := by
  rcases hm with ⟨e, t, t', hm, hm'⟩ | ⟨A', P', a, t, t', ⟨hm, hm'⟩, ⟨⟨hA, hP, hk⟩, hd, hs⟩, hQ⟩
  · exact .inl ⟨e, t, t', by simp [Bind.bind, EStateM.bind, hm],
      by simp [Bind.bind, EStateM.bind, hm']⟩
  · have hstep : ∀ r, (m >>= f) s = r ↔ f a t = r := by simp [Bind.bind, EStateM.bind, hm]
    have hstep' : ∀ r, (m' >>= f') s' = r ↔ f' a t' = r := by simp [Bind.bind, EStateM.bind, hm']
    simp only [Opens, hstep, hstep']
    rcases hf A' P' a t t' hA hP hk hd hs hQ with herror |
      ⟨A'', P'', b, u, u', hok, ⟨⟨hA', hP', hk'⟩, hend⟩, hR⟩
    · exact .inl herror
    · exact .inr ⟨A'', P'', b, u, u', hok, ⟨⟨hA.trans hA', hP.trans hP', hk.trans hk'⟩, hend⟩, hR⟩

/-- A cell that both runs fill alike. -/
theorem newCell (h : Drift A P s s') (hs : s.SameSize s') (v : Value K) :
    Opens A P (Exec.newCell v) s (Exec.newCell v) s' fun _ P' slot _ => P'.slot slot slot := by
  obtain ⟨hcells, harrays⟩ := hs
  refine .inr ⟨A, { P with cell := withPair P.cell s.cells.size s'.cells.size }, .cell s.cells.size,
    { s with cells := s.cells.push v }, { s' with cells := s'.cells.push v },
    ⟨rfl, by rw [hcells]; rfl⟩, ⟨⟨.refl A, ⟨.inl, id, id⟩, .newCell (Guard.shapes_in s) v⟩, ?_, ?_⟩, ?_⟩
  · refine h.of_kept ⟨h.paired.cells.push v, h.paired.arrays, h.paired.tapes⟩ ⟨?_, h.spares.array⟩
      (.newCell h.guard_in v) (.newCell h.guard_in' v)
    rintro i j (hij | ⟨rfl, rfl⟩)
    · exact h.spares.cell hij
    · exact ⟨fun hc => Nat.lt_irrefl _ (h.cell_lt hc).1, fun hc => Nat.lt_irrefl _ (h.cell_lt hc).2⟩
  · exact ⟨by simp [hcells], harrays⟩
  · exact .inr ⟨rfl, hcells⟩

/-- A cell that is an accumulator. -/
theorem newCell_lent (h : Drift A P s s') (hs : s.SameSize s') (v v' : K) :
    Opens A P (do return Bound.slot (← Exec.newCell (.float v))) s
      (do return .slot (← Exec.newCell (.float v'))) s'
      fun A' _ b t => A'.Starts t b (.ref v) (.ref v') := by
  obtain ⟨hcells, harrays⟩ := hs
  let t : Store K := { s with cells := s.cells.push (.float v) }
  let t' : Store K := { s' with cells := s'.cells.push (.float v') }
  have hnew : ¬ A.cell s.cells.size := fun hc => Nat.lt_irrefl _ (h.cell_lt hc).1
  have hold : Drift A P t t' :=
    h.of_kept ⟨h.paired.cells.push_both _ _, h.paired.arrays, h.paired.tapes⟩ h.spares
      (.newCell h.guard_in _) (.newCell h.guard_in' _)
  have hread : t.read (.cell s.cells.size) = .float v := by simp [t, Store.read]
  have hread' : t'.read (.cell s.cells.size) = .float (v + (v' - v)) := by
    simp [t', Store.read, hcells]
  refine .inr ⟨A.withCell s.cells.size (v' - v), P, .slot (.cell s.cells.size), t, t',
    ⟨rfl, by rw [hcells]; rfl⟩, ⟨⟨A.within_withCell hnew _, .refl P, .newCell (Guard.shapes_in s) _⟩,
      hold.withCell hnew (fun j => ⟨fun hp => ?_, fun hp => ?_⟩) hread hread', ?_⟩, ?_⟩
  · exact Nat.lt_irrefl _ (h.paired.cells.lt_left hp)
  · exact Nat.lt_irrefl _ (hcells ▸ h.paired.cells.lt_right hp)
  · exact ⟨by simp [t, t', hcells], harrays⟩
  · exact .slot (.inr rfl) (by simp [Accumulators.withCell])

/-- An array that both runs fill alike. -/
theorem newArray (h : Drift A P s s') (hs : s.SameSize s') (b : Buffer K) :
    Opens A P (Exec.newArray b) s (Exec.newArray b) s' fun _ P' id _ => P'.array id id := by
  obtain ⟨hcells, harrays⟩ := hs
  refine .inr ⟨A, { P with array := withPair P.array s.arrays.size s'.arrays.size }, s.arrays.size,
    { s with arrays := s.arrays.push b }, { s' with arrays := s'.arrays.push b },
    ⟨rfl, by rw [harrays]; rfl⟩,
    ⟨⟨.refl A, ⟨id, .inl, id⟩, .newArray (Guard.shapes_in s) b⟩, ?_, ?_⟩, ?_⟩
  · refine h.of_kept ⟨h.paired.cells, h.paired.arrays.push b, h.paired.tapes⟩ ⟨h.spares.cell, ?_⟩
      (.newArray h.guard_in b) (.newArray h.guard_in' b)
    rintro i j (hij | ⟨rfl, rfl⟩)
    · exact h.spares.array hij
    · exact ⟨fun ha => Nat.lt_irrefl _ (h.arrays _ ha).1,
        fun ha => Nat.lt_irrefl _ (h.arrays _ ha).2.1⟩
  · exact ⟨hcells, by simp [harrays]⟩
  · exact .inr ⟨rfl, harrays⟩

/-- An array that is an accumulator. -/
theorem newArray_lent (h : Drift A P s s') (hs : s.SameSize s') {vs vs' : List K}
    (hlen : vs'.length = vs.length) :
    Opens A P (do return Bound.array (← Exec.newArray ⟨.float, (vs.map .float).toArray⟩)) s
      (do return .array (← Exec.newArray ⟨.float, (vs'.map .float).toArray⟩)) s'
      fun A' _ b t => A'.Starts t b (.array vs) (.array vs') := by
  obtain ⟨hcells, harrays⟩ := hs
  let id := s.arrays.size
  let t : Store K := { s with arrays := s.arrays.push ⟨.float, (vs.map .float).toArray⟩ }
  let t' : Store K := { s' with arrays := s'.arrays.push ⟨.float, (vs'.map .float).toArray⟩ }
  let d : Nat → K := fun i => vs'[i]?.getD 0 - vs[i]?.getD 0
  have hnew : ¬ A.array id := fun ha => Nat.lt_irrefl _ (h.arrays _ ha).1
  have hold : Drift A P t t' :=
    h.of_kept ⟨h.paired.cells, h.paired.arrays.push_both _ _, h.paired.tapes⟩ h.spares
      (.newArray h.guard_in _) (.newArray h.guard_in' _)
  have harray : t.array id = ⟨.float, (vs.map .float).toArray⟩ := by simp [t, id, Store.array]
  have harray' : t'.array id = ⟨.float, (vs'.map .float).toArray⟩ := by
    simp [t', id, Store.array, harrays]
  have hread : ∀ i < (t.array id).data.size, ∃ a : K, t.read (.element id i) = .float a ∧
      t'.read (.element id i) = .float (a + d i) := by
    intro i hi
    have hi : i < vs.length := by simpa [harray] using hi
    have hi' : i < vs'.length := hlen ▸ hi
    refine ⟨vs[i], ?_, ?_⟩
    · simp [t, id, Store.read, hi]
    · simp [t', id, Store.read, harrays, hi, hi', d]
  refine .inr ⟨A.withArray id d, P, .array id, t, t', ⟨rfl, by simp only [id, harrays]; rfl⟩,
    ⟨⟨A.within_withArray hnew _, .refl P, .newArray (Guard.shapes_in s) _⟩,
      hold.withArray hnew (fun b => ⟨fun hp => ?_, fun hp => ?_⟩) ⟨?_, ?_, ?_⟩ hread, ?_⟩, ?_⟩
  · exact Nat.lt_irrefl _ (h.paired.arrays.lt_left hp)
  · exact Nat.lt_irrefl _ (harrays ▸ h.paired.arrays.lt_right hp)
  · simp [t, id]
  · simp [t', id, harrays]
  · simp [Store.SameShape, harray, harray', hlen]
  · exact ⟨hcells, by simp [t, t', harrays]⟩
  · refine .array (.inr rfl) (by simp [harray]) hlen fun i v v' hv hv' => ?_
    simp [Accumulators.withArray, d, hv, hv']

end Opens

namespace Machine

open Exec

theorem opens_bindArg (h : Drift A P s s') (hs : s.SameSize s') (f : Func) (p : Param)
    (lent : Bool) (hp : lent = true → p.ty = .ref .float ∨ p.ty = .arrayOf .float) {a a' : Arg K}
    (hform : a.SameForm a') (hsame : lent = false → a = a') :
    Opens A P (bindArg f p a) s (bindArg f p a') s' fun A' P' b t =>
      A'.Passed P' t lent b a a' := by
  cases hlent : lent with
  | false =>
    obtain rfl := hsame hlent
    have hpaired : ∀ {b : Bound K} {A' : Accumulators K} {P' : Pairing} {t : Store K},
        P'.bound b b → (∀ id, b ≠ .tape id) → A'.Passed P' t false b a a :=
      fun hb ht => .inl ⟨rfl, ⟨hb, ht⟩, rfl⟩
    unfold bindArg
    split
    · exact (Opens.newCell h hs _).bind fun A' P' x t t' _ _ _ ht hs' hx =>
        .pure ht hs' (hpaired hx (by simp))
    · exact .stop
    · exact (Opens.newArray h hs _).bind fun A' P' x t t' _ _ _ ht hs' hx =>
        .pure ht hs' (hpaired hx (by simp))
    · exact .stop
    · exact .pure h hs (hpaired rfl (by simp))
    · exact .pure h hs (hpaired rfl (by simp))
    · exact .pure h hs (hpaired rfl (by simp))
    · split
      · exact .pure h hs (hpaired rfl (by simp))
      · exact .stop
    · exact .pure h hs (hpaired rfl (by simp))
    · exact .stop
  | true =>
    have hlater : ∀ {m m' : Exec K (Bound K)}, Opens A P m s m' s'
        (fun A' _ b t => A'.Starts t b a a') →
        Opens A P m s m' s' fun A' P' b t => A'.Passed P' t true b a a' := by
      refine fun hm => hm.imp_right ?_
      rintro ⟨A', P', b, t, t', hok, hend, hstarts⟩
      exact ⟨A', P', b, t, t', hok, hend, .inr ⟨rfl, hstarts⟩⟩
    obtain ⟨name, ty⟩ := p
    rcases hp hlent with rfl | rfl
    · cases a with
      | ref v =>
        cases a' with
        | ref v' => exact hlater (Opens.newCell_lent h hs v v')
        | _ => cases hform
      | array vs =>
        cases a' with
        | array vs' => exact .stop
        | _ => cases hform
      | _ =>
        cases hform
        exact .stop
    · cases a with
      | array vs =>
        cases a' with
        | array vs' => exact hlater (Opens.newArray_lent h hs hform.symm)
        | _ => cases hform
      | ref v =>
        cases a' with
        | ref v' => exact .stop
        | _ => cases hform
      | _ =>
        cases hform
        exact .stop

/-- All parameters. -/
theorem opens_bindArgs (f : Func) {L : Nat → Bool} : ∀ {ps : List Param} {k : Nat}
    {A : Accumulators K} {P : Pairing} {s s' : Store K} {as as' : List (Arg K)}, Drift A P s s' →
    s.SameSize s' → (∀ i p, ps[i]? = some p → L (k + i) = true →
      p.ty = .ref .float ∨ p.ty = .arrayOf .float) →
    Along (fun i a a' => a.SameForm a' ∧ (L i = false → a = a')) k as as' →
    Opens A P (bindArgs f ps as) s (bindArgs f ps as') s' fun A' P' bs t =>
      bs.length ≤ as.length ∧ ∀ i b a a', bs[i]? = some b → as[i]? = some a → as'[i]? = some a' →
        A'.Passed P' t (L (k + i)) b a a'
  | [], k, A, P, s, s', as, as', h, hs, _, _ => by
    rw [bindArgs.eq_def, bindArgs.eq_def]
    exact .pure h hs ⟨Nat.zero_le _, by simp⟩
  | p :: ps, k, A, P, s, s', [], [], h, hs, _, _ => by
    rw [bindArgs.eq_def]
    exact .pure h hs ⟨Nat.zero_le _, by simp⟩
  | p :: ps, k, A, P, s, s', a :: as, a' :: as', h, hs, hps, .cons hhead htail => by
    rw [bindArgs, bindArgs]
    refine (opens_bindArg h hs f p (L k) (hps 0 p rfl) hhead.1 hhead.2).bind
      fun A₁ P₁ b t t' _ _ _ ht hs₁ hb => ?_
    have hrest : ∀ i q, ps[i]? = some q → L (k + 1 + i) = true →
        q.ty = .ref .float ∨ q.ty = .arrayOf .float := fun i q hq hL =>
      hps (i + 1) q hq (by rwa [← Nat.add_assoc, Nat.add_right_comm])
    refine (opens_bindArgs f ht hs₁ hrest htail).bind
      fun A₂ P₂ bs u u' hA₂ hP₂ hk₂ hu hs₂ hbs => .pure hu hs₂ ⟨?_, fun i c x x' hc hx hx' => ?_⟩
    · simpa using hbs.1
    · cases i with
      | zero =>
        cases hc
        cases hx
        cases hx'
        exact hb.later hA₂ hP₂ (ht.same_shape hk₂)
      | succ i =>
        have := hbs.2 i c x x' hc hx hx'
        rwa [Nat.add_right_comm, Nat.add_assoc] at this

end Machine

/-! ### Runs -/

/-- By how much an argument increased. -/
def Arg.increase : Arg K → Arg K → List K
  | .ref v, .ref w => [w - v]
  | .array vs, .array ws => List.zipWith (fun v w => w - v) vs ws
  | _, _ => []

/-- By how much a run increased its arguments. -/
def Machine.Outcome.increases (args : List (Arg K)) (out : Machine.Outcome K) : List (List K) :=
  List.zipWith Arg.increase args out.args

namespace Machine

variable {t : Store K}

/-- Both runs increase an accumulator by the same. -/
theorem increase_writeBack_of_starts {b : Bound K} {a a' : Arg K} (h : A.Starts t b a a')
    (hd : Drift A P s s') (hshape : ∀ id, A.array id → t.SameShape s id) :
    a.increase (writeBack s b a) = a'.increase (writeBack s' b a') := by
  cases h with
  | slot has ahead =>
    obtain ⟨w, hw, hw'⟩ := hd.held _ (has.of_shape hshape)
    subst ahead
    simp only [writeBack, Arg.increase, hw, hw', numberIn, Value.number?, Option.getD_some]
    congr 1
    abel
  | @array id vs vs' has size len ahead =>
    refine List.ext_getElem? fun i => ?_
    simp only [writeBack, Arg.increase, List.getElem?_zipWith, List.getElem?_map,
      Array.getElem?_toList]
    by_cases hi : i < vs.length
    · have hsize : i < (s.array id).data.size := by rw [(hshape id has).2, size]; exact hi
      obtain ⟨w, hw, hw'⟩ := hd.held (.element id i) ⟨has, hsize⟩
      have hv : vs[i]? = some vs[i] := List.getElem?_eq_getElem hi
      have hv' : vs'[i]? = some vs'[i] := List.getElem?_eq_getElem (len ▸ hi)
      rw [hv, hv', Store.data_of_read hw, Store.data_of_read hw', ← ahead i _ _ hv hv']
      simp only [Option.map_some, numberIn, Value.number?, Option.getD_some]
      congr 1
      abel
    · rw [List.getElem?_eq_none (Nat.le_of_not_lt hi),
        List.getElem?_eq_none (len.symm ▸ Nat.le_of_not_lt hi)]

/-- Both runs increase what is lent by the same, and as long as pairs are kept, all the rest too. -/
theorem increase_writeBack {lent : Bool} {b : Bound K} {a a' : Arg K} {P' : Pairing}
    (h : A.Passed P t lent b a a') (hd : Drift A P' s s') (hP : P.Within P' ∨ lent = true)
    (hshape : ∀ id, A.array id → t.SameShape s id) :
    a.increase (writeBack s b a) = a'.increase (writeBack s' b a') := by
  rcases h with ⟨hlent, ⟨hb, _⟩, rfl⟩ | ⟨_, h⟩
  · have hb := (hP.resolve_right (by simp [hlent])).bound hb
    have hsame : writeBack s b a = writeBack s' b a := by
      simpa [writeBacks] using writeBacks_eq hd.paired (.cons hb .nil) [a]
    rw [hsame]
  · exact increase_writeBack_of_starts h hd hshape

theorem getElem?_writeBacks (s : Store K) : ∀ (bs : List (Bound K)) (as : List (Arg K)) (i : Nat),
    (writeBacks s bs as)[i]? = bs[i]?.bind fun b => as[i]?.map (writeBack s b)
  | [], _, _ | _ :: _, [], _ => by simp [writeBacks]
  | b :: bs, a :: as, 0 => by simp [writeBacks]
  | b :: bs, a :: as, i + 1 => by
    simp [writeBacks, getElem?_writeBacks s bs as i]

theorem along_of_passed {L : Nat → Bool} {as as' : List (Arg K)} {bs : List (Bound K)}
    (hlen : as.length = as'.length) (hbs : bs.length ≤ as.length)
    (h : ∀ i b a a', bs[i]? = some b → as[i]? = some a → as'[i]? = some a' →
      A.Passed P t (L i) b a a') : Along (A.bounds L P t) 0 bs bs := by
  refine Along.iff_getElem?.mpr ⟨rfl, fun i b c hb hc => ?_⟩
  obtain rfl := Option.some.inj (hb.symm.trans hc)
  have hi : i < as.length := Nat.lt_of_lt_of_le (List.getElem?_eq_some_iff.mp hb).1 hbs
  rw [Nat.zero_add]
  rcases h i b as[i] (as'[i]) hb (List.getElem?_eq_getElem hi)
    (List.getElem?_eq_getElem (hlen ▸ hi)) with ⟨_, hpaired, _⟩ | ⟨hL, hstarts⟩
  · exact .inl hpaired
  · refine .inr ⟨hL, ?_⟩
    generalize as[i] = a, as'[i] = a' at hstarts
    cases hstarts with
    | slot has _ => exact .slot has
    | array has _ _ _ => exact .array has

theorem drift_empty : Drift (K := K) ⟨fun _ => False, fun _ => False, fun _ => 0⟩ .nothing .empty
    .empty :=
  ⟨.nothing _ _, ⟨fun h => h.elim, fun h => h.elim⟩, fun slot h => by
    cases slot with
    | cell i => exact h.elim
    | element a i => exact h.1.elim, fun _ h => h.elim⟩

theorem run_eq {m : Machine K} {limit : Nat} {f : Func} {args : List (Arg K)}
    (harity : f.params.length = args.length) (s : Store K) : m.run limit f args s =
      match bindArgs f f.params args s with
      | .error e t => .error e t
      | .ok bs t => match m.callAt limit maxDepth f bs t with
        | .ok v u => .ok ⟨v.bind Value.number?, writeBacks u bs args⟩ u
        | .error e u => .error e u := by
  simp only [run, harity, ne_eq, not_true_eq_false, ↓reduceIte, Bind.bind, EStateM.bind]
  cases bindArgs f f.params args s with
  | error e t => rfl
  | ok bs t =>
    dsimp only
    cases m.callAt limit maxDepth f bs t <;> rfl

/-- Two runs on arguments that differ in what is lent. -/
theorem increases_run {m : Machine K} (total : Prop) {limit : Nat} {f : Func} {L : Nat → Bool}
    (htypes : ∀ i p, f.params[i]? = some p → L i = true → p.ty = .ref .float ∨ p.ty = .arrayOf .float)
    (hcall : ∀ {A : Accumulators K} {P : Pairing} {s s' : Store K} {bs : List (Bound K)},
      Drift A P s s' → Along (A.bounds L P s) 0 bs bs → ∃ P₀, (total → P.Within P₀) ∧
        Drifts total A P₀ (m.callAt limit maxDepth f bs) s (m.callAt limit maxDepth f bs) s'
          fun _ _ _ _ _ => True)
    {args args' : List (Arg K)}
    (hargs : Along (fun i a a' => a.SameForm a' ∧ (L i = false → a = a')) 0 args args') :
    match m.run limit f args .empty, m.run limit f args' .empty with
    | .ok out _, .ok out' _ => ∀ i, total ∨ L i = true →
        (out.increases args)[i]? = (out'.increases args')[i]?
    | .error e _, .error e' _ => total → e = e'
    | _, _ => ¬ total := by
  obtain ⟨hlen, _⟩ := Along.iff_getElem?.mp hargs
  have hstart := opens_bindArgs (A := ⟨fun _ => False, fun _ => False, fun _ => 0⟩) f drift_empty
    ⟨rfl, rfl⟩ (fun i p hp hL => htypes i p hp (by rwa [Nat.zero_add] at hL)) hargs
  by_cases harity : f.params.length = args.length
  swap
  · simp only [run, ne_eq, hlen ▸ harity, not_false_eq_true, ↓reduceIte, hlen]
    exact fun _ => rfl
  rw [run_eq harity, run_eq (harity.trans hlen)]
  rcases hstart with ⟨e, t, t', hbind, hbind'⟩ |
    ⟨A, P, bs, t, t', ⟨hbind, hbind'⟩, ⟨_, hd, _⟩, hbs, hpassed⟩ <;> rw [hbind, hbind']
  · exact fun _ => rfl
  simp only [Nat.zero_add] at hpassed
  obtain ⟨P₀, hP₀, hend⟩ := hcall hd (along_of_passed hlen hbs hpassed)
  unfold Drifts at hend
  dsimp only
  cases hv : m.callAt limit maxDepth f bs t <;> cases hv' : m.callAt limit maxDepth f bs t' <;>
    rw [hv, hv'] at hend
  case ok.ok v u v' u' =>
    obtain ⟨P', hP', hu, hk, _⟩ := hend
    intro i hi
    simp only [Outcome.increases, List.getElem?_zipWith, getElem?_writeBacks]
    cases hb : bs[i]? with
    | none => cases args[i]? <;> cases args'[i]? <;> rfl
    | some b =>
      have hlt : i < args.length := Nat.lt_of_lt_of_le (List.getElem?_eq_some_iff.mp hb).1 hbs
      have ha : args[i]? = some args[i] := List.getElem?_eq_getElem hlt
      have ha' : args'[i]? = some args'[i] := List.getElem?_eq_getElem (hlen ▸ hlt)
      rw [ha, ha']
      exact congrArg some (increase_writeBack (hpassed i b _ _ hb ha ha') hu
        (hi.imp_left fun htotal => (hP₀ htotal).trans hP') (hd.same_shape hk))
  all_goals exact hend

end Machine

/-! ### Gradients -/

/-- Runs that both leave accumulators alone, whatever else they do. -/
theorem Drifts.of_safe {α β : Type} {m : Exec K α} {m' : Exec K β} {U : α → Store K → Prop}
    {U' : β → Store K → Prop} (h : Drift A P s s') (hk : Safe A.guard m s U)
    (hk' : Safe A.guard m' s' U') : Drifts False A .nothing m s m' s' fun _ _ _ _ _ => True := by
  unfold Safe at hk hk'
  unfold Drifts
  cases hms : m s <;> cases hms' : m' s' <;> rw [hms] at hk <;> rw [hms'] at hk'
  · exact ⟨.nothing, .refl _, h.of_kept (.nothing _ _) ⟨fun h => h.elim, fun h => h.elim⟩ hk.1 hk'.1,
      hk.1.covers A.guard_covers, hk'.1.covers A.guard_covers, trivial⟩
  all_goals first | exact not_false | exact fun h => h.elim

/-- Statements that only add to accumulators, before others. -/
theorem Eval.drifts_execBody_append {lends : Lends} {ctx : Context K} (hc : Lending lends A ctx)
    (limit : Nat) {total : Prop} {O : String → Bool} {P₀ : Pairing} {Q : Flow K → Flow K → Prop}
    (hQ : ∀ flow, Q flow flow) {rest : List Stmt}
    (hrest : ∀ {P env env' s s'}, P₀.Within P → Abreast A O P env env' s s' →
      Drifts total A P₀ (execBody ctx limit env rest) s (execBody ctx limit env' rest) s'
        fun _ a b _ _ => Q a b) : ∀ {main : List Stmt} {P : Pairing} {env env' : Env}
      {s s' : Store K}, P₀.Within P → Abreast A O P env env' s s' → addsAll lends O main = true →
      Drifts total A P₀ (execBody ctx limit env (main ++ rest)) s
        (execBody ctx limit env' (main ++ rest)) s' fun _ a b _ _ => Q a b
  | [], P, env, env', s, s', hP, h, _ => hrest hP h
  | st :: main, P, env, env', s, s', hP, h, ha => by
    rw [addsAll, Bool.and_eq_true] at ha
    rw [List.cons_append, execBody, execBody]
    refine (drifts_execStmt hc limit h ha.1).bind_within fun P₁ r r' t t' hP₁ ht _ hr => ?_
    obtain ⟨env₁, flow⟩ := r
    obtain ⟨env₁', flow'⟩ := r'
    obtain ⟨rfl, h₁⟩ : flow = flow' ∧ Abreast A O P₁ env₁ env₁' t t' := hr
    cases flow with
    | next => exact drifts_execBody_append hc limit hQ hrest (hP.trans hP₁) h₁ ha.2
    | ret v => exact .pure (ht.mono (hP.trans hP₁)) (hQ _)

namespace Derive

/-- Error terms write the sum of errors only. -/
theorem rule_terms {G : Guard} {W : Writable} {funcs : Program} {D : String → Prop}
    {sink : ErrorSink} (hsink : ¬ D sink.accumulator) (scalars : List (String × String)) :
    (G.rule W funcs D).Body (sink.terms scalars) := by
  refine Rule.body_iff.mpr fun st hst => ?_
  obtain ⟨⟨x, d⟩, _, rfl⟩ := List.mem_map.mp hst
  -- a product is neither a call nor a place
  have hproduct : ∀ v : Float, ∃ e, ((Expr.var d).times (.var x)).times (.float v) = e ∧
      e.place? = none ∧ (G.rule W funcs D).Expr e := by
    intro v
    have hmul : (Expr.var d).times (.var x) = .binary .mul (.var d) (.var x) := rfl
    rw [hmul]
    unfold Expr.times
    repeat' split
    all_goals simp [Expr.zero, Expr.place?, Rule.Expr, Expr.parts, Guard.rule, Expr.isOne] at *
  obtain ⟨e, he, hplace, hrule⟩ := hproduct sink.epsilon
  refine ⟨hsink, fun _ h => (by cases h), Rule.expr_call.mpr ⟨?_, ?_⟩⟩
  · intro g _ _ i a place _ ha hp
    have hmem := List.mem_singleton.mp (List.mem_of_getElem? ha)
    rw [hmem, he, hplace] at hp
    cases hp
  · exact Rule.exprs_cons.mpr ⟨he ▸ hrule, Rule.exprs_nil⟩

namespace Estimating

variable {lends : Lends} {modified : List String} {r : Request} {f : Func} {outs : List Param}
  {sink : ErrorSink} {main : List Stmt} {scalars : List (String × String)}
  (h : Estimating lends modified r f outs sink main scalars)

/-- The positions of adjoint outputs, but for some. -/
def outputs (r : Request) (excluded : Nat → Bool) (i : Nat) : Bool :=
  decide (r.target.params.length ≤ i ∧ i < r.target.params.length + r.independents.length) &&
    !excluded (i - r.target.params.length)

include h

theorem getElem?_params (j : Nat) :
    f.params[r.target.params.length + j]? = (outs ++ [⟨sink.accumulator, .ref .float⟩])[j]? := by
  rw [h.params, List.append_assoc, List.getElem?_append_right (Nat.le_add_right ..),
    Nat.add_sub_cancel_left]

theorem output {excluded : Nat → Bool} {i : Nat} {p : Param} (hp : f.params[i]? = some p)
    (hi : outputs r excluded i = true) :
    ∃ j, i = r.target.params.length + j ∧ outs[j]? = some p ∧ excluded j = false := by
  simp only [outputs, Bool.and_eq_true, decide_eq_true_eq, Bool.not_eq_true'] at hi
  obtain ⟨⟨hle, hlt⟩, hex⟩ := hi
  refine ⟨i - r.target.params.length, by omega, ?_, hex⟩
  rw [← Nat.add_sub_cancel' hle, h.getElem?_params,
    List.getElem?_append_left (by rw [h.count]; omega)] at hp
  exact hp

theorem nodup_outputs :
    ((outs ++ [(⟨sink.accumulator, .ref .float⟩ : Param)]).map (·.name)).Nodup := by
  rw [List.map_append]
  refine h.distinct.append (List.nodup_singleton _) ?_
  simpa using h.apart

theorem ne_of_output {excluded : Nat → Bool} (i j : Nat) (p q : Param) (hij : i < j)
    (hp : f.params[i]? = some p) (hq : f.params[j]? = some q)
    (hi : outputs r excluded i = true) : q.name ≠ p.name := by
  obtain ⟨i, rfl, hp', _⟩ := h.output hp hi
  obtain ⟨j, rfl⟩ := Nat.exists_eq_add_of_le (Nat.le_trans (Nat.le_add_right _ i) (Nat.le_of_lt hij))
  rw [h.getElem?_params] at hp hq
  exact Machine.ne_of_nodup h.nodup_outputs i j p q (by omega) hp hq

theorem mem_of_output {excluded : Nat → Bool} {O : String → Bool}
    (hO : ∀ x, O x = true → ∃ i p, f.params[i]? = some p ∧ outputs r excluded i = true ∧ p.name = x) :
    ∀ y, O y = true → y ∈ outs.map (·.name) := by
  intro y hy
  obtain ⟨i, p, hp, hi, rfl⟩ := hO y hy
  obtain ⟨j, _, hj, _⟩ := h.output hp hi
  exact List.mem_map_of_mem (List.mem_of_getElem? hj)

/-- A call of the gradient, when no term reads an output that is lent. -/
theorem drifts_callAt {m : Machine K} {limit depth : Nat}
    (hc : Lending lends A ⟨m.funcs, m.callAt limit depth⟩) {excluded : Nat → Bool}
    (hexcluded : ∀ i v, r.independents[i]? = some v → keptScalar modified r.target v = true →
      excluded i = true) (hd : Drift A P s s') {bs : List (Bound K)}
    (hb : Along (A.bounds (outputs r excluded) P s) 0 bs bs) :
    Drifts True A P (m.callAt limit (depth + 1) f bs) s (m.callAt limit (depth + 1) f bs) s'
      SameResult := by
  refine Machine.drifts_callAt_body (Q := Eq) (.refl P) h.body hd hb h.ne_of_output
    (fun hO hP henv => (Eval.drifts_execBody hc limit henv ?_).narrow hP) ?_
  · have hnames := h.mem_of_output hO
    rw [addsAll_append, h.main _ hnames, h.terms _ hnames fun i q v hq hv hkept => ?_]
    · rfl
    by_contra hOq
    -- names are distinct, so the output is at this very position
    obtain ⟨j, p, hp, hj, hname⟩ := hO q.name ((Bool.not_eq_false _).mp hOq)
    obtain ⟨j, rfl, hp', hfree⟩ := h.output hp hj
    obtain rfl : j = i := by
      rcases Nat.lt_trichotomy j i with hlt | heq | hlt
      · exact absurd hname.symm (Machine.ne_of_nodup h.distinct j i p q hlt hp' hq)
      · exact heq
      · exact absurd hname (Machine.ne_of_nodup h.distinct i j q p hlt hq hp')
    rw [hexcluded j v hv hkept] at hfree
    cases hfree
  · rintro P' flow _ t t' ht rfl
    exact Machine.drifts_returned ht f flow

/-- A call of the gradient, whatever the last terms read. -/
theorem drifts_callAt_outputs {m : Machine K} {limit depth : Nat}
    (hc : Lending lends A ⟨m.funcs, m.callAt limit depth⟩) (hd : Drift A P s s')
    {bs : List (Bound K)} (hb : Along (A.bounds (outputs r fun _ => false) P s) 0 bs bs) :
    Drifts False A .nothing (m.callAt limit (depth + 1) f bs) s (m.callAt limit (depth + 1) f bs) s'
      fun _ _ _ _ _ => True := by
  have hnothing : ∀ P, Pairing.nothing.Within P := fun _ =>
    ⟨fun h => h.elim, fun h => h.elim, fun h => h.elim⟩
  refine Machine.drifts_callAt_body (Q := fun _ _ => True) (R := fun _ _ => True) (hnothing P) h.body
    hd hb h.ne_of_output (fun hO hP henv => ?_) ?_
  · have hnames := h.mem_of_output hO
    refine Eval.drifts_execBody_append hc limit (fun _ => trivial) (fun _ henv => ?_) (hnothing _) henv
      (h.main _ hnames)
    have hsink : ¬ _ = true := fun hO => h.apart (hnames sink.accumulator hO)
    exact Drifts.of_safe henv.drift (Eval.safe_execBody limit hc.framed henv.fits (rule_terms hsink _))
      (Eval.safe_execBody limit hc.framed henv.fits' (rule_terms hsink _))
  · intro P' flow flow' t t' ht _
    have hvoid : ∀ flow : Eval.Flow K, ∃ v, Machine.returned f flow = pure v := by
      intro flow
      unfold Machine.returned
      split
      · exact ⟨_, rfl⟩
      · exact ⟨none, if_pos h.ret⟩
    obtain ⟨v, hv⟩ := hvoid flow
    obtain ⟨v', hv'⟩ := hvoid flow'
    rw [hv, hv']
    exact .pure ht trivial

theorem types_of_output {excluded : Nat → Bool} (i : Nat) (p : Param) (hp : f.params[i]? = some p)
    (hi : outputs r excluded i = true) : p.ty = .ref .float ∨ p.ty = .arrayOf .float := by
  obtain ⟨j, _, hj, _⟩ := h.output hp hi
  exact h.types p (List.mem_of_getElem? hj)

omit h in
theorem outputs_iff {i : Nat} : outputs r (fun _ => false) i = true ↔
    r.target.params.length ≤ i ∧ i < r.target.params.length + r.independents.length := by
  simp [outputs]

/-- Adjoint outputs increase by the same, whatever they hold at first. -/
theorem increases_outputs {m : Machine K}
    (hc : ∀ A, Lending lends A ⟨m.funcs, m.callAt Machine.manyRounds 255⟩)
    {args args' : List (Arg K)} (hargs : Along (fun i a a' => a.SameForm a' ∧
      (outputs r (fun _ => false) i = false → a = a')) 0 args args') {out out' : Machine.Outcome K}
    (hout : m.execute f args = .ok out) (hout' : m.execute f args' = .ok out') {i : Nat}
    (hi : outputs r (fun _ => false) i = true) :
    (out.increases args)[i]? = (out'.increases args')[i]? := by
  have hruns := Machine.increases_run False h.types_of_output (fun hd hb =>
    ⟨.nothing, False.elim, h.drifts_callAt_outputs (hc _) hd hb⟩) hargs
  unfold Machine.execute at hout hout'
  cases hrun : m.run Machine.manyRounds f args .empty <;>
    cases hrun' : m.run Machine.manyRounds f args' .empty <;> rw [hrun] at hout <;>
    rw [hrun'] at hout' <;> rw [hrun, hrun'] at hruns <;> cases hout <;> cases hout'
  exact hruns i (.inr hi)

/-- All that a run increases increases by the same, if the outputs that the last terms read hold the
same at first. -/
theorem increases_eq {m : Machine K}
    (hc : ∀ A, Lending lends A ⟨m.funcs, m.callAt Machine.manyRounds 255⟩)
    {excluded : Nat → Bool} (hexcluded : ∀ i v, r.independents[i]? = some v →
      keptScalar modified r.target v = true → excluded i = true)
    {args args' : List (Arg K)} (hargs : Along (fun i a a' => a.SameForm a' ∧
      (outputs r excluded i = false → a = a')) 0 args args') :
    (m.execute f args).map (·.increases args) = (m.execute f args').map (·.increases args') := by
  have hruns := Machine.increases_run True h.types_of_output (fun {_ P _ _ _} hd hb =>
    ⟨P, fun _ => .refl P, (h.drifts_callAt (hc _) hexcluded hd hb).imp fun _ _ _ _ _ _ _ _ _ =>
      trivial⟩) hargs
  unfold Machine.execute
  cases hrun : m.run Machine.manyRounds f args .empty <;>
    cases hrun' : m.run Machine.manyRounds f args' .empty <;> rw [hrun, hrun'] at hruns
  · exact congrArg Except.ok (List.ext_getElem? fun i => hruns i (.inl trivial))
  · exact (hruns trivial).elim
  · exact (hruns trivial).elim
  · exact congrArg Except.error (hruns trivial)

end Estimating

open Library (Registry)

/-- No call in the function needs a derivative that would have to be derived. -/
def givesCalls (registry : Registry) (p : Program) (f : Func) : Bool :=
  (Analysis.callees f.stmts).all fun name => (p.overloads name).all registry.gives

theorem plain_of_givesCalls {s : Setting} {f : Func} (hstraight : areStraight f.stmts = true)
    (hgives : givesCalls s.registry s.program f = true) :
    Plain (Sweep.calls s) (f.params.map (·.name)) ((Host.ofProgram s.program).modifiedParams f)
      f.stmts where
  straight := hstraight
  written a ha hname := by
    refine List.mem_append_left _ (Analysis.mem_distinct.mpr (List.mem_filter.mpr ⟨?_, ?_⟩))
    · exact List.mem_map_of_mem ha
    · simpa using hname
  calls name args hcall h hh hname := by
    refine List.all_eq_true.mp (List.all_eq_true.mp hgives name ?_) h
      (List.mem_filter.mpr ⟨hh, by simp [hname]⟩)
    refine Analysis.mem_distinct.mpr (List.mem_map.mpr ⟨(name, args), ?_, rfl⟩)
    exact List.mem_filterMap.mpr ⟨_, hcall, rfl⟩

/-- The error estimate of a straight line needs no other derived function, has a name of its own,
and only adds to its outputs before the last terms. -/
theorem estimating_differentiate {p : Program} {registry : Registry} {options : Options}
    {target : Func} {wrt : Option String} {order : Nat} {r : Request} {d : Derived}
    (hchecked : Typing.check p = []) (hregistry : Registry.ofProgram p = .ok registry)
    (htarget : target ∈ p)
    (hrequest : Request.make (.ofProgram p) target .errorEstimate wrt order = .ok r)
    (hcustom : registry.get? .pullback target.signature = none)
    (hstraight : areStraight target.stmts = true) (hgives : givesCalls registry p target = true)
    (hd : differentiate p registry options r = .ok d) :
    d.support = [] ∧ d.func.name ∉ p.map (·.name) ∧ ∃ outs sink main scalars,
      Estimating p.lends ((Host.ofProgram p).modifiedParams target) r d.func outs sink main
        scalars := by
  have hr := Request.accepted_of_make hrequest
  obtain ⟨specs, hspecs⟩ := hr.vars
  obtain rfl := hr.target
  unfold differentiate at hd
  split at hd
  · rename_i f st hrun
    cases hd
    rw [derivedFunc, hr.mode_eq] at hrun
    have hstart : (Progress.start p).Underived (Setting.make p registry options .errorEstimate) :=
      ⟨rfl, fun _ _ h => by cases h⟩
    obtain ⟨hsupport, hname, hestimating⟩ := estimating_gradientWith
      (fun _ _ h => Registry.fits_of_get? hregistry h) hcustom hstart
      (Typing.checkFunc_of_check hchecked htarget) (plain_of_givesCalls hstraight hgives)
      (Request.param_lt_of_validateAll hspecs (by simp)) hrun
    refine ⟨hsupport, fun hmem => hname ?_, hestimating⟩
    exact (NameSupply.mem_reserveAll _ _ _).mpr (.inl hmem)
  · cases hd

/-- The functions of a program whose pullbacks only add, and one more that takes no adjoints. -/
theorem lending_machine {p : Program} {f : Func} (hchecked : Typing.check p = [])
    (hadds : p.pullbacksAdd = true) (hnew : f.name ∉ p.map (·.name))
    (hparams : ∀ q ∈ f.params, ∀ t, q.ty ≠ .tape t) (natives : Natives K) (limit depth : Nat)
    (A : Accumulators K) :
    Lending p.lends A ⟨p ++ [f], Machine.callAt ⟨p ++ [f], natives⟩ limit depth⟩ := by
  refine Machine.lending_callAt (m := ⟨p ++ [f], natives⟩) (fun g hg q hq => ?_)
    (fun g hg => ?_) limit depth
  · rcases List.mem_append.mp hg with hg | hg
    · exact Typing.ne_tape_of_checkFunc (Typing.checkFunc_of_check hchecked hg) q hq
    · exact hparams q (List.mem_singleton.mp hg ▸ hq)
  · rcases List.mem_append.mp hg with hg | hg
    · rcases (Bool.or_eq_true _ _).mp (List.all_eq_true.mp hadds g hg) with hnone | hadd
      · refine .inl fun i => ?_
        by_cases hi : i < g.params.length
        · simpa using List.all_eq_true.mp hnone i (List.mem_range.mpr hi)
        · exact Program.lends_of_le (Nat.le_of_not_lt hi)
      · exact .inr hadd
    · rw [List.mem_singleton.mp hg]
      exact .inl fun i => Program.lends_of_new hnew _ i

end Derive

open Derive Library in
/-- Two runs of the error estimate of a straight line on arguments that differ only in what the
adjoint outputs hold. If both end, each adjoint output increases by the same in both. If the outputs
of the scalars that the function does not assign hold the same in both, then both fail with the same
error, or both end and every argument increases by the same, the final error among them. -/
theorem outputs_increase_alike {p : Program} {registry : Registry} {options : Options}
    {target : Func} {wrt : Option String} {order : Nat} {r : Request} {d : Derived}
    (hchecked : Typing.check p = []) (hregistry : Registry.ofProgram p = .ok registry)
    (hadds : p.pullbacksAdd = true) (htarget : target ∈ p)
    (hrequest : Request.make (.ofProgram p) target .errorEstimate wrt order = .ok r)
    (hcustom : registry.get? .pullback target.signature = none)
    (hstraight : areStraight target.stmts = true) (hgives : givesCalls registry p target = true)
    (hd : differentiate p registry options r = .ok d) (natives : Natives K)
    {args args' : List (Arg K)}
    (hargs : Along (fun i a a' => a.SameForm a' ∧
      (¬ (target.params.length ≤ i ∧ i < target.params.length + r.independents.length) → a = a'))
      0 args args') :
    (∀ out out', (Session.machine p d natives).execute d.func args = .ok out →
      (Session.machine p d natives).execute d.func args' = .ok out' →
      ∀ i, target.params.length ≤ i → i < target.params.length + r.independents.length →
        (out.increases args)[i]? = (out'.increases args')[i]?) ∧
    ((∀ i v, r.independents[i]? = some v →
        keptScalar ((Host.ofProgram p).modifiedParams target) target v = true →
        args[target.params.length + i]? = args'[target.params.length + i]?) →
      ((Session.machine p d natives).execute d.func args).map (·.increases args) =
        ((Session.machine p d natives).execute d.func args').map (·.increases args')) := by
  obtain ⟨hsupport, hnew, outs, sink, main, scalars, h⟩ := estimating_differentiate hchecked
    hregistry htarget hrequest hcustom hstraight hgives hd
  obtain rfl := (Request.accepted_of_make hrequest).target
  have hmachine : Session.machine p d natives = ⟨p ++ [d.func], natives⟩ := by
    rw [Session.machine, Derived.funcs, hsupport, List.nil_append]
  have htape : ∀ q ∈ d.func.params, ∀ t, q.ty ≠ .tape t := by
    intro q hq t ht
    rw [h.params, List.mem_append, List.mem_append, List.mem_singleton] at hq
    rcases hq with (hq | hq) | rfl
    · exact Typing.ne_tape_of_checkFunc (Typing.checkFunc_of_check hchecked htarget) q hq t ht
    · rcases h.types q hq with hty | hty <;> rw [hty] at ht <;> cases ht
    · cases ht
  have hlending := lending_machine (K := K) hchecked hadds hnew htape natives Machine.manyRounds 255
  rw [hmachine]
  refine ⟨fun out out' hout hout' i hle hlt => ?_, fun hkept => ?_⟩
  · refine h.increases_outputs hlending (hargs.imp fun i a a' ha => ⟨ha.1, fun hi => ha.2 ?_⟩) hout
      hout' (Estimating.outputs_iff.mpr ⟨hle, hlt⟩)
    rw [← Estimating.outputs_iff, hi]
    exact Bool.false_ne_true
  · -- outputs that the last terms read hold the same
    let excluded (j : Nat) : Bool := r.independents[j]?.any
      (keptScalar ((Host.ofProgram p).modifiedParams r.target) r.target)
    have hexcluded : ∀ i v, r.independents[i]? = some v →
        keptScalar ((Host.ofProgram p).modifiedParams r.target) r.target v = true →
        excluded i = true := fun i v hv hscalar => by simp [excluded, hv, hscalar]
    refine h.increases_eq hlending hexcluded ?_
    obtain ⟨hlen, hget⟩ := Along.iff_getElem?.mp hargs
    refine Along.iff_getElem?.mpr ⟨hlen, fun i a a' ha ha' => ?_⟩
    obtain ⟨hform, hsame⟩ := hget i a a' ha ha'
    refine ⟨hform, fun hi => ?_⟩
    rw [Nat.zero_add] at hsame hi
    by_cases houtput : r.target.params.length ≤ i ∧
        i < r.target.params.length + r.independents.length
    · have hexcluded : excluded (i - r.target.params.length) = true := by
        simpa [Estimating.outputs, houtput] using hi
      obtain ⟨v, hv, hscalar⟩ := (Option.any_eq_true _ _).mp hexcluded
      have hsame := hkept _ v hv hscalar
      rw [Nat.add_sub_cancel' houtput.1, ha, ha'] at hsame
      exact Option.some.inj hsame
    · exact hsame houtput

end

/-! ### What the last terms read -/

open Derive Library

/-- By how much an exact run of a derived function increases its arguments. Of the functions without
a body it knows the absolute value only. -/
def Derive.Derived.increasesOn (d : Derived) (p : Program) (args : List (Arg ℚ)) :
    Option (List (List ℚ)) :=
  (((Session.machine p d [("abs", Natives.unary abs)]).execute d.func args).map
    (·.increases args)).toOption

/-- Options under which half of a value is lost. -/
def coarse : Options := { Options.standard with machineEpsilon := 0.5 }

/-- A source text with a straight line that has an error estimate. -/
structure StraightEstimate (source : String) (p : Program) (registry : Registry) (r : Request)
    (d : Derived) : Prop where
  load : Session.load source = .ok p
  registered : Registry.ofProgram p = .ok registry
  adds : p.pullbacksAdd = true
  target : r.target ∈ p
  request : Request.make (.ofProgram p) r.target .errorEstimate none 1 = .ok r
  custom : registry.get? .pullback r.target.signature = none
  straight : areStraight r.target.stmts = true
  gives : givesCalls registry p r.target = true
  derived : differentiate p registry coarse r = .ok d

/-- The estimate is one of a straight line whose outputs are of kept scalars where `kept` says so,
and exact runs increase their arguments as listed. -/
def estimates (inputs : Nat) (kept : List Bool) (runs : List (List (Arg ℚ) × List (List ℚ)))
    (p : Program) (registry : Registry) (r : Request) : Bool :=
  p.pullbacksAdd && (registry.get? .pullback r.target.signature).isNone &&
    areStraight r.target.stmts && givesCalls registry p r.target &&
    r.target.params.length == inputs &&
    r.independents.map (keptScalar ((Host.ofProgram p).modifiedParams r.target) r.target) == kept &&
    match differentiate p registry coarse r with
    | .error _ => false
    | .ok d => runs.all fun (args, increases) => d.increasesOn p args == some increases

theorem estimates_loads {inputs : Nat} {kept : List Bool}
    {runs : List (List (Arg ℚ) × List (List ℚ))}
    (x : Session.Sample ⟨"f", .errorEstimate, none, 1, coarse⟩ (estimates inputs kept runs)) :
    ∃ p registry r d, StraightEstimate x.source p registry r d ∧
      r.target.params.length = inputs ∧ r.independents.map
        (keptScalar ((Host.ofProgram p).modifiedParams r.target) r.target) = kept ∧
      ∀ run ∈ runs, d.increasesOn p run.1 = some run.2 := by
  obtain ⟨p, registry, f, r, hload, hregistry, hf, hr, htest⟩ := x.loads
  obtain rfl := (Request.accepted_of_make hr).target
  simp only [estimates, Bool.and_eq_true, Option.isNone_iff_eq_none, beq_iff_eq] at htest
  obtain ⟨⟨⟨⟨⟨⟨hadds, hcustom⟩, hstraight⟩, hgives⟩, hinputs⟩, hkept⟩, hruns⟩ := htest
  cases hd : differentiate p registry coarse r with
  | error e => simp [hd] at hruns
  | ok d =>
    simp only [hd, List.all_eq_true, beq_iff_eq] at hruns
    exact ⟨p, registry, r, d, ⟨hload, hregistry, hadds, Session.mem_of_find? hf, hr, hcustom,
      hstraight, hgives, hd⟩, hinputs, hkept, hruns⟩

/-- Outputs of a scalar that is not assigned, of one that is, and of an array. -/
def mixedOutputs : Session.Sample ⟨"f", .errorEstimate, none, 1, coarse⟩ (estimates 3
    [true, false, false]
    [([.scalar 3, .scalar 2, .array [5], .ref 0, .ref 1, .array [4], .ref 0],
      [[], [], [0], [324], [162], [54], [1269]])]) where
  source :=
    "fn g(x: f64) -> f64 \x7b return x * x; \x7d " ++
    "namespace custom_derivatives \x7b " ++
    "fn g_pullback(x: f64, d: f64, r: &f64) \x7b r += 2.0 * x * d; \x7d \x7d " ++
    "fn f(x: f64, y: f64, a: [f64]) -> f64 \x7b " ++
    "y = y * g(x); \x7b let z: f64 = a[0] * y; y += z; \x7d return y * x; \x7d"
  admitted := by decide +kernel

theorem outputs_increase_alike_mixed : ∃ p registry r d,
    StraightEstimate mixedOutputs.source p registry r d ∧
    d.increasesOn p [.scalar 3, .scalar 2, .array [5], .ref 0, .ref 1, .array [4], .ref 0] =
      some [[], [], [0], [324], [162], [54], [1269]] ∧
    d.increasesOn p [.scalar 3, .scalar 2, .array [5], .ref 0, .ref 10, .array [7], .ref 0] =
      some [[], [], [0], [324], [162], [54], [1269]] := by
  obtain ⟨p, registry, r, d, h, hinputs, hkept, hruns⟩ := estimates_loads mixedOutputs
  have hrun := hruns _ (List.mem_singleton_self _)
  have houtputs : r.independents.length = 3 := by simpa using congrArg List.length hkept
  refine ⟨p, registry, r, d, h, hrun, ?_⟩
  rw [← hrun]
  refine congrArg Except.toOption ((outputs_increase_alike (Session.load_eq_ok h.load).choose_spec.2
    h.registered h.adds h.target h.request h.custom h.straight h.gives h.derived _ ?_).2 ?_)
  · rw [hinputs, houtputs]
    exact .cons ⟨rfl, fun _ => rfl⟩ (.cons ⟨rfl, fun _ => rfl⟩ (.cons ⟨rfl, fun _ => rfl⟩
      (.cons ⟨trivial, fun _ => rfl⟩ (.cons ⟨trivial, fun hi => absurd (by decide) hi⟩
      (.cons ⟨rfl, fun hi => absurd (by decide) hi⟩ (.cons ⟨trivial, fun _ => rfl⟩ .nil))))))
  · -- the only scalar that is not assigned is the first one
    intro i v hv hscalar
    have hi : ([true, false, false] : List Bool)[i]? = some true := by
      rw [← hkept, List.getElem?_map, hv, Option.map_some, hscalar]
    obtain rfl : i = 0 := by
      rcases i with _ | _ | _ | i <;> simp at hi ⊢
    rw [hinputs]
    rfl

/-- The square of a number, with the output at zero and at ten. -/
def squareEstimate : Session.Sample ⟨"f", .errorEstimate, none, 1, coarse⟩ (estimates 1 [true]
    [([.scalar 3, .ref 0, .ref 0], [[], [6], [27 / 2]]),
      ([.scalar 3, .ref 10, .ref 0], [[], [6], [57 / 2]])]) where
  source := "fn f(x: f64) -> f64 \x7b return x * x; \x7d"
  admitted := by decide +kernel

/-- The final error has a term of what the output of the number held. -/
theorem final_error_reads_output : ∃ p registry r d,
    StraightEstimate squareEstimate.source p registry r d ∧
    d.increasesOn p [.scalar 3, .ref 0, .ref 0] = some [[], [6], [27 / 2]] ∧
    d.increasesOn p [.scalar 3, .ref 10, .ref 0] = some [[], [6], [57 / 2]] := by
  obtain ⟨p, registry, r, d, h, _, _, hruns⟩ := estimates_loads squareEstimate
  exact ⟨p, registry, r, d, h, hruns _ List.mem_cons_self,
    hruns _ (List.mem_cons_of_mem _ List.mem_cons_self)⟩

end Fluxion
