import Fluxion.Proofs.Typing.Overload

/-!
Overloads and the lengths of arrays. A run sees arrays without the lengths that their types may
state. Where no two overloads differ in a length alone, a call that can be resolved with the lengths
is resolved to the same function without them.
-/

namespace Fluxion

namespace Ty

/-- The type by which a run sees an operand: references are read, lengths are not known. -/
def seen : Ty → Ty
  | .ref t => t
  | .array t _ => .arrayOf t
  | t => t

/-- The type is one that operands have in a run. -/
def isPassed : Ty → Bool
  | .ref t => t.isScalar
  | .array _ _ | .tape _ => true
  | t => t.isScalar

/-- The types are not both of arrays of the same elements, or they say the same about the length. -/
def sameLength (t a : Ty) : Bool :=
  match t.value, a.value with
  | .array elem n, .array elem' m => elem != elem' || n == m
  | _, _ => true

theorem isScalar_iff {t : Ty} : t.isScalar = true ↔ t = .float ∨ t = .int ∨ t = .bool := by
  cases t <;> simp [isScalar]

theorem acceptsExactly_scalar {t a : Ty} (ha : a.isScalar = true) :
    t.acceptsExactly a = true ↔ t = a := by
  rcases isScalar_iff.mp ha with rfl | rfl | rfl <;> cases t <;> simp [acceptsExactly]

/-- A reference to a scalar is accepted as the scalar is. -/
theorem cost?_ref {t a : Ty} (ha : a.isScalar = true) : t.cost? (.ref a) = t.cost? a := by
  rcases isScalar_iff.mp ha with rfl | rfl | rfl <;> cases t <;> rfl

theorem acceptsExactly_array {t elem : Ty} {len : Option Nat} :
    t.acceptsExactly (.array elem len) = true ↔
      ∃ n, t = .array elem n ∧ (n = none ∨ len = none ∨ n = len) := by
  cases t with
  | array elem' n => cases n <;> cases len <;> simp [acceptsExactly]
  | _ => simp [acceptsExactly]

theorem cost?_array {t elem : Ty} {len : Option Nat} {c : Nat} :
    t.cost? (.array elem len) = some c ↔
      c = 0 ∧ ∃ n, t.value = .array elem n ∧ (n = none ∨ len = none ∨ n = len) := by
  have hvalue : t.cost? (.array elem len) =
      if t.value.acceptsExactly (.array elem len) then some 0 else none := by
    cases t <;> rfl
  simp only [hvalue, Option.ite_none_right_eq_some, acceptsExactly_array, Option.some.injEq]
  exact ⟨fun h => ⟨h.2.symm, h.1⟩, fun h => ⟨h.2, h.1.symm⟩⟩

/-- Without its length an array is accepted wherever it is accepted with it. -/
theorem cost?_seen {t a : Ty} {c : Nat} (ha : a.isPassed = true) (h : t.cost? a = some c) :
    t.cost? a.seen = some c := by
  cases a with
  | float | int | bool | tape _ => exact h
  | void => cases ha
  | ref a => rwa [cost?_ref ha] at h
  | array elem len =>
    obtain ⟨rfl, n, ht, _⟩ := cost?_array.mp h
    exact cost?_array.mpr ⟨rfl, n, ht, .inr (.inl rfl)⟩

/-- A type that accepts an array without its length accepts it with the length too, when another
one does that says the same about lengths. -/
theorem cost?_of_seen {t t' a : Ty} {c c' : Nat} (ha : a.isPassed = true)
    (hsame : t.sameLength t' = true) (h : t.cost? a = some c) (h' : t'.cost? a.seen = some c') :
    t'.cost? a = some c' := by
  cases a with
  | float | int | bool | tape _ => exact h'
  | void => cases ha
  | ref a => rwa [cost?_ref ha]
  | array elem len =>
    obtain ⟨_, n, ht, hn⟩ := cost?_array.mp h
    obtain ⟨rfl, n', ht', _⟩ := cost?_array.mp h'
    have hnn : n = n' := by simpa [sameLength, ht, ht'] using hsame
    exact cost?_array.mpr ⟨rfl, n', ht', hnn ▸ hn⟩

end Ty

/-! ### Overloads -/

/-- No parameters of the two functions differ in a length alone. -/
def Func.sameLengths (f g : Func) : Bool :=
  f.params.length != g.params.length ||
    (f.params.zip g.params).all fun q => q.1.ty.sameLength q.2.ty

/-- Overloads are not told apart by lengths of arrays. -/
def Program.ignoresLengths (p : Program) : Bool :=
  p.all fun f => p.all fun g => f.name != g.name || f.sameLengths g

theorem costs?_seen {ps : List Param} {types : List Ty} {c : Nat}
    (htypes : ∀ t ∈ types, t.isPassed = true) (h : costs? ps types = some c) :
    costs? ps (types.map Ty.seen) = some c := by
  induction ps generalizing types c with
  | nil =>
    cases types with
    | nil => exact h
    | cons t types => cases h
  | cons p ps ih =>
    cases types with
    | nil => cases h
    | cons t types =>
      simp only [costs?, Option.bind_eq_bind, Option.bind_eq_some_iff] at h
      obtain ⟨c₁, h₁, c₂, h₂, hc⟩ := h
      have hfirst := Ty.cost?_seen (htypes t List.mem_cons_self) h₁
      have hrest := ih (fun t ht => htypes t (List.mem_cons_of_mem _ ht)) h₂
      simpa [costs?, hfirst, hrest] using hc

theorem length_of_costs? {ps : List Param} {types : List Ty} {c : Nat}
    (h : costs? ps types = some c) : ps.length = types.length := by
  induction ps generalizing types c with
  | nil =>
    cases types with
    | nil => rfl
    | cons t types => cases h
  | cons p ps ih =>
    cases types with
    | nil => cases h
    | cons t types =>
      simp only [costs?, Option.bind_eq_bind, Option.bind_eq_some_iff] at h
      obtain ⟨_, _, _, h₂, _⟩ := h
      simp [ih h₂]

theorem costs?_of_seen {ps qs : List Param} {types : List Ty} {c c' : Nat}
    (htypes : ∀ t ∈ types, t.isPassed = true)
    (hsame : ∀ q ∈ ps.zip qs, q.1.ty.sameLength q.2.ty = true) (h : costs? ps types = some c)
    (h' : costs? qs (types.map Ty.seen) = some c') : costs? qs types = some c' := by
  induction ps generalizing qs types c c' with
  | nil =>
    cases types with
    | nil => exact h'
    | cons t types => cases h
  | cons p ps ih =>
    cases types with
    | nil => cases h
    | cons t types =>
      cases qs with
      | nil => cases h'
      | cons q qs =>
        simp only [costs?, List.map_cons, Option.bind_eq_bind, Option.bind_eq_some_iff] at h h'
        obtain ⟨_, h₁, _, h₂, _⟩ := h
        obtain ⟨_, h₁', _, h₂', hc'⟩ := h'
        have hfirst := Ty.cost?_of_seen (htypes t List.mem_cons_self) (hsame (p, q) (by simp)) h₁ h₁'
        have hrest := ih (fun t ht => htypes t (List.mem_cons_of_mem _ ht))
          (fun r hr => hsame r (by simp [hr])) h₂ h₂'
        simpa [costs?, hfirst, hrest] using hc'

theorem exists_cost_of_resolve {p : Program} {name : String} {types : List Ty} {f : Func}
    (h : p.resolve name types = some f) : ∃ c, f.cost? types = some c := by
  have hfold : ∀ (fs : List Func) (best : Option (Nat × Func)),
      (∀ c g, best = some (c, g) → g.cost? types = some c) →
      ∀ c g, fs.foldl (cheaper types) best = some (c, g) → g.cost? types = some c := by
    intro fs
    induction fs with
    | nil => exact fun best hbest => hbest
    | cons f fs ih =>
      intro best hbest
      refine ih _ fun c g hg => ?_
      unfold cheaper at hg
      split at hg
      · exact hbest c g hg
      · cases hg
        assumption
      · split at hg
        · cases hg
          assumption
        · exact hbest c g hg
  simp only [Program.resolve, Option.map_eq_some_iff] at h
  obtain ⟨⟨c, g⟩, hfound, rfl⟩ := h
  exact ⟨c, hfold _ none (by simp) c g hfound⟩

theorem resolve_congr {p : Program} {name : String} {types types' : List Ty}
    (h : ∀ g ∈ p, g.name = name → g.cost? types = g.cost? types') :
    p.resolve name types = p.resolve name types' := by
  have hfold : ∀ (fs : List Func), (∀ g ∈ fs, g.cost? types = g.cost? types') →
      ∀ best, fs.foldl (cheaper types) best = fs.foldl (cheaper types') best := by
    intro fs hfs
    induction fs with
    | nil => exact fun _ => rfl
    | cons f fs ih =>
      intro best
      have hstep : cheaper types best f = cheaper types' best f := by
        simp only [cheaper, hfs f List.mem_cons_self]
      rw [List.foldl_cons, List.foldl_cons, hstep]
      exact ih (fun g hg => hfs g (List.mem_cons_of_mem _ hg)) _
  unfold Program.resolve
  rw [hfold]
  intro g hg
  simp only [Program.overloads, List.mem_filter, beq_iff_eq] at hg
  exact h g hg.1 hg.2

/-- A call that the lengths of its arguments resolve is resolved to the same function without
them. -/
theorem resolve_seen {p : Program} (hp : p.ignoresLengths = true) {name : String}
    {types : List Ty} (htypes : ∀ t ∈ types, t.isPassed = true) {f : Func}
    (h : p.resolve name types = some f) : p.resolve name (types.map Ty.seen) = some f := by
  rw [← h]
  apply resolve_congr
  intro g hg hname
  obtain ⟨hf, hfname⟩ := mem_of_resolve h
  obtain ⟨c, hc⟩ := exists_cost_of_resolve h
  symm
  cases hseen : g.cost? (types.map Ty.seen) with
  | some c' =>
    have hlengths : f.params.length = g.params.length := by
      rw [length_of_costs? hc, length_of_costs? hseen, List.length_map]
    have hsame := List.all_eq_true.mp (List.all_eq_true.mp hp f hf) g hg
    simp only [hfname, hname, bne_self_eq_false, Bool.false_or, Func.sameLengths, hlengths,
      List.all_eq_true] at hsame
    exact costs?_of_seen htypes hsame hc hseen
  | none =>
    cases hcost : g.cost? types with
    | none => rfl
    | some c' =>
      rw [Func.cost?, costs?_seen htypes hcost] at hseen
      cases hseen

end Fluxion
