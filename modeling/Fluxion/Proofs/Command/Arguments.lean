import Fluxion.Command.Binding
import Fluxion.Derive.Differentiate
import Fluxion.Eval.Machine
import Fluxion.Proofs.Apart.Functions

/-!
Arguments from literals fit the function that is derived: there is one for each parameter, of a kind
that the parameter takes.
-/

namespace Fluxion

/-- The arguments that a parameter of a type takes from outside. -/
inductive Ty.Takes : Ty → Arg Float → Prop where
  | int (v : Int64) : Takes .int (.int v)
  | bool (v : Bool) : Takes .bool (.bool v)
  | float (v : Float) : Takes .float (.scalar v)
  | ref (inner : Ty) (v : Float) : Takes (.ref inner) (.ref v)
  | array (elem : Ty) (len : Option Nat) (vs : List Float) : Takes (.array elem len) (.array vs)

namespace Machine

theorem bindArgs_of_takes (f : Func) {ps : List Param} {args : List (Arg Float)}
    (h : List.Forall₂ (fun p a => p.ty.Takes a) ps args) (s : Store Float) :
    ∃ bound s', bindArgs f ps args s = .ok bound s' := by
  induction h generalizing s with
  | nil => exact ⟨[], s, rfl⟩
  | cons hp _ ih =>
    rename_i p a _ _ _
    have hone : ∃ b s', bindArg f p a s = .ok b s' := by
      obtain ⟨x, ty⟩ := p
      cases hp <;> exact ⟨_, _, rfl⟩
    obtain ⟨b, s₁, hb⟩ := hone
    obtain ⟨bs, s₂, hbs⟩ := ih s₁
    exact ⟨b :: bs, s₂, state_bind_eq_ok.mpr ⟨b, s₁, hb, state_bind_eq_ok.mpr ⟨bs, s₂, hbs, rfl⟩⟩⟩

/-- With such arguments, a run binds them and comes to the call. -/
theorem run_of_takes (m : Machine Float) (limit : Nat) {f : Func} {args : List (Arg Float)}
    (h : List.Forall₂ (fun p a => p.ty.Takes a) f.params args) (s : Store Float) :
    ∃ bound s', bindArgs f f.params args s = .ok bound s' ∧ m.run limit f args s = (do
      let v ← m.callAt limit maxDepth f bound
      return ⟨v.bind Value.number?, writeBacks (← get) bound args⟩ : Exec Float (Outcome Float)) s' := by
  obtain ⟨bound, s', hbound⟩ := bindArgs_of_takes f h s
  refine ⟨bound, s', hbound, ?_⟩
  simp only [run, h.length_eq, ne_eq, not_true_eq_false, if_false, bind, EStateM.bind, hbound]

end Machine

/-! ### Literals -/

namespace Command

open Listing (Literal)

theorem takes_argFor {p : Param} {l : Literal} {a : Arg Float} (h : argFor p l = .ok a) :
    p.ty.Takes a := by
  unfold argFor at h
  split at h <;> rename_i hty
  · cases h; rw [hty]; exact .int _
  · cases h; rw [hty]; exact .bool _
  · obtain ⟨v, _, rfl⟩ := except_map_eq_ok.mp h
    rw [hty]; exact .float v
  · obtain ⟨v, _, rfl⟩ := except_map_eq_ok.mp h
    rw [hty]; exact .ref _ v
  · cases h; rw [hty]; exact .array _ _ _
  · cases h

theorem takes_argsFor {ps : List Param} {ls : List Literal} {args : List (Arg Float)}
    (hlen : ls.length = ps.length) (h : argsFor ps ls = .ok args) :
    List.Forall₂ (fun p a => p.ty.Takes a) ps args := by
  induction ps generalizing ls args with
  | nil =>
    cases h
    exact .nil
  | cons p ps ih =>
    obtain _ | ⟨l, ls⟩ := ls
    · simp at hlen
    · obtain ⟨a, ha, h⟩ := except_bind_eq_ok.mp h
      obtain ⟨as, has, h⟩ := except_bind_eq_ok.mp h
      cases h
      exact .cons (takes_argFor ha) (ih (by simpa using hlen) has)

/-- The arguments are those of the literals, and then where the derivatives go. -/
theorem bindLiterals_eq_ok {h : Host} {r : Request} {ls : List Literal} {args : List (Arg Float)}
    (hargs : bindLiterals h r ls = .ok args) :
    ∃ given, List.Forall₂ (fun p a => p.ty.Takes a) r.target.params given ∧
      args = given ++ outputsFor h r given := by
  unfold bindLiterals at hargs
  split at hargs
  · cases hargs
  · rename_i hlen
    obtain ⟨given, hgiven, h⟩ := except_bind_eq_ok.mp hargs
    cases h
    exact ⟨given, takes_argsFor (by simpa using hlen) hgiven, rfl⟩

end Command

/-! ### Parameters of derived functions -/

namespace Derive

section

variable {α β : Type} {Q : α → Prop} {R : β → Prop}

/-- What holds of the result of steps, whatever storage they start from. -/
def Gives (m : Sweeping α) (Q : α → Prop) : Prop := ∀ σ, Returns (m σ) fun r => Q r.1

theorem Gives.pure {a : α} (h : Q a) : Gives (pure a) Q := fun _ => Returns.pure h

theorem Gives.bind {m : Sweeping α} {f : α → Sweeping β} (hm : Gives m Q)
    (hf : ∀ a, Q a → Gives (f a) R) : Gives (m >>= f) R := fun σ =>
  (hm σ).bind fun r hr => hf r.1 hr r.2

theorem Gives.after {m : Sweeping α} {f : α → Sweeping β} (hf : ∀ a, Gives (f a) R) :
    Gives (m >>= f) R := fun _ => Returns.after fun r => hf r.1 r.2

theorem Gives.run {m : Sweeping α} (h : Gives m Q) (σ : Storage) : Returns (m.run' σ) Q :=
  Returns.map (h σ)

end

theorem returns_directional (s : Setting) (r : Request) :
    Returns (directional s (planner s) r) fun g => g.params = r.target.params := by
  have hseeded : ∀ f along name, Returns (seeded s (planner s) f along name) fun g =>
      g.params = f.params := by
    intro f along name
    unfold seeded
    dsimp only
    split
    · exact .pure rfl
    · exact .after fun body => .pure rfl
    · exact .unsupported _ _
  have hfrom : ∀ rest k f along, Returns (seededFrom s (planner s) r.target.name along f k rest)
      fun g => g.params = f.params := by
    intro rest
    induction rest with
    | zero => exact fun k f along => .pure rfl
    | succ rest ih =>
      exact fun k f along => .after fun name => (hseeded f along name).bind fun g hg =>
        (ih (k + 1) g along).mono fun g' hg' => hg'.trans hg
  unfold directional
  dsimp only
  split
  · exact .unsupported _ _
  · split
    · exact .unsupported _ _
    · exact hfrom _ _ _ _

/-- The derivative by an independent variable goes to an array if the variable is one, and to a
reference otherwise. -/
def adjointTy (f : Func) (v : Request.Independent) : Ty :=
  if Request.isArrayAt f v.param then .arrayOf .float else .ref .float

theorem gives_independents (modified : List String) (f : Func) (vs : List Request.Independent) :
    Gives (independents modified f.params vs) fun r =>
      r.1.params.map (·.ty) = vs.map (adjointTy f) := by
  induction vs with
  | nil => exact .pure rfl
  | cons v vs ih =>
    have harray : (f.params[v.param]?.getD default).ty.isArray = Request.isArrayAt f v.param := by
      rw [Request.isArrayAt]
      cases f.params[v.param]? <;> rfl
    have hrest : ∀ (own : AdjointParams) (scalars : List (String × String)),
        own.params.map (·.ty) = [adjointTy f v] → Gives (do
          let r ← independents modified f.params vs
          return (own.append r.1, scalars ++ r.2)) fun r =>
            r.1.params.map (·.ty) = (v :: vs).map (adjointTy f) := by
      intro own scalars hown
      refine ih.bind fun r hr => .pure ?_
      simp [AdjointParams.append, hown, hr]
    unfold independents
    refine .after fun out => ?_
    dsimp only
    rw [harray]
    split
    · rename_i hat
      refine Gives.bind (Q := fun own => own.params = [⟨out, .arrayOf .float⟩]) ?_
        fun own hown => hrest own _ (by simp [hown, adjointTy, hat])
      unfold independentArray
      split
      · exact .after fun _ => .pure rfl
      · exact .after fun _ => .after fun _ => .after fun _ => .pure rfl
    · rename_i hat
      refine Gives.bind (Q := fun own => own.2.params = [⟨out, .ref .float⟩]) ?_
        fun own hown => hrest own.2 _ (by simp [hown, adjointTy, hat])
      unfold independentScalar
      split
      · exact .after fun own => .after fun _ => .pure rfl
      · exact .after fun _ => .pure rfl

theorem gives_errorSink (epsilon : Option Float) :
    Gives (errorSink epsilon true) fun sink =>
      (sinkParam sink).map (·.ty) = if epsilon.isSome then [.ref .float] else [] := by
  cases epsilon with
  | none => exact .pure rfl
  | some epsilon => exact .after fun _ => .pure rfl

theorem returns_gradientWith (s : Setting) (r : Request) (epsilon : Option Float) :
    Returns (gradientWith s (planner s) r epsilon) fun g => ∃ new,
      g.params = r.target.params ++ new ∧ new.map (·.ty) = r.independents.map (adjointTy r.target) ++
        if epsilon.isSome then [.ref .float] else [] := by
  unfold gradientWith
  refine .after fun name => .after fun source => .after fun host => Gives.run ?_ _
  refine (gives_independents _ r.target r.independents).bind fun adjoints hadjoints => ?_
  refine .after fun others => (gives_errorSink epsilon).bind fun sink hsink => ?_
  have hnew : (adjoints.1.params ++ sinkParam sink).map (·.ty) =
      r.independents.map (adjointTy r.target) ++ if epsilon.isSome then [.ref .float] else [] := by
    rw [List.map_append, hadjoints, hsink]
  dsimp only
  split
  · exact .after fun sweeps => .after fun σ => .pure ⟨_, List.append_assoc _ _ _, hnew⟩
  · refine .after fun sweeps => .after fun code => .after fun σ => .pure ?_
    exact ⟨_, List.append_assoc _ _ _, hnew⟩

theorem takes_adjoint (f : Func) (given : List (Arg Float)) (v : Request.Independent) :
    (adjointTy f v).Takes (Command.adjointFor f given v) := by
  unfold adjointTy Command.adjointFor
  split
  · exact .array _ _ _
  · exact .ref _ _

end Derive

end Fluxion
