import Mathlib.Logic.Basic
import Fluxion.Eval.Store

namespace Fluxion

/-- A sequence of steps that may fail succeeds when both steps do. -/
@[simp] theorem except_bind_eq_ok {ε α β : Type} {x : Except ε α} {f : α → Except ε β} {b : β} :
    (x >>= f) = .ok b ↔ ∃ a, x = .ok a ∧ f a = .ok b := by
  cases x with
  | error e => simp [bind, Except.bind]
  | ok a => simp [bind, Except.bind]

@[simp] theorem except_pure_eq_ok {ε α : Type} {a b : α} :
    (pure a : Except ε α) = .ok b ↔ a = b := by
  simp [pure, Except.pure]

theorem except_map_eq_ok {ε α β : Type} {x : Except ε α} {f : α → β} {b : β} :
    x.map f = .ok b ↔ ∃ a, x = .ok a ∧ f a = b := by
  cases x <;> simp [Except.map]

@[simp] theorem except_throw_ne_ok {ε α : Type} {e : ε} {b : α} :
    (throw e : Except ε α) ≠ .ok b := by
  simp [throw, throwThe, MonadExceptOf.throw]

/-- The same of steps that have a state, which they keep on failure. -/
theorem state_bind_eq_ok {ε σ α β : Type} {m : EStateM ε σ α} {f : α → EStateM ε σ β} {s s' : σ}
    {b : β} : (m >>= f) s = .ok b s' ↔ ∃ a s₁, m s = .ok a s₁ ∧ f a s₁ = .ok b s' := by
  simp only [bind, EStateM.bind]
  cases m s with
  | ok a s₁ => simp [and_assoc]
  | error e s₁ => simp

/-- The same of steps with a second state, which is lost on failure. -/
theorem stateT_bind_eq_ok {ε σ τ α β : Type} {m : StateT τ (EStateM ε σ) α}
    {f : α → StateT τ (EStateM ε σ) β} {t : τ} {s s' : σ} {r : β × τ} :
    (m >>= f) t s = .ok r s' ↔ ∃ a t₁ s₁, m t s = .ok (a, t₁) s₁ ∧ f a t₁ s₁ = .ok r s' := by
  change (m t >>= fun x => f x.1 x.2) s = _ ↔ _
  rw [state_bind_eq_ok]
  exact ⟨fun ⟨x, s₁, hm, hf⟩ => ⟨x.1, x.2, s₁, hm, hf⟩, fun ⟨a, t₁, s₁, hm, hf⟩ =>
    ⟨(a, t₁), s₁, hm, hf⟩⟩

/-- Reading the state and changing it never fail. -/
theorem state_get {ε σ : Type} (s : σ) : (get : EStateM ε σ σ) s = .ok s s := rfl

theorem state_modify {ε σ : Type} (f : σ → σ) (s : σ) :
    (modify f : EStateM ε σ Unit) s = .ok () (f s) := rfl

end Fluxion
