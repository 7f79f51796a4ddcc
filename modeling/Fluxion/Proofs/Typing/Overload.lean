import Mathlib.Data.List.Basic
import Fluxion.Typing.Overload

namespace Fluxion

theorem mem_of_resolve {p : Program} {name : String} {args : List Ty} {f : Func}
    (h : p.resolve name args = some f) : f ∈ p ∧ f.name = name := by
  have hfold : ∀ (fs : List Func) (best : Option (Nat × Func)) (c : Nat) (g : Func),
      fs.foldl (cheaper args) best = some (c, g) → g ∈ fs ∨ ∃ c', best = some (c', g) := by
    intro fs
    induction fs with
    | nil => exact fun best c g hg => .inr ⟨c, hg⟩
    | cons f fs ih =>
      intro best c g hg
      rcases ih _ c g hg with hmem | ⟨c', hbest⟩
      · exact .inl (List.mem_cons_of_mem _ hmem)
      · unfold cheaper at hbest
        split at hbest
        · exact .inr ⟨c', hbest⟩
        · simp_all
        · split at hbest <;> simp_all
  simp only [Program.resolve, Option.map_eq_some_iff] at h
  obtain ⟨⟨c, g⟩, hfound, rfl⟩ := h
  rcases hfold _ _ c g hfound with hmem | ⟨_, hbest⟩
  · simpa [Program.overloads] using hmem
  · cases hbest

end Fluxion
