import Mathlib.Tactic.Tauto
import Fluxion.Analysis.Usage

/-!
What the lists of an analysis hold.
-/

namespace Fluxion.Analysis

theorem mem_distinct {names : List String} {x : String} : x ∈ distinct names ↔ x ∈ names := by
  have hfold : ∀ names seen : List String, x ∈ names.foldl
      (fun seen y => if seen.contains y then seen else seen ++ [y]) seen ↔ x ∈ seen ∨ x ∈ names := by
    intro names
    induction names with
    | nil => simp
    | cons y names ih =>
      intro seen
      rw [List.foldl_cons, ih, List.mem_cons]
      split
      · rename_i hy
        have hx : x = y → x ∈ seen := by
          rintro rfl
          simpa using hy
        tauto
      · rw [List.mem_append, List.mem_singleton, or_assoc]
  rw [distinct, hfold]
  simp

theorem mem_calls {body : List Stmt} {f : String} {args : List Expr} :
    (f, args) ∈ calls body ↔ Expr.call f args ∈ partsOf body := by
  simp only [calls, List.mem_filterMap]
  constructor
  · rintro ⟨e, he, hcall⟩
    split at hcall
    · obtain ⟨rfl, rfl⟩ : _ = f ∧ _ = args := by simpa using hcall
      exact he
    · cases hcall
  · intro h
    exact ⟨_, h, rfl⟩

theorem mem_callees {body : List Stmt} {g : String} :
    g ∈ callees body ↔ ∃ args, Expr.call g args ∈ partsOf body := by
  simp only [callees, mem_distinct, List.mem_map, ← mem_calls]
  constructor
  · rintro ⟨⟨f, args⟩, h, rfl⟩
    exact ⟨args, h⟩
  · rintro ⟨args, h⟩
    exact ⟨(g, args), h, rfl⟩

end Fluxion.Analysis
