import Mathlib
import Fluxion.Proofs.Decimal.Layouts
import Fluxion.Proofs.Grammar.Comments
import Fluxion.Proofs.Grammar.Parsed

/-!
Printing and parsing are inverse: the text of a program that was parsed is parsed as that program.
-/

namespace Fluxion

/-- The expression is no literal for an infinity or a NaN. -/
def Expr.isFinite : Expr → Bool
  | .float v => v.isFinite
  | _ => true

/-- All float literals in the program are finite. -/
def Program.isFinite (p : Program) : Bool :=
  p.all fun f => (partsOf (f.body.getD [])).all Expr.isFinite

namespace Grammar

open Fluxion.Decimal

/-- Code whose float literals are finite. -/
def finiteLiterals : Rule where
  part e := e.isFinite = true
  target _ := True
  declares _ := True
  returns := True

theorem spellable_of_isFinite {e : Expr} (h : e.Wellspelt IsMagnitude) (hfinite : e.isFinite = true) :
    e.Spellable := by
  cases e with
  | float v =>
    obtain ⟨m, hm, rfl⟩ := h
    exact readsBack_ofMagnitude (lt_of_isFinite hm hfinite)
  | int _ | bool _ | var _ | index _ _ | unary _ _ | binary _ _ _ | call _ _ | funcRef _ => exact h

theorem implies_spelled : ((wellspelt IsMagnitude).inter finiteLiterals).Implies spelled where
  part _ h := spellable_of_isFinite h.1 h.2
  target _ h := h.1
  declares _ h := h.1
  returns _ := trivial

/-- A function that is read can be written down if its float literals are finite. -/
theorem spelled_of_isFinite {f : Func} (h : f.Wellspelt IsMagnitude)
    (hfinite : ∀ part ∈ partsOf (f.body.getD []), part.isFinite = true) : f.Spelled := by
  refine ⟨h.name, h.params, h.ret, ?_⟩
  intro b hb
  obtain ⟨hbody, hplain⟩ := h.body b hb
  rw [hb] at hfinite
  have hliterals : finiteLiterals.Body b :=
    Rule.body_of_mem trivial hfinite (fun _ _ => trivial) (fun _ _ => trivial)
  exact ⟨implies_spelled.body (Rule.body_inter hbody hliterals), hplain⟩

/-- A program that can be written down is parsed from its text. -/
theorem parse_text_of_spelled {p : Program} (hp : ∀ f ∈ p, f.Spelled) :
    ∃ q, parse p.text = .ok q ∧ q.map Func.content = p.map Func.content := by
  obtain ⟨q, pos, alt, hread, hq⟩ := takes_program hp (Nat.lt_succ_self _) 0
  refine ⟨q, ?_, hq⟩
  rw [parse, blankComments_text hp, parseWith, Cursor.start, hread]

/-- A program that was parsed, with finite float literals, is parsed from its text: the same functions
in the same order, but for the ranges they are read from. -/
theorem parse_text_of_parse {source : String} {p : Program} (h : parse source = .ok p)
    (hfinite : p.isFinite = true) :
    ∃ q, parse p.text = .ok q ∧ q.map Func.content = p.map Func.content := by
  apply parse_text_of_spelled
  intro f hf
  refine spelled_of_isFinite (wellspelt_of_parse h f hf) ?_
  exact List.all_eq_true.mp (List.all_eq_true.mp hfinite f hf)

/-- A program with a namespace, a comment, a chain of branches and parentheses that are needed. -/
def sample : String :=
  "namespace a \x7b fn f(x: f64, c: [f64; 3]) -> f64 \x7b // two\n if (x < 1e-3) \x7b return - -c[0]; \x7d "
    ++ "else if (!(x > 2.)) \x7b x += x - (x - 15e-1); \x7d return 0.1 * 3; \x7d \x7d"

theorem parse_text_of_parse_sample : ∃ p q, parse sample = .ok p ∧ p.isFinite = true ∧
    parse p.text = .ok q ∧ q.map Func.content = p.map Func.content := by
  have hread : (match parse sample with
      | .ok p => p.isFinite
      | .error _ => false) = true := by decide +kernel
  cases hp : parse sample with
  | error why =>
    rw [hp] at hread
    cases hread
  | ok p =>
    rw [hp] at hread
    obtain ⟨q, hq, hcontent⟩ := parse_text_of_parse hp hread
    exact ⟨p, q, rfl, hread, hq, hcontent⟩

end Grammar

end Fluxion
