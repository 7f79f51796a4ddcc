import Fluxion.Proofs.Apart.Matrices
import Fluxion.Proofs.Emitted.Estimates

/-!
Names that are generated never capture: not those of derived functions, and not those of the
variables in them.
-/

namespace Fluxion.Derive

open Library (Registry)

/-- What a derived function declares beside what it keeps has names of its own. -/
theorem DerivedFrom.apart {s : Setting} {r : Request} {support : List Func} {f g : Func}
    (h : DerivedFrom s r support g f) :
    (∃ kept src, Keeps s.registry f kept src ∧ Apart kept src g) ∨
      f = r.target ∧ ColumnsApart f g := by
  cases h with
  | synthesized hf hrun =>
    rename_i kind _ _ _ _ _
    cases kind with
    | pushforward =>
      exact .inl ⟨_, _, .renamed, (builtOn_pushforward f _ _ _ _ hrun).apart⟩
    | pullback =>
      obtain ⟨src, hsrc, hbuilt⟩ := builtOn_pullback _ _ f _ _ _ _ hrun
      exact .inl ⟨_, src, .canonical hsrc, hbuilt.apart⟩
  | seeded hf hg =>
    obtain ⟨along, n, st, st', hrun⟩ := hg
    rcases builtOn_seeded f along _ _ _ _ hrun with hbuilt | ⟨hcustom, hbuilt⟩
    · exact .inl ⟨_, _, .renamed, hbuilt.apart⟩
    · exact .inl ⟨_, _, .pushed hcustom, hbuilt.apart⟩
  | gradient hrun =>
    obtain ⟨kept, src, hkeeps, hbuilt⟩ := builtOn_gradientWith _ _ _ _ _ _ _ hrun
    exact .inl ⟨kept, src, hkeeps, hbuilt.apart⟩
  | jacobian hrun =>
    obtain ⟨src, hsrc, hbuilt⟩ := builtOn_jacobian _ _ _ _ _ hrun
    exact .inl ⟨_, src, .canonical hsrc, hbuilt.apart⟩
  | hessian hrun => exact .inr ⟨rfl, columnsApart_hessian _ _ _ _ _ hrun⟩

/-- Derived functions have names that no function of the program has, each its own. -/
theorem names_of_differentiate {p : Program} {registry : Registry} {options : Options}
    {r : Request} {d : Derived} (horder : r.order ≠ 0)
    (hd : differentiate p registry options r = .ok d) :
    (d.funcs.map (·.name)).Nodup ∧ ∀ g ∈ d.funcs, ∀ f ∈ p, g.name ≠ f.name := by
  obtain ⟨st, hacc, hsupport, _, hanswer⟩ := accounted_of_differentiate hd
  obtain ⟨hother, hforeign⟩ := foreign_of_took (hanswer horder).took
  rw [hsupport] at hother
  refine ⟨?_, fun g hg f hf => ?_⟩
  · rw [Derived.funcs, List.map_append, List.nodup_append]
    refine ⟨hsupport ▸ hacc.distinct, by simp, fun a ha b hb => ?_⟩
    obtain ⟨g, hg, rfl⟩ := List.mem_map.mp ha
    obtain rfl : b = d.func.name := by simpa using hb
    exact hother g hg
  · rcases List.mem_append.mp hg with hg | hg
    · exact hacc.foreign g (hsupport ▸ hg) f hf
    · obtain rfl : g = d.func := List.mem_singleton.mp hg
      exact (hforeign f hf).symm

/-- Functions and variables with names that derived ones would have. -/
def hostileNames : Session.Sample ⟨"f", .reverse, none, 1, .standard⟩ fun p registry r =>
    match differentiate p registry .standard r with
    | .error _ => false
    | .ok d => decide (d.func.name = "f_grad_1" ∧ "_d_x_1" ∈ d.func.params.map (·.name)) where
  source :=
    "fn f_grad(x: f64) -> f64 \x7b return x; \x7d\n" ++
    "fn f(x: f64, _d_x: f64) -> f64 \x7b\n" ++
    "  let _t0: f64 = x * _d_x;\n" ++
    "  let _r_d0: f64 = _t0;\n" ++
    "  while (_t0 < 3.0) \x7b let _loop0: f64 = _t0; _t0 = _loop0 * _r_d0; \x7d\n" ++
    "  return _t0;\n" ++
    "\x7d"
  admitted := by decide +kernel

/-- A function with a local in each branch that the columns of a hessian would have a name for. -/
def scratchInBranches : Session.Sample ⟨"f", .hessian, some "x", 1, .standard⟩ fun p registry r =>
    match differentiate p registry .standard r with
    | .error _ => false
    | .ok d => decide ("_h_r_1" ∈ (declaredIn d.func.stmts).map Prod.fst ∧
      "_h_r_1" ∈ (declaredIn (Canonical.uniqueLocals r.target).stmts).map Prod.fst ∧
      "_h_r_1" ∉ (declaredIn r.target.stmts).map Prod.fst) where
  source :=
    "fn f(x: f64, r: &f64) -> f64 \x7b " ++
    "if (x > 0.0) \x7b let _h_r: f64 = x; r = _h_r; \x7d " ++
    "else \x7b let _h_r: f64 = x * x; r = _h_r; \x7d return r; \x7d"
  admitted := by decide +kernel

end Fluxion.Derive
