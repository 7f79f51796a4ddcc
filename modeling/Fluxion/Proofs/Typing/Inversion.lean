import Fluxion.Proofs.Typing.Inference

/-!
What it takes for statements, a function and a program to pass the checker.
-/

namespace Fluxion.Typing

variable {resolve : Resolver}

section

variable {env env' : TyEnv}

theorem of_checkLocalTy {d : Local} {u : Unit} (h : checkLocalTy d = .ok u) :
    d.ty.isScalar = true ∨ ∃ elem, d.ty = .tape elem ∧ elem.isScalar = true ∧ d.init = none := by
  unfold checkLocalTy at h
  split at h
  · rename_i hty
    simp [hty, Ty.isScalar]
  · rename_i hty
    simp [hty, Ty.isScalar]
  · rename_i hty
    simp [hty, Ty.isScalar]
  · rename_i elem hty
    split at h
    · cases h
    · rename_i hscalar
      split at h
      · cases h
      · rename_i hinit
        exact .inr ⟨elem, hty, by simpa using hscalar, by simpa using hinit⟩
  · cases h

theorem of_checkLocal {d : Local} (h : checkLocal resolve env d = .ok env') :
    env' = (d.name, d.ty) :: env ∧
      (d.ty.isScalar = true ∨ ∃ elem, d.ty = .tape elem ∧ elem.isScalar = true ∧ d.init = none) ∧
      ∀ e, d.init = some e →
        ∃ found, checkExpr resolve env e = .ok found ∧ d.ty.takes found = true := by
  simp only [checkLocal, except_bind_eq_ok] at h
  obtain ⟨_, hty, h⟩ := h
  cases hinit : d.init with
  | none =>
    simp only [hinit, except_pure_eq_ok] at h
    exact ⟨h.symm, hinit ▸ of_checkLocalTy hty, fun e he => by cases he⟩
  | some e =>
    simp only [hinit, except_bind_eq_ok, except_pure_eq_ok, expectTakes_eq_ok] at h
    obtain ⟨found, hfound, _, htakes, henv⟩ := h
    refine ⟨henv.symm, hinit ▸ of_checkLocalTy hty, fun e' he' => ?_⟩
    cases he'
    exact ⟨found, hfound, htakes⟩

theorem of_checkPlace_var {x : String} {t : Ty}
    (h : checkPlace resolve env (.var x) = .ok t) :
    ∃ declared, env.lookup x = some declared ∧ t = declared.value ∧ declared.element? = none := by
  simp only [checkPlace, except_bind_eq_ok, Place.name, lookup_eq_ok] at h
  obtain ⟨declared, hx, h⟩ := h
  refine ⟨declared, hx, ?_⟩
  split at h <;> cases h <;> exact ⟨rfl, rfl⟩

theorem of_checkPlace_index {x : String} {i : Expr} {t : Ty}
    (h : checkPlace resolve env (.index x i) = .ok t) :
    checkExpr resolve env i = .ok .int ∧ ∃ len, env.lookup x = some (.array t len) := by
  simp only [checkPlace, except_bind_eq_ok, Place.name, lookup_eq_ok] at h
  obtain ⟨declared, hx, found, hi, h⟩ := h
  split at h
  · rename_i hint
    obtain ⟨len, rfl⟩ := elementOf_eq_ok.mp h
    exact ⟨hint ▸ hi, len, hx⟩
  · cases h

theorem of_checkAssignment {a : Assignment} {u : Unit}
    (h : checkAssignment resolve env a = .ok u) :
    ∃ target found, checkPlace resolve env a.place = .ok target ∧
      checkExpr resolve env a.value = .ok found ∧ target.takes found = true ∧
      (a.op ≠ .set → target.isNumeric = true) := by
  simp only [checkAssignment, except_bind_eq_ok] at h
  obtain ⟨target, hplace, found, hvalue, h⟩ := h
  split at h
  · cases h
  · rename_i hnumeric
    refine ⟨target, found, hplace, hvalue, expectTakes_eq_ok.mp h, fun hop => ?_⟩
    by_contra hnot
    exact hnumeric ⟨hop, by simpa using hnot⟩

theorem of_checkCondition {e : Expr} {u : Unit} (h : checkCondition resolve env e = .ok u) :
    checkExpr resolve env e = .ok .bool := by
  simp only [checkCondition, except_bind_eq_ok] at h
  obtain ⟨t, ht, h⟩ := h
  split at h
  · rename_i hbool
    exact hbool ▸ ht
  · cases h

theorem of_checkStmt_arrayDecl {ret : Ty} {x : String} {elem : Ty} {len : Expr}
    (h : checkStmt resolve ret env (.arrayDecl x elem len) = .ok env') :
    elem.isScalar = true ∧ checkExpr resolve env len = .ok .int ∧
      env' = (x, .arrayOf elem) :: env := by
  simp only [checkStmt] at h
  split at h
  · rename_i helem
    simp only [except_bind_eq_ok] at h
    obtain ⟨found, hfound, h⟩ := h
    split at h
    · rename_i hint
      exact ⟨helem, hint ▸ hfound, (except_pure_eq_ok.mp h).symm⟩
    · cases h
  · cases h

theorem of_checkReturn_some {ret : Ty} {e : Expr} {u : Unit}
    (h : checkReturn resolve env ret (some e) = .ok u) :
    ∃ found, checkExpr resolve env e = .ok found ∧ ret.takes found = true ∧
      (ret = .void → found = .void) := by
  simp only [checkReturn, except_bind_eq_ok] at h
  obtain ⟨found, hfound, h⟩ := h
  split at h
  · cases h
  · rename_i hvoid
    refine ⟨found, hfound, expectTakes_eq_ok.mp h, fun hret => ?_⟩
    by_contra hnot
    exact hvoid ⟨hret, hnot⟩

end

/-! ### Loops, functions and programs -/

/-- The variables of a loop: those before it and what its header declares. -/
def checkInit? (resolve : Resolver) (env : TyEnv) : Option LoopInit → Check TyEnv
  | some i => checkLoopInit resolve env i
  | none => .ok env

/-- The condition of a loop header. -/
def checkTest? (resolve : Resolver) (env : TyEnv) : Option Expr → Check Unit
  | some e => checkCondition resolve env e
  | none => .ok ()

/-- The last part of a loop header. -/
def checkStep? (resolve : Resolver) (env : TyEnv) : Option Assignment → Check Unit
  | some a => checkAssignment resolve env a
  | none => .ok ()

theorem checkStmt_for (ret : Ty) (env : TyEnv) (init : Option LoopInit) (test : Option Expr)
    (step : Option Assignment) (body : List Stmt) :
    checkStmt resolve ret env (.for_ init test step body) = (do
      let inner ← checkInit? resolve env init
      checkTest? resolve inner test
      checkStep? resolve inner step
      checkBody resolve ret inner body
      return env) := by
  cases init <;> cases test <;> cases step <;> rfl

/-- A program without errors has none in any of its functions. -/
theorem checkFunc_of_check {p : Program} (h : check p = []) {f : Func} (hf : f ∈ p) :
    checkFunc p.resolve f = .ok () := by
  have hall : ∀ (seen : List Signature) (fs : List Func), checkFrom p.resolve seen fs = [] →
      ∀ g ∈ fs, checkFunc p.resolve g = .ok () := by
    intro seen fs
    induction fs generalizing seen with
    | nil => simp
    | cons g rest ih =>
      intro hnone
      simp only [checkFrom, List.append_eq_nil_iff] at hnone
      have hown : checkFunc p.resolve g = .ok () := by
        cases hg : checkFunc p.resolve g with
        | ok u => rfl
        | error e => simp [hg] at hnone
      intro g' hg'
      rcases List.mem_cons.mp hg' with rfl | hmem
      · exact hown
      · exact ih _ hnone.2 g' hmem
  exact hall [] p h f hf

end Fluxion.Typing
