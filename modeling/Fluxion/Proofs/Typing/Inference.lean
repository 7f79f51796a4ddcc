import Mathlib.Data.List.Forall2
import Fluxion.Proofs.Results
import Fluxion.Typing.Checker

/-!
What it takes for an expression to pass the checker, form by form. The type that the checker gives
is then the one that is inferred without checking.
-/

namespace Fluxion.Typing

variable {resolve : Resolver} {env : TyEnv} {t : Ty}

theorem lookup_eq_ok {x : String} : lookup env x = .ok t ↔ env.lookup x = some t := by
  unfold lookup
  split
  · rename_i t' h
    simp [h]
  · rename_i h
    simp [h]

theorem elementOf_eq_ok {x : String} {declared : Ty} :
    elementOf x declared = .ok t ↔ ∃ len, declared = .array t len := by
  cases declared <;> simp [elementOf, refuse]

theorem expectTakes_eq_ok {target found : Ty} {what : String} {u : Unit} :
    expectTakes target found what = .ok u ↔ target.takes found = true := by
  unfold expectTakes
  split
  · rename_i h
    simp [h]
  · rename_i h
    simp [refuse, h]

/-! ### Expressions -/

theorem of_checkExpr_var {x : String} (h : checkExpr resolve env (.var x) = .ok t) :
    ∃ declared, env.lookup x = some declared ∧ t = declared.value := by
  simp only [checkExpr_var, except_bind_eq_ok, except_pure_eq_ok, lookup_eq_ok] at h
  obtain ⟨declared, hx, ht⟩ := h
  exact ⟨declared, hx, ht.symm⟩

theorem of_checkExpr_index {x : String} {i : Expr}
    (h : checkExpr resolve env (.index x i) = .ok t) :
    checkExpr resolve env i = .ok .int ∧ ∃ len, env.lookup x = some (.array t len) := by
  simp only [checkExpr, except_bind_eq_ok] at h
  obtain ⟨ti, hi, h⟩ := h
  split at h
  · rename_i hint
    simp only [except_bind_eq_ok, lookup_eq_ok, elementOf_eq_ok] at h
    obtain ⟨_, hx, len, rfl⟩ := h
    exact ⟨hint ▸ hi, len, hx⟩
  · cases h

theorem of_checkExpr_unary {op : UnOp} {e : Expr}
    (h : checkExpr resolve env (.unary op e) = .ok t) :
    ∃ te, checkExpr resolve env e = .ok te ∧ (e.type? resolve env).bind op.result? = some t := by
  simp only [checkExpr, except_bind_eq_ok] at h
  obtain ⟨te, he, h⟩ := h
  split at h
  · rename_i t' ht
    cases h
    exact ⟨te, he, by simpa [Expr.type?] using ht⟩
  · cases h

theorem of_checkExpr_binary {op : BinOp} {l r : Expr}
    (h : checkExpr resolve env (.binary op l r) = .ok t) :
    ∃ tl tr, checkExpr resolve env l = .ok tl ∧ checkExpr resolve env r = .ok tr ∧
      op.result? tl tr = some t := by
  simp only [checkExpr, except_bind_eq_ok] at h
  obtain ⟨tl, hl, tr, hr, h⟩ := h
  split at h
  · rename_i t' ht
    cases h
    exact ⟨tl, tr, hl, hr, ht⟩
  · cases h

section

variable {f : String} {args : List Expr} (h : checkExpr resolve env (.call f args) = .ok t)

include h

theorem of_checkExpr_len (hf : Intrinsic.ofName? f = some .len) :
    ∃ x elem len, args = [.var x] ∧ env.lookup x = some (.array elem len) ∧ t = .int := by
  simp only [checkExpr, hf] at h
  split at h
  · rename_i x
    simp only [except_bind_eq_ok, lookup_eq_ok] at h
    obtain ⟨declared, hx, h⟩ := h
    split at h
    · rename_i harray
      cases h
      cases declared <;> simp [Ty.isArray] at harray
      exact ⟨x, _, _, rfl, hx, rfl⟩
    · cases h
  · cases h

theorem of_checkExpr_push (hf : Intrinsic.ofName? f = some .push) :
    ∃ x value elem, args = [.var x, value] ∧ env.lookup x = some (.tape elem) ∧
      checkExpr resolve env value = .ok t ∧ elem.takes t = true := by
  simp only [checkExpr, hf] at h
  unfold checkPush at h
  split at h
  · rename_i x value
    simp only [except_bind_eq_ok, lookup_eq_ok] at h
    obtain ⟨declared, hx, h⟩ := h
    split at h
    · rename_i elem
      simp only [except_bind_eq_ok, except_pure_eq_ok, expectTakes_eq_ok] at h
      obtain ⟨found, hfound, _, htakes, rfl⟩ := h
      exact ⟨x, value, elem, rfl, hx, hfound, htakes⟩
    · cases h
  · cases h

theorem of_checkExpr_pop (hf : Intrinsic.ofName? f = some .pop) :
    ∃ x, args = [.var x] ∧ env.lookup x = some (.tape t) := by
  simp only [checkExpr, hf] at h
  split at h
  · rename_i x
    simp only [except_bind_eq_ok, lookup_eq_ok] at h
    obtain ⟨declared, hx, h⟩ := h
    split at h
    · cases h
      exact ⟨x, rfl, hx⟩
    · cases h
  · cases h

theorem of_checkExpr_difference (hf : Intrinsic.ofName? f = some .centralDifference) :
    ∃ target k print rest types callee, args = .funcRef target :: k :: print :: rest ∧
      checkExpr resolve env k = .ok .int ∧ checkExpr resolve env print = .ok .bool ∧
      checkExprs resolve env rest = .ok types ∧ resolve target types = some callee ∧
      t = .float := by
  simp only [checkExpr, hf] at h
  unfold checkDifference at h
  split at h
  · rename_i target k print rest
    simp only [except_bind_eq_ok] at h
    obtain ⟨tk, hk, h⟩ := h
    split at h
    · cases h
    · rename_i hint
      simp only [except_bind_eq_ok] at h
      obtain ⟨tp, hp, h⟩ := h
      split at h
      · cases h
      · rename_i hbool
        simp only [except_bind_eq_ok] at h
        obtain ⟨types, htypes, h⟩ := h
        split at h
        · rename_i callee hcallee
          split at h
          · simp only [except_pure_eq_ok] at h
            refine ⟨target, k, print, rest, types, callee, rfl, ?_, ?_, htypes, hcallee, h.symm⟩
            · exact (not_not.mp hint) ▸ hk
            · exact (not_not.mp hbool) ▸ hp
          · simp at h
        · simp at h
  · cases h

theorem of_checkExpr_call (hf : Intrinsic.ofName? f = none) :
    ∃ types callee, checkArgs resolve env args = .ok types ∧ resolve f types = some callee ∧
      checkBinding f callee.params args = .ok () ∧ t = callee.ret := by
  simp only [checkExpr, hf, except_bind_eq_ok] at h
  obtain ⟨types, htypes, h⟩ := h
  split at h
  · simp at h
  · rename_i callee hcallee
    simp only [except_bind_eq_ok, except_pure_eq_ok] at h
    obtain ⟨_, hbinding, ht⟩ := h
    exact ⟨types, callee, htypes, hcallee, hbinding, ht.symm⟩

end

theorem of_checkArgs_cons {e : Expr} {es : List Expr} {types : List Ty}
    (h : checkArgs resolve env (e :: es) = .ok types) :
    ∃ te t rest, checkExpr resolve env e = .ok te ∧ e.type? resolve env = some t ∧
      checkArgs resolve env es = .ok rest ∧ types = t :: rest := by
  simp only [checkArgs, except_bind_eq_ok] at h
  obtain ⟨te, he, h⟩ := h
  split at h
  · cases h
  · rename_i t ht
    simp only [except_bind_eq_ok, except_pure_eq_ok] at h
    obtain ⟨rest, hrest, htypes⟩ := h
    exact ⟨te, t, rest, he, ht, hrest, htypes.symm⟩

theorem of_checkExprs_cons {e : Expr} {es : List Expr} {types : List Ty}
    (h : checkExprs resolve env (e :: es) = .ok types) :
    ∃ t rest, checkExpr resolve env e = .ok t ∧ checkExprs resolve env es = .ok rest ∧
      types = t :: rest := by
  simp only [checkExprs, except_bind_eq_ok, except_pure_eq_ok] at h
  obtain ⟨t, ht, rest, hrest, htypes⟩ := h
  exact ⟨t, rest, ht, hrest, htypes.symm⟩

/-- Arguments for references are variables or elements. -/
theorem of_checkBinding_cons {callee : String} {p : Param} {ps : List Param} {e : Expr}
    {es : List Expr} (h : checkBinding callee (p :: ps) (e :: es) = .ok ()) :
    (p.ty.isRef = true → e.place? ≠ none) ∧ checkBinding callee ps es = .ok () := by
  unfold checkBinding at h
  split at h
  · split at h
    · cases h
    · rename_i hplace
      exact ⟨fun _ hnone => hplace (by rw [hnone]; rfl), h⟩
  · rename_i hty
    exact ⟨fun href => by simp [hty, Ty.isRef] at href, h⟩
  · cases h
  · rename_i href _ _
    refine ⟨fun h => ?_, by assumption⟩
    cases hty : p.ty <;> simp_all [Ty.isRef]

/-! ### Inference -/

mutual

/-- The type that the checker gives an expression is the one that is inferred. -/
theorem type?_of_checkExpr : ∀ {e : Expr} {t : Ty}, checkExpr resolve env e = .ok t →
    e.type? resolve env = some t
  | .float _, t, h | .int _, t, h | .bool _, t, h => by
    simp only [checkExpr, Except.ok.injEq] at h
    simp [Expr.type?, h]
  | .var x, t, h => by
    obtain ⟨declared, hx, rfl⟩ := of_checkExpr_var h
    simp [Expr.type?, TyEnv.value?, hx]
  | .index x i, t, h => by
    obtain ⟨_, len, hx⟩ := of_checkExpr_index h
    simp [Expr.type?, TyEnv.element?, hx, Ty.element?]
  | .unary op e, t, h => by
    obtain ⟨_, _, ht⟩ := of_checkExpr_unary h
    simpa [Expr.type?] using ht
  | .binary op l r, t, h => by
    obtain ⟨tl, tr, hl, hr, ht⟩ := of_checkExpr_binary h
    simp [Expr.type?, type?_of_checkExpr hl, type?_of_checkExpr hr, ht]
  | .funcRef _, t, h => by cases h
  | .call f args, t, h => by
    unfold Expr.type?
    cases hf : Intrinsic.ofName? f with
    | none =>
      obtain ⟨types, callee, htypes, hcallee, _, rfl⟩ := of_checkExpr_call h hf
      simp [types?_of_checkArgs htypes, hcallee]
    | some i =>
      cases i with
      | len =>
        obtain ⟨_, _, _, _, _, rfl⟩ := of_checkExpr_len h hf
        rfl
      | push =>
        obtain ⟨x, value, elem, hargs, _, hvalue, _⟩ := of_checkExpr_push h hf
        subst hargs
        simp [secondType?, firstType?, type?_of_checkExpr hvalue]
      | pop =>
        obtain ⟨x, rfl, hx⟩ := of_checkExpr_pop h hf
        simp [TyEnv.element?, hx, Ty.element?]
      | centralDifference =>
        obtain ⟨_, _, _, _, _, _, _, _, _, _, _, rfl⟩ := of_checkExpr_difference h hf
        rfl

theorem types?_of_checkArgs : ∀ {es : List Expr} {types : List Ty},
    checkArgs resolve env es = .ok types → types? resolve env es = some types
  | [], types, h => by
    cases h
    simp [types?]
  | e :: es, types, h => by
    obtain ⟨_, t, rest, _, ht, hrest, rfl⟩ := of_checkArgs_cons h
    simp [types?, ht, types?_of_checkArgs hrest]

end

theorem result?_of_checkExpr_unary {op : UnOp} {e : Expr}
    (h : checkExpr resolve env (.unary op e) = .ok t) :
    ∃ te, checkExpr resolve env e = .ok te ∧ op.result? te = some t := by
  obtain ⟨te, he, ht⟩ := of_checkExpr_unary h
  rw [type?_of_checkExpr he] at ht
  exact ⟨te, he, ht⟩

/-- The types by which a call is resolved are those that the checker gives its arguments. -/
theorem checkExprs_of_checkArgs {es : List Expr} {types : List Ty}
    (h : checkArgs resolve env es = .ok types) : checkExprs resolve env es = .ok types := by
  induction es generalizing types with
  | nil => exact h
  | cons e es ih =>
    obtain ⟨te, t, rest, he, ht, hrest, rfl⟩ := of_checkArgs_cons h
    obtain rfl : te = t := Option.some.inj ((type?_of_checkExpr he).symm.trans ht)
    simp only [checkExprs, except_bind_eq_ok, except_pure_eq_ok]
    exact ⟨te, he, rest, ih hrest, rfl⟩

end Fluxion.Typing
