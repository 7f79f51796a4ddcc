import Fluxion.Proofs.Canonical.Arranged
import Fluxion.Proofs.Determined.Analyses

/-!
Where returns stand once they are lifted, and when they cannot be. Returns end up at the end of the
function or of a branch that ends it; what stands in the way is a loop with a return that control
can come to.
-/

namespace Fluxion.Canonical

/-! ### Returns at the end -/

/-- Every return is the last statement of its list, and a list with returns is the whole body or a
branch of the last statement of such a list. -/
inductive TailReturns : List Stmt → Prop
  | nil : TailReturns []
  | ret (value : Option Expr) : TailReturns [.ret value]
  | cond (test : Expr) {yes no : List Stmt} (hyes : TailReturns yes) (hno : TailReturns no) :
      TailReturns [.cond test yes no]
  | cons {s : Stmt} {rest : List Stmt} (hs : s.hasReturn = false) (hrest : TailReturns rest) :
      TailReturns (s :: rest)

/-! ### Paths to loops -/

/-- Control goes on after the statement without entering it: a simple statement, or a loop without
a return. -/
def isSteppedOver : Stmt → Bool
  | .decl _ | .arrayDecl _ _ _ | .assign _ | .expr _ => true
  | .for_ _ _ _ body | .while_ _ body => !hasReturnIn body
  | _ => false

/-- A path of control from the beginning of statements comes to a statement. It takes either side of
a branch and ends at a return. -/
inductive ComesTo : List Stmt → Stmt → Prop
  | here (s : Stmt) (rest : List Stmt) : ComesTo (s :: rest) s
  | past {s t : Stmt} {rest : List Stmt} (hs : isSteppedOver s = true) (h : ComesTo rest t) :
      ComesTo (s :: rest) t
  | yes {test : Expr} {yes no rest : List Stmt} {t : Stmt} (h : ComesTo (yes ++ rest) t) :
      ComesTo (.cond test yes no :: rest) t
  | no {test : Expr} {yes no rest : List Stmt} {t : Stmt} (h : ComesTo (no ++ rest) t) :
      ComesTo (.cond test yes no :: rest) t
  | block {body rest : List Stmt} {t : Stmt} (h : ComesTo (body ++ rest) t) :
      ComesTo (.block body :: rest) t

/-- A loop that holds a return. -/
def isReturningLoop : Stmt → Bool
  | .for_ _ _ _ body | .while_ _ body => hasReturnIn body
  | _ => false

/-- Some path comes to a loop that holds a return. -/
def Blocked (body : List Stmt) : Prop := ∃ s, ComesTo body s ∧ isReturningLoop s = true

theorem not_blocked_nil : ¬ Blocked [] := by
  rintro ⟨s, h, _⟩
  cases h

theorem not_blocked_ret (value : Option Expr) (rest : List Stmt) :
    ¬ Blocked (.ret value :: rest) := by
  rintro ⟨s, h, hs⟩
  cases h with
  | here => cases hs
  | past hpast => cases hpast

theorem blocked_of_isReturningLoop {s : Stmt} (h : isReturningLoop s = true) (rest : List Stmt) :
    Blocked (s :: rest) :=
  ⟨s, .here s rest, h⟩

theorem blocked_over {s : Stmt} {rest : List Stmt} (hs : isSteppedOver s = true) :
    Blocked (s :: rest) ↔ Blocked rest := by
  constructor
  · rintro ⟨t, h, ht⟩
    cases h with
    | here => cases s <;> simp_all [isSteppedOver, isReturningLoop]
    | past _ h => exact ⟨t, h, ht⟩
    | yes | no | block => cases hs
  · rintro ⟨t, h, ht⟩
    exact ⟨t, .past hs h, ht⟩

theorem blocked_cond {test : Expr} {yes no rest : List Stmt} :
    Blocked (.cond test yes no :: rest) ↔ Blocked (yes ++ rest) ∨ Blocked (no ++ rest) := by
  constructor
  · rintro ⟨t, h, ht⟩
    cases h with
    | here => cases ht
    | past hpast => cases hpast
    | yes h => exact .inl ⟨t, h, ht⟩
    | no h => exact .inr ⟨t, h, ht⟩
  · rintro (⟨t, h, ht⟩ | ⟨t, h, ht⟩)
    · exact ⟨t, .yes h, ht⟩
    · exact ⟨t, .no h, ht⟩

theorem blocked_block {body rest : List Stmt} :
    Blocked (.block body :: rest) ↔ Blocked (body ++ rest) := by
  constructor
  · rintro ⟨t, h, ht⟩
    cases h with
    | here => cases ht
    | past hpast => cases hpast
    | block h => exact ⟨t, h, ht⟩
  · rintro ⟨t, h, ht⟩
    exact ⟨t, .block h, ht⟩

/-! ### Lifting -/

theorem liftReturns_cons (s : Stmt) (rest : List Stmt) :
    liftReturns (s :: rest) = liftStmt s (liftReturns rest) := by
  rw [liftReturns, liftReturns, liftOnto]

theorem liftOnto_liftReturns (body rest : List Stmt) :
    liftOnto body (liftReturns rest) = liftReturns (body ++ rest) :=
  (liftOnto_append body rest (.ok [])).symm

theorem map_eq_error {after : Lifted} {f : List Stmt → List Stmt} {e : ReturnInLoop} :
    after.map f = .error e ↔ after = .error e := by
  cases after <;> simp [Except.map]

/-- Code without returns is kept as it is, so only what follows it can stand in the way. -/
theorem liftReturns_append_eq_error {body rest : List Stmt} (h : hasReturnIn body = false)
    {e : ReturnInLoop} : liftReturns (body ++ rest) = .error e ↔ liftReturns rest = .error e := by
  rw [← liftOnto_liftReturns, liftOnto_of_hasReturnIn _ h, map_eq_error]

theorem hasReturn_of_isSteppedOver {s : Stmt} (hs : isSteppedOver s = true) :
    s.hasReturn = false := by
  cases s <;> simp_all [isSteppedOver, Stmt.hasReturn]

/-- Induction along lifting. It is on the size, because a branch is lifted together with a copy of
what follows it. -/
theorem lift_induction {P : List Stmt → Prop} (nil : P [])
    (ret : ∀ value rest, P (.ret value :: rest))
    (loop : ∀ s rest, isReturningLoop s = true → P (s :: rest))
    (past : ∀ s rest, isSteppedOver s = true → P rest → P (s :: rest))
    (cond : ∀ test yes no rest, P (yes ++ rest) → P (no ++ rest) → P rest →
      P (.cond test yes no :: rest))
    (block : ∀ body rest, P (body ++ rest) → P rest → P (.block body :: rest)) :
    ∀ body, P body := by
  intro body
  induction hn : sizeOf body using Nat.strongRecOn generalizing body with
  | ind n hless =>
  subst hn
  cases body with
  | nil => exact nil
  | cons s rest =>
    have ih : ∀ body, sizeOf body < sizeOf (s :: rest) → P body := fun body h => hless _ h body rfl
    have hrest := ih rest (sizeOf_lt_cons s rest)
    cases s with
    | ret value => exact ret value rest
    | decl d => exact past _ rest rfl hrest
    | arrayDecl x elem len => exact past _ rest rfl hrest
    | assign a => exact past _ rest rfl hrest
    | expr e => exact past _ rest rfl hrest
    | for_ init test step body =>
      cases h : hasReturnIn body with
      | true => exact loop _ rest h
      | false => exact past _ rest (by simp [isSteppedOver, h]) hrest
    | while_ test body =>
      cases h : hasReturnIn body with
      | true => exact loop _ rest h
      | false => exact past _ rest (by simp [isSteppedOver, h]) hrest
    | cond test yes no =>
      exact cond test yes no rest (ih _ (sizeOf_append_lt_cons (sizeOf_yes_lt test yes no) rest))
        (ih _ (sizeOf_append_lt_cons (sizeOf_no_lt test yes no) rest)) hrest
    | block body =>
      exact block body rest (ih _ (sizeOf_append_lt_cons (sizeOf_block_lt body) rest)) hrest

theorem liftReturns_loop {s : Stmt} (hs : isReturningLoop s = true) (rest : List Stmt) :
    liftReturns (s :: rest) = .error .mk := by
  rw [liftReturns_cons]
  cases s <;> simp_all [isReturningLoop, liftStmt]

theorem liftReturns_cond {test : Expr} {yes no : List Stmt}
    (h : (Stmt.cond test yes no).hasReturn = true) (rest : List Stmt) :
    liftReturns (.cond test yes no :: rest) = do
      let yes ← liftReturns (yes ++ rest)
      let no ← liftReturns (no ++ rest)
      return [.cond test yes no] := by
  rw [Stmt.hasReturn] at h
  rw [liftReturns_cons, liftStmt, if_pos h, liftOnto_liftReturns, liftOnto_liftReturns]

theorem liftReturns_kept {s : Stmt} (hs : s.hasReturn = false) (rest : List Stmt) :
    liftReturns (s :: rest) = (liftReturns rest).map (s :: ·) := by
  rw [liftReturns_cons, liftStmt_of_hasReturn _ hs]

theorem liftReturns_block {body : List Stmt} (h : (Stmt.block body).hasReturn = true)
    (rest : List Stmt) :
    liftReturns (.block body :: rest) = liftReturns (body ++ rest) := by
  rw [Stmt.hasReturn] at h
  rw [liftReturns_cons, liftStmt, if_pos h, liftOnto_liftReturns]

theorem tailReturns_of_kept {s : Stmt} {rest code : List Stmt} (hs : s.hasReturn = false)
    (ih : ∀ code, liftReturns rest = .ok code → TailReturns code)
    (hcode : liftReturns (s :: rest) = .ok code) : TailReturns code := by
  rw [liftReturns_kept hs, except_map_eq_ok] at hcode
  obtain ⟨after, hafter, rfl⟩ := hcode
  exact .cons hs (ih after hafter)

/-- What is lifted has its returns at the end. -/
theorem tailReturns_of_liftReturns (body : List Stmt) :
    ∀ code, liftReturns body = .ok code → TailReturns code := by
  induction body using lift_induction with
  | nil =>
    rintro _ ⟨⟩
    exact .nil
  | ret value rest =>
    rintro _ ⟨⟩
    exact .ret value
  | loop s rest hs =>
    intro code hcode
    rw [liftReturns_loop hs] at hcode
    cases hcode
  | past s rest hs ih =>
    intro code
    exact tailReturns_of_kept (hasReturn_of_isSteppedOver hs) ih
  | cond test yes no rest hyes hno ih =>
    intro code hcode
    cases h : (Stmt.cond test yes no).hasReturn with
    | false => exact tailReturns_of_kept h ih hcode
    | true =>
      rw [liftReturns_cond h] at hcode
      simp only [except_bind_eq_ok, except_pure_eq_ok] at hcode
      obtain ⟨yes', hyes', no', hno', rfl⟩ := hcode
      exact .cond test (hyes _ hyes') (hno _ hno')
  | block body rest hbody ih =>
    intro code hcode
    cases h : (Stmt.block body).hasReturn with
    | false => exact tailReturns_of_kept h ih hcode
    | true =>
      rw [liftReturns_block h] at hcode
      exact hbody code hcode

/-- Lifting fails exactly where a path comes to a loop with a return. -/
theorem liftReturns_eq_error_iff (body : List Stmt) :
    liftReturns body = .error .mk ↔ Blocked body := by
  induction body using lift_induction with
  | nil => exact iff_of_false (by simp [liftReturns, liftOnto]) not_blocked_nil
  | ret value rest =>
    exact iff_of_false (by simp [liftReturns_cons, liftStmt]) (not_blocked_ret value rest)
  | loop s rest hs => exact iff_of_true (liftReturns_loop hs rest) (blocked_of_isReturningLoop hs rest)
  | past s rest hs ih =>
    rw [liftReturns_kept (hasReturn_of_isSteppedOver hs), map_eq_error, ih, blocked_over hs]
  | cond test yes no rest hyes hno ih =>
    rw [blocked_cond, ← hyes, ← hno]
    cases h : (Stmt.cond test yes no).hasReturn with
    | false =>
      have hsides : hasReturnIn yes = false ∧ hasReturnIn no = false := by
        simpa [Stmt.hasReturn] using h
      rw [liftReturns_kept h, map_eq_error, liftReturns_append_eq_error hsides.1,
        liftReturns_append_eq_error hsides.2, or_self]
    | true =>
      rw [liftReturns_cond h]
      cases liftReturns (yes ++ rest) <;> cases liftReturns (no ++ rest) <;>
        simp [bind, Except.bind, pure, Except.pure]
  | block body rest hbody ih =>
    rw [blocked_block, ← hbody]
    cases h : (Stmt.block body).hasReturn with
    | false =>
      have hbody : hasReturnIn body = false := by simpa [Stmt.hasReturn] using h
      rw [liftReturns_kept h, map_eq_error, liftReturns_append_eq_error hbody]
    | true => rw [liftReturns_block h]

/-- Lifting leaves returns at the end only, and it fails if and only if control may come to a loop
that holds a return. -/
theorem liftReturns_tail_or_blocked (body : List Stmt) :
    (∀ code, liftReturns body = .ok code → TailReturns code) ∧
      (liftReturns body = .error .mk ↔
        ∃ s, ComesTo body s ∧ isReturningLoop s = true) :=
  ⟨tailReturns_of_liftReturns body, liftReturns_eq_error_iff body⟩

/-- A return in a branch, a block that returns, and code that nothing reaches. -/
def earlyReturn : List Stmt :=
  [.cond (.var "b") [.ret (some (.var "x"))] [],
    .block [.set "x" (.var "y"), .ret (some (.var "x"))], .set "x" (.var "z")]

theorem liftReturns_earlyReturn :
    liftReturns earlyReturn =
      .ok [.cond (.var "b") [.ret (some (.var "x"))] [.set "x" (.var "y"), .ret (some (.var "x"))]] ∧
    TailReturns
      [.cond (.var "b") [.ret (some (.var "x"))] [.set "x" (.var "y"), .ret (some (.var "x"))]] :=
  ⟨rfl, (liftReturns_tail_or_blocked earlyReturn).1 _ rfl⟩

end Fluxion.Canonical
