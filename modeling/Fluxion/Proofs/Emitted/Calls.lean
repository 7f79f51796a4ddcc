import Fluxion.Canonical.Form
import Fluxion.Derive.Adjoint
import Fluxion.Proofs.Canonical.Unique
import Fluxion.Proofs.Typing.Passed

/-!
The functions that code calls, and that folding, renaming and the canonical form add none.
-/

namespace Fluxion

/-- The function that the first argument of a call refers to, if that is a reference. -/
def referred : List Expr → Option String
  | .funcRef f :: _ => some f
  | _ => none

/-- Every call among the expressions is one that `S` holds of, given the function and what its
first argument refers to. -/
def CallsWith (S : String → Option String → Prop) (es : List Expr) : Prop :=
  ∀ f args, Expr.call f args ∈ es → S f (referred args)

/-- Every call among the expressions is one of a function that `S` holds of. -/
def CallsOnly (S : String → Prop) (es : List Expr) : Prop :=
  ∀ f args, Expr.call f args ∈ es → S f

@[simp] theorem referred_var (x : String) (rest : List Expr) :
    referred (.var x :: rest) = none := rfl

@[simp] theorem referred_funcRef (f : String) (rest : List Expr) :
    referred (.funcRef f :: rest) = some f := rfl

section

variable {S T : String → Option String → Prop} {es es' : List Expr}

theorem CallsWith.mono (h : CallsWith S es) (hST : ∀ f g, S f g → T f g) : CallsWith T es :=
  fun f args hmem => hST f _ (h f args hmem)

@[simp] theorem callsWith_nil : CallsWith S [] := by
  intro f args h
  cases h

@[simp] theorem callsWith_append :
    CallsWith S (es ++ es') ↔ CallsWith S es ∧ CallsWith S es' := by
  simp only [CallsWith, List.mem_append]
  exact ⟨fun h => ⟨fun f args hm => h f args (.inl hm), fun f args hm => h f args (.inr hm)⟩,
    fun h f args hm => hm.elim (h.1 f args) (h.2 f args)⟩

@[simp] theorem callsWith_cons {e : Expr} : CallsWith S (e :: es) ↔
    (∀ f args, e = .call f args → S f (referred args)) ∧ CallsWith S es := by
  simp only [CallsWith, List.mem_cons]
  exact ⟨fun h => ⟨fun f args he => h f args (.inl he.symm), fun f args hm => h f args (.inr hm)⟩,
    fun h f args hm => hm.elim (fun he => h.1 f args he.symm) (h.2 f args)⟩

@[simp] theorem partsList_append (es es' : List Expr) :
    Expr.partsList (es ++ es') = Expr.partsList es ++ Expr.partsList es' := by
  induction es with
  | nil => rfl
  | cons e es ih => simp [Expr.partsList, ih]

@[simp] theorem partsOf_append (xs ys : List Stmt) :
    partsOf (xs ++ ys) = partsOf xs ++ partsOf ys := by
  induction xs with
  | nil => rfl
  | cons s rest ih => simp [partsOf, ih]

/-! ### Constructors that fold -/

theorem callsWith_negate {e : Expr} (h : CallsWith S e.parts) : CallsWith S e.negate.parts := by
  unfold Expr.negate
  split
  · split <;> simp [Expr.parts, Expr.zero]
  · split <;> simp [Expr.parts, Expr.zero]
  · simpa [Expr.parts] using h
  · simpa [Expr.parts] using h

theorem callsWith_plus {l r : Expr} (hl : CallsWith S l.parts) (hr : CallsWith S r.parts) :
    CallsWith S (l.plus r).parts := by
  unfold Expr.plus
  split
  · exact hr
  · split
    · exact hl
    · simp [Expr.parts, hl, hr]

theorem callsWith_minus {l r : Expr} (hl : CallsWith S l.parts) (hr : CallsWith S r.parts) :
    CallsWith S (l.minus r).parts := by
  unfold Expr.minus
  split
  · exact hl
  · split
    · exact callsWith_negate hr
    · simp [Expr.parts, hl, hr]

theorem callsWith_times {l r : Expr} (hl : CallsWith S l.parts) (hr : CallsWith S r.parts) :
    CallsWith S (l.times r).parts := by
  unfold Expr.times
  split
  · simp [Expr.parts, Expr.zero]
  · split
    · exact hr
    · split
      · exact hl
      · simp [Expr.parts, hl, hr]

theorem callsWith_dividedBy {l r : Expr} (hl : CallsWith S l.parts) (hr : CallsWith S r.parts) :
    CallsWith S (l.dividedBy r).parts := by
  unfold Expr.dividedBy
  split
  · simp [Expr.parts, Expr.zero]
  · split
    · exact hl
    · simp [Expr.parts, hl, hr]

@[simp] theorem callsWith_ofNat (n : Nat) : CallsWith S (Expr.ofNat n).parts := by
  simp [Expr.ofNat, Expr.parts]

theorem callsWith_indexSum {l r : Expr} (hl : CallsWith S l.parts) (hr : CallsWith S r.parts) :
    CallsWith S (l.indexSum r).parts := by
  unfold Expr.indexSum Expr.indexSum?
  split
  · exact hl
  · exact hr
  · rename_i a b _ _
    unfold Expr.ofInt?
    split <;> simp [Expr.parts]
  · simp [Expr.parts, hl, hr]

theorem callsWith_indexProduct {l r : Expr} (hl : CallsWith S l.parts)
    (hr : CallsWith S r.parts) : CallsWith S (l.indexProduct r).parts := by
  unfold Expr.indexProduct Expr.indexProduct?
  split
  · simp [Expr.parts]
  · simp [Expr.parts]
  · exact hr
  · exact hl
  · unfold Expr.ofInt?
    split <;> simp [Expr.parts]
  · simp [Expr.parts, hl, hr]

/-! ### Renaming and the canonical form -/

mutual

theorem parts_rename (r : Renaming) : ∀ e : Expr, (e.rename r).parts = e.parts.map (Expr.rename r)
  | .float _ | .int _ | .bool _ | .var _ | .funcRef _ => by simp [Expr.rename, Expr.parts]
  | .index x i => by simp [Expr.rename, Expr.parts, parts_rename r i]
  | .unary op e => by simp [Expr.rename, Expr.parts, parts_rename r e]
  | .binary op l r' => by simp [Expr.rename, Expr.parts, parts_rename r l, parts_rename r r']
  | .call f args => by simp [Expr.rename, Expr.parts, partsList_renameArgs r args]

theorem partsList_renameArgs (r : Renaming) :
    ∀ es : List Expr, Expr.partsList (renameArgs r es) = (Expr.partsList es).map (Expr.rename r)
  | [] => rfl
  | e :: es => by
    simp [renameArgs, Expr.partsList, parts_rename r e, partsList_renameArgs r es]

end

@[simp] theorem referred_renameArgs (r : Renaming) (args : List Expr) :
    referred (renameArgs r args) = referred args := by
  cases args with
  | nil => rfl
  | cons e rest => cases e <;> simp [renameArgs, Expr.rename, referred]

@[simp] theorem callsWith_rename (r : Renaming) (e : Expr) :
    CallsWith S (e.rename r).parts ↔ CallsWith S e.parts := by
  rw [parts_rename]
  constructor
  · intro h f args hmem
    have hcall := h f (renameArgs r args) (List.mem_map.mpr ⟨_, hmem, by simp [Expr.rename]⟩)
    rwa [referred_renameArgs] at hcall
  · intro h f args hmem
    obtain ⟨e', he', heq⟩ := List.mem_map.mp hmem
    cases e' with
    | call g args' =>
      simp only [Expr.rename, Expr.call.injEq] at heq
      obtain ⟨rfl, rfl⟩ := heq
      rw [referred_renameArgs]
      exact h g args' he'
    | _ => simp [Expr.rename] at heq

@[simp] theorem callsWith_rename_map (r : Renaming) (e : Option Expr) :
    CallsWith S ((e.map (Expr.parts ∘ Expr.rename r)).getD []) ↔
      CallsWith S ((e.map Expr.parts).getD []) := by
  cases e <;> simp

@[simp] theorem callsWith_assignment_rename (r : Renaming) (a : Assignment) :
    CallsWith S (a.rename r).parts ↔ CallsWith S a.parts := by
  obtain ⟨place, op, value⟩ := a
  cases place <;> simp [Assignment.rename, Assignment.parts, Place.rename, Place.parts]

@[simp] theorem callsWith_assignment_rename_map (r : Renaming) (a : Option Assignment) :
    CallsWith S ((a.map (Assignment.parts ∘ Assignment.rename r)).getD []) ↔
      CallsWith S ((a.map Assignment.parts).getD []) := by
  cases a <;> simp

theorem callsWith_uniqueInit? (r : Renaming) (init : Option LoopInit) (s : NameSupply)
    (h : CallsWith S ((init.map LoopInit.parts).getD [])) :
    CallsWith S ((((Canonical.uniqueInit? r init s).1.1).map LoopInit.parts).getD []) := by
  cases init with
  | none => exact callsWith_nil
  | some init =>
    cases init with
    | decl d => simpa [LoopInit.parts, Local.parts] using h
    | assign a => simpa [LoopInit.parts] using h

mutual

theorem callsWith_uniqueStmt (r : Renaming) (s : NameSupply) :
    ∀ stmt : Stmt, CallsWith S stmt.parts →
      CallsWith S (Canonical.uniqueStmt r stmt s).1.1.parts
  | .decl d, h => by simpa [Stmt.parts, Local.parts] using h
  | .arrayDecl x elem len, h => by simpa [Stmt.parts] using h
  | .assign a, h => by simpa [Stmt.parts] using h
  | .cond test yes no, h => by
    simp only [Stmt.parts, callsWith_append] at h
    simp [Stmt.parts, h.1, callsWith_uniqueBody r _ yes h.2.1, callsWith_uniqueBody r _ no h.2.2]
  | .for_ init test step body, h => by
    simp only [Stmt.parts, callsWith_append] at h
    simp [Stmt.parts, h.1.1.2, h.1.2, callsWith_uniqueInit? r init s h.1.1.1,
      callsWith_uniqueBody _ _ body h.2]
  | .while_ test body, h => by
    simp only [Stmt.parts, callsWith_append] at h
    simp [Stmt.parts, h.1, callsWith_uniqueBody r s body h.2]
  | .ret value, h => by simpa [Stmt.parts] using h
  | .expr e, h => by simpa [Stmt.parts] using h
  | .block body, h => by
    simpa [Stmt.parts] using callsWith_uniqueBody r s body (by simpa [Stmt.parts] using h)

theorem callsWith_uniqueBody (r : Renaming) (s : NameSupply) :
    ∀ body : List Stmt, CallsWith S (partsOf body) →
      CallsWith S (partsOf (Canonical.uniqueBody r body s).1)
  | [], _ => by simp [partsOf]
  | stmt :: rest, h => by
    simp only [partsOf, callsWith_append] at h
    simp [partsOf, callsWith_uniqueStmt r s stmt h.1, callsWith_uniqueBody _ _ rest h.2]

end

/-- A statement that stays where it is, before what follows it. -/
theorem callsWith_kept {after : Canonical.Lifted}
    (hafter : ∀ out, after = .ok out → CallsWith S (partsOf out)) {stmt : Stmt}
    {out : List Stmt} (h : CallsWith S stmt.parts) (hout : after.map (stmt :: ·) = .ok out) :
    CallsWith S (partsOf out) := by
  obtain ⟨rest, hrest, rfl⟩ := except_map_eq_ok.mp hout
  exact callsWith_append.mpr ⟨h, hafter rest hrest⟩

mutual

theorem callsWith_liftStmt {after : Canonical.Lifted}
    (hafter : ∀ out, after = .ok out → CallsWith S (partsOf out)) :
    ∀ (stmt : Stmt) (out : List Stmt), CallsWith S stmt.parts →
      Canonical.liftStmt stmt after = .ok out → CallsWith S (partsOf out)
  | .ret value, out, h, hout => by
    simp only [Canonical.liftStmt, Except.ok.injEq] at hout
    simpa [← hout, partsOf] using h
  | .cond test yes no, out, h, hout => by
    simp only [Canonical.liftStmt] at hout
    split at hout
    · simp only [Stmt.parts, callsWith_append] at h
      simp only [except_bind_eq_ok, except_pure_eq_ok] at hout
      obtain ⟨yes', hyes, no', hno, rfl⟩ := hout
      simp [partsOf, Stmt.parts, h.1, callsWith_liftOnto hafter yes yes' h.2.1 hyes,
        callsWith_liftOnto hafter no no' h.2.2 hno]
    · exact callsWith_kept hafter h hout
  | .block body, out, h, hout => by
    simp only [Canonical.liftStmt] at hout
    split at hout
    · exact callsWith_liftOnto hafter body out h hout
    · exact callsWith_kept hafter h hout
  | .for_ init test step body, out, h, hout => by
    simp only [Canonical.liftStmt] at hout
    split at hout
    · cases hout
    · exact callsWith_kept hafter h hout
  | .while_ test body, out, h, hout => by
    simp only [Canonical.liftStmt] at hout
    split at hout
    · cases hout
    · exact callsWith_kept hafter h hout
  | .decl d, _, h, hout => callsWith_kept hafter h (by rwa [Canonical.liftStmt] at hout)
  | .arrayDecl x elem len, _, h, hout =>
    callsWith_kept hafter h (by rwa [Canonical.liftStmt] at hout)
  | .assign a, _, h, hout => callsWith_kept hafter h (by rwa [Canonical.liftStmt] at hout)
  | .expr e, _, h, hout => callsWith_kept hafter h (by rwa [Canonical.liftStmt] at hout)

theorem callsWith_liftOnto {after : Canonical.Lifted}
    (hafter : ∀ out, after = .ok out → CallsWith S (partsOf out)) :
    ∀ (body out : List Stmt), CallsWith S (partsOf body) →
      Canonical.liftOnto body after = .ok out → CallsWith S (partsOf out)
  | [], out, _, hout => hafter out (by simpa [Canonical.liftOnto] using hout)
  | stmt :: rest, out, h, hout => by
    simp only [partsOf, callsWith_append] at h
    rw [Canonical.liftOnto] at hout
    exact callsWith_liftStmt (fun out' hout' => callsWith_liftOnto hafter rest out' h.2 hout')
      stmt out h.1 hout

end

mutual

theorem callsWith_flattenStmt :
    ∀ stmt : Stmt, CallsWith S stmt.parts → CallsWith S (partsOf (Canonical.flattenStmt stmt))
  | .block body, h => callsWith_flattenBlocks body h
  | .cond test yes no, h => by
    simp only [Stmt.parts, callsWith_append] at h
    simp [Canonical.flattenStmt, partsOf, Stmt.parts, h.1, callsWith_flattenBlocks yes h.2.1,
      callsWith_flattenBlocks no h.2.2]
  | .for_ init test step body, h => by
    simp only [Stmt.parts, callsWith_append] at h
    simp [Canonical.flattenStmt, partsOf, Stmt.parts, h.1, callsWith_flattenBlocks body h.2]
  | .while_ test body, h => by
    simp only [Stmt.parts, callsWith_append] at h
    simp [Canonical.flattenStmt, partsOf, Stmt.parts, h.1, callsWith_flattenBlocks body h.2]
  | .decl _, h | .arrayDecl _ _ _, h | .assign _, h | .ret _, h | .expr _, h => by
    simpa [Canonical.flattenStmt, partsOf] using h

theorem callsWith_flattenBlocks :
    ∀ body : List Stmt, CallsWith S (partsOf body) →
      CallsWith S (partsOf (Canonical.flattenBlocks body))
  | [], _ => callsWith_nil
  | stmt :: rest, h => by
    simp only [partsOf, callsWith_append] at h
    simp [Canonical.flattenBlocks, callsWith_flattenStmt stmt h.1, callsWith_flattenBlocks rest h.2]

end

theorem callsWith_uniqueLocals {f : Func} (h : CallsWith S (partsOf f.stmts)) :
    CallsWith S (partsOf (Canonical.uniqueLocals f).stmts) := by
  cases hb : f.body with
  | none => simp [Canonical.uniqueLocals, Func.stmts, hb, partsOf]
  | some body =>
    simp only [Func.stmts, hb, Option.getD_some] at h
    simpa [Canonical.uniqueLocals, Canonical.uniqueLocalsOf, Func.stmts, hb] using
      callsWith_uniqueBody [] _ body h

/-- The canonical form calls what the function calls. -/
theorem callsWith_canonicalize {f g : Func} (h : CallsWith S (partsOf f.stmts))
    (hg : Canonical.canonicalize f = .ok g) : CallsWith S (partsOf g.stmts) := by
  unfold Canonical.canonicalize at hg
  split at hg
  · cases hg
    exact h
  · rename_i body hb
    obtain ⟨out, hout, rfl⟩ := except_map_eq_ok.mp hg
    obtain ⟨lifted, hlift, rfl⟩ := except_map_eq_ok.mp hout
    simp only [Func.stmts, hb, Option.getD_some] at h
    refine callsWith_flattenBlocks lifted ?_
    refine callsWith_liftOnto ?_ _ lifted (callsWith_uniqueBody [] _ body h) hlift
    rintro out ⟨⟩
    exact callsWith_nil

end

/-! ### Checked functions -/

section

variable {S : String → Prop}

theorem CallsOnly.mono {T : String → Prop} {es : List Expr} (h : CallsOnly S es) (hST : ∀ f, S f → T f) :
    CallsOnly T es :=
  fun f args hmem => hST f (h f args hmem)

/-- `S` holds of the intrinsics and of every name that resolves to a function. -/
structure Reached (S : String → Prop) (resolve : Resolver) : Prop where
  intrinsic : ∀ f, (Intrinsic.ofName? f).isSome → S f
  resolved : ∀ f types g, resolve f types = some g → S f

/-- A function that passed the checker calls intrinsics and functions that calls resolve to. -/
theorem callsOnly_of_checkFunc {resolve : Resolver} (hr : Reached S resolve) {f : Func}
    (h : Typing.checkFunc resolve f = .ok ()) : CallsOnly S (partsOf f.stmts) := by
  intro name args hcall
  obtain ⟨env, ⟨_, href⟩ | ⟨t, ht⟩⟩ := Typing.exists_checked_of_mem h hcall
  · cases href
  cases hname : Intrinsic.ofName? name with
  | none =>
    obtain ⟨types, g, _, hg, _⟩ := Typing.of_checkExpr_call ht hname
    exact hr.resolved name types g hg
  | some i => exact hr.intrinsic name (by simp [hname])

end

end Fluxion
