import Fluxion.Canonical.Form
import Fluxion.Proofs.Canonical.Distinct
import Fluxion.Proofs.Paired.Execution
import Fluxion.Proofs.Typing.Passed

/-!
The canonical body of a checked function is arranged from its body: names that are free when they
are taken name no other variable in scope, and code that moves into branches sees what it saw
before.
-/

namespace Fluxion

/-! ### Variables of checked code -/

namespace Typing

/-- The variables that have a type. -/
def Known (env : TyEnv) : String → Prop := fun x => (env.lookup x).isSome = true

variable {resolve : Resolver} {env : TyEnv}

theorem known_of_lookup {x : String} {t : Ty} (h : env.lookup x = some t) : Known env x := by
  rw [Known, h]
  rfl

theorem known_cons (x : String) (t : Ty) : Known ((x, t) :: env) = withName (Known env) x := by
  funext y
  by_cases hy : y = x
  · simp [Known, withName, hy]
  · simp only [Known, withName, lookup_cons_of_ne hy, hy, false_or]

/-- Checked expressions use variables that have a type. -/
theorem uses_of_checkExpr {e : Expr} {t : Ty} (h : checkExpr resolve env e = .ok t) :
    (Rule.uses (Known env)).Expr e := by
  intro part hpart
  obtain ⟨_, rfl⟩ | ⟨t', ht'⟩ := checked_of_checkExpr e h part hpart
  · trivial
  cases part with
  | var x =>
    obtain ⟨_, hx, _⟩ := of_checkExpr_var ht'
    exact known_of_lookup hx
  | index x i =>
    obtain ⟨_, _, hx⟩ := of_checkExpr_index ht'
    exact known_of_lookup hx
  | _ => trivial

theorem uses_of_checkAssignment {a : Assignment} {u : Unit}
    (h : checkAssignment resolve env a = .ok u) : (Rule.uses (Known env)).Assignment a := by
  obtain ⟨place, op, value⟩ := a
  obtain ⟨_, _, hplace, hvalue, _⟩ := of_checkAssignment h
  cases place with
  | var x =>
    obtain ⟨_, hx, _⟩ := of_checkPlace_var hplace
    exact ⟨known_of_lookup hx, by simp [Rule.Place, Place.parts], uses_of_checkExpr hvalue⟩
  | index x i =>
    obtain ⟨hi, _, hx⟩ := of_checkPlace_index hplace
    exact ⟨known_of_lookup hx, uses_of_checkExpr hi, uses_of_checkExpr hvalue⟩

end Typing

namespace Canonical

/-! ### Code without returns, and without blocks -/

theorem toOption_map_eq_some {after : Lifted} {code : List Stmt} :
    after.toOption.map flattenBlocks = some code ↔
      ∃ rest, after = .ok rest ∧ flattenBlocks rest = code := by
  cases after <;> simp [Except.toOption]

mutual

theorem liftStmt_of_hasReturn : ∀ {s : Stmt} (after : Lifted), s.hasReturn = false →
    liftStmt s after = after.map (s :: ·)
  | .ret _, _, h => by cases h
  | .cond _ yes no, _, h => by
    simp only [Stmt.hasReturn] at h
    simp [liftStmt, h]
  | .block body, _, h => by
    simp only [Stmt.hasReturn] at h
    simp [liftStmt, h]
  | .for_ _ _ _ body, _, h => by
    simp only [Stmt.hasReturn] at h
    simp [liftStmt, h]
  | .while_ _ body, _, h => by
    simp only [Stmt.hasReturn] at h
    simp [liftStmt, h]
  | .decl _, _, _ | .arrayDecl _ _ _, _, _ | .assign _, _, _ | .expr _, _, _ => by rw [liftStmt]

/-- Where nothing returns, nothing moves. -/
theorem liftOnto_of_hasReturnIn : ∀ {body : List Stmt} (after : Lifted), hasReturnIn body = false →
    liftOnto body after = after.map (body ++ ·)
  | [], after, _ => by
    rw [liftOnto]
    cases after <;> rfl
  | s :: rest, after, h => by
    simp only [hasReturnIn, Bool.or_eq_false_iff] at h
    rw [liftOnto, liftStmt_of_hasReturn _ h.1, liftOnto_of_hasReturnIn _ h.2]
    cases after <;> rfl

end

theorem liftReturns_of_hasReturnIn {body : List Stmt} (h : hasReturnIn body = false) :
    liftOnto body (.ok []) = .ok body := by
  rw [liftOnto_of_hasReturnIn _ h]
  exact congrArg Except.ok (List.append_nil body)

theorem flattenBlocks_append (body rest : List Stmt) :
    flattenBlocks (body ++ rest) = flattenBlocks body ++ flattenBlocks rest := by
  induction body with
  | nil => rw [flattenBlocks, List.nil_append, List.nil_append]
  | cons s body ih => rw [List.cons_append, flattenBlocks, flattenBlocks, ih, List.append_assoc]

/-! ### Names -/

/-- The names that the variables of `V` have, and those of `U`, are taken. -/
structure Reserved (r : Renaming) (V U : String → Prop) (s : NameSupply) : Prop where
  named : ∀ x, V x → r.apply x ∈ s.used
  others : ∀ y, U y → y ∈ s.used

namespace Reserved

variable {r : Renaming} {V U : String → Prop} {s s' : NameSupply} (h : Reserved r V U s)

include h

theorem mono (hs : s.used ⊆ s'.used) : Reserved r V U s' :=
  ⟨fun x hx => hs (h.named x hx), fun y hy => hs (h.others y hy)⟩

theorem closed : Reserved r V (fun _ => False) s := ⟨h.named, fun _ hy => hy.elim⟩

/-- The names of the variables are kept for code that moves. -/
theorem spared : Reserved r V (fun y => U y ∨ newNames r V y) s := by
  refine ⟨h.named, ?_⟩
  rintro y (hy | ⟨x, hx, rfl⟩)
  · exact h.others y hy
  · exact h.named x hx

/-- A name that is free names nothing in scope. -/
theorem renewal (x : String) : Renewal (fun _ _ => True) r V U x (s.fresh x).1 := by
  refine ⟨trivial, fun y hy _ heq => ?_, fun hy => ?_⟩
  · exact s.fresh_fresh x (heq ▸ h.named y hy)
  · exact s.fresh_fresh x (h.others _ hy)

theorem declare (x : String) :
    Reserved ((x, (s.fresh x).1) :: r) (withName V x) U (s.fresh x).2 := by
  refine ⟨fun y hy => ?_, fun y hy => by simp [h.others y hy]⟩
  by_cases hyx : y = x
  · simp [Renaming.apply, hyx]
  · have hV := h.named y (hy.resolve_left hyx)
    rw [Renaming.apply] at hV ⊢
    rw [lookup_cons_of_ne hyx]
    simp [hV]

end Reserved

/-! ### The canonical body -/

open Typing

/-- What a loop header declares is named apart. -/
theorem arrangedInit_unique {resolve : Resolver} {env inner : TyEnv} {r : Renaming} {s : NameSupply}
    {init : Option LoopInit} (h : checkInit? resolve env init = .ok inner)
    (ht : Reserved r (Known env) (fun _ => False) s) :
    ArrangedInit (fun _ _ => True) r (Known env) init (uniqueInit? r init s).1.1
        (uniqueInit? r init s).1.2 (Known inner) ∧
      Reserved (uniqueInit? r init s).1.2 (Known inner) (fun _ => False)
        (uniqueInit? r init s).2 := by
  rcases init with _ | (d | a)
  · cases h
    exact ⟨.none, ht⟩
  · obtain ⟨rfl, _, hinit⟩ := of_checkLocal h
    rw [known_cons]
    refine ⟨.decl (fun e he => ?_) (ht.renewal d.name), ht.declare d.name⟩
    obtain ⟨_, hfound, _⟩ := hinit e he
    exact uses_of_checkExpr hfound
  · simp only [checkInit?, checkLoopInit, except_bind_eq_ok, except_pure_eq_ok] at h
    obtain ⟨_, ha, rfl⟩ := h
    exact ⟨.assign (uses_of_checkAssignment ha), ht⟩

/-- Named apart, with returns at the end and without blocks, the body is arranged from what it was,
if it is checked. What follows it is known only if it can be lifted itself. -/
def Arranges (resolve : Resolver) (ret : Ty) (body : List Stmt) : Prop :=
  ∀ ⦃env : TyEnv⦄ ⦃r : Renaming⦄ ⦃s : NameSupply⦄ ⦃U : String → Prop⦄ ⦃after : Lifted⦄
    ⦃code : List Stmt⦄ ⦃u : Unit⦄, checkBody resolve ret env body = .ok u →
    Reserved r (Known env) U s → liftOnto (uniqueBody r body s).1 after = .ok code →
    Arranged (fun _ _ => True) r (Known env) U (after.toOption.map flattenBlocks) body
      (flattenBlocks code)

mutual

theorem arranges_cons {resolve : Resolver} {ret : Ty} : ∀ (stmt : Stmt) {rest : List Stmt},
    Arranges resolve ret rest → Arranges resolve ret (stmt :: rest)
  | .decl d, rest, ih => by
    intro env r s U after code _ h ht hcode
    simp only [checkBody, checkStmt, except_bind_eq_ok] at h
    obtain ⟨_, hd, hrest⟩ := h
    obtain ⟨rfl, _, hinit⟩ := of_checkLocal hd
    rw [uniqueBody_cons, liftOnto, uniqueStmt_decl, liftStmt] at hcode
    obtain ⟨code, hlift, rfl⟩ := except_map_eq_ok.mp hcode
    have hnext := ih hrest (known_cons d.name d.ty ▸ ht.declare d.name) hlift
    rw [known_cons] at hnext
    refine .decl (fun e he => ?_) (ht.renewal d.name) hnext
    obtain ⟨_, hfound, _⟩ := hinit e he
    exact uses_of_checkExpr hfound
  | .arrayDecl x elem len, rest, ih => by
    intro env r s U after code _ h ht hcode
    simp only [checkBody, except_bind_eq_ok] at h
    obtain ⟨_, hd, hrest⟩ := h
    obtain ⟨_, hlen, rfl⟩ := of_checkStmt_arrayDecl hd
    rw [uniqueBody_cons, liftOnto, uniqueStmt_arrayDecl, liftStmt] at hcode
    obtain ⟨code, hlift, rfl⟩ := except_map_eq_ok.mp hcode
    have hnext := ih hrest
      (known_cons x (.arrayOf elem) ▸ ht.declare x) hlift
    rw [known_cons] at hnext
    exact .arrayDecl (uses_of_checkExpr hlen) (ht.renewal x) hnext
  | .assign a, rest, ih => by
    intro env r s U after code _ h ht hcode
    simp only [checkBody, checkStmt, except_bind_eq_ok, except_pure_eq_ok] at h
    obtain ⟨_, ⟨_, ha, rfl⟩, hrest⟩ := h
    rw [uniqueBody_cons, liftOnto, uniqueStmt_assign, liftStmt] at hcode
    obtain ⟨code, hlift, rfl⟩ := except_map_eq_ok.mp hcode
    exact .assign (uses_of_checkAssignment ha) (ih hrest ht hlift)
  | .expr e, rest, ih => by
    intro env r s U after code _ h ht hcode
    simp only [checkBody, checkStmt, except_bind_eq_ok, except_pure_eq_ok] at h
    obtain ⟨_, ⟨_, he, rfl⟩, hrest⟩ := h
    rw [uniqueBody_cons, liftOnto, uniqueStmt_expr, liftStmt] at hcode
    obtain ⟨code, hlift, rfl⟩ := except_map_eq_ok.mp hcode
    exact .expr (uses_of_checkExpr he) (ih hrest ht hlift)
  | .ret value, rest, ih => by
    intro env r s U after code _ h ht hcode
    simp only [checkBody, checkStmt, except_bind_eq_ok, except_pure_eq_ok] at h
    obtain ⟨_, ⟨_, hv, rfl⟩, _⟩ := h
    rw [uniqueBody_cons, liftOnto, uniqueStmt_ret, liftStmt] at hcode
    cases hcode
    refine .ret (fun e he => ?_) fun hcode => absurd rfl hcode
    subst he
    obtain ⟨_, hfound, _⟩ := of_checkReturn_some hv
    exact uses_of_checkExpr hfound
  | .cond test yes no, rest, ih => by
    intro env r s U after code _ h ht hcode
    simp only [checkBody, checkStmt, except_bind_eq_ok, except_pure_eq_ok] at h
    obtain ⟨_, ⟨_, htest, _, hyes, _, hno, rfl⟩, hrest⟩ := h
    have huses := uses_of_checkExpr (of_checkCondition htest)
    have htno := ht.mono (used_subset_uniqueBody yes r s)
    have htrest := htno.mono (used_subset_uniqueBody no r _)
    rw [uniqueBody_cons, liftOnto, uniqueStmt_cond, liftStmt] at hcode
    split at hcode
    · simp only [except_bind_eq_ok, except_pure_eq_ok] at hcode
      obtain ⟨yes', hyes', no', hno', rfl⟩ := hcode
      refine .moved huses (arranges yes hyes ht.spared hyes')
        (arranges no hno htno.spared hno') fun code hmid => ?_
      obtain ⟨code, hlift, rfl⟩ := toOption_map_eq_some.mp hmid
      exact ih hrest htrest hlift
    · rename_i hreturn
      simp only [Bool.or_eq_true, not_or, Bool.not_eq_true] at hreturn
      obtain ⟨code, hlift, rfl⟩ := except_map_eq_ok.mp hcode
      exact .cond huses
        (arranges yes hyes ht.closed (liftReturns_of_hasReturnIn hreturn.1))
        (arranges no hno htno.closed (liftReturns_of_hasReturnIn hreturn.2))
        (ih hrest htrest hlift)
  | .for_ init test step body, rest, ih => by
    intro env r s U after code _ h ht hcode
    simp only [checkBody, checkStmt_for, except_bind_eq_ok, except_pure_eq_ok] at h
    obtain ⟨_, ⟨inner, hinit, _, htest, _, hstep, _, hbody, rfl⟩, hrest⟩ := h
    obtain ⟨hheader, htbody⟩ := arrangedInit_unique hinit ht.closed
    have htrest := (ht.mono (used_subset_uniqueInit? r init s)).mono
      (used_subset_uniqueBody body (uniqueInit? r init s).1.2 _)
    rw [uniqueBody_cons, liftOnto, uniqueStmt_for, liftStmt] at hcode
    split at hcode
    · cases hcode
    · rename_i hreturn
      obtain ⟨code, hlift, rfl⟩ := except_map_eq_ok.mp hcode
      refine .for_ hheader (fun e he => ?_) (fun a ha => ?_)
        (arranges body hbody htbody
          (liftReturns_of_hasReturnIn (Bool.not_eq_true _ ▸ hreturn)))
        (ih hrest htrest hlift)
      · subst he
        exact uses_of_checkExpr (of_checkCondition htest)
      · subst ha
        exact uses_of_checkAssignment hstep
  | .while_ test body, rest, ih => by
    intro env r s U after code _ h ht hcode
    simp only [checkBody, checkStmt, except_bind_eq_ok, except_pure_eq_ok] at h
    obtain ⟨_, ⟨_, htest, _, hbody, rfl⟩, hrest⟩ := h
    rw [uniqueBody_cons, liftOnto, uniqueStmt_while, liftStmt] at hcode
    split at hcode
    · cases hcode
    · rename_i hreturn
      obtain ⟨code, hlift, rfl⟩ := except_map_eq_ok.mp hcode
      exact .while_ (uses_of_checkExpr (of_checkCondition htest))
        (arranges body hbody ht.closed
          (liftReturns_of_hasReturnIn (Bool.not_eq_true _ ▸ hreturn)))
        (ih hrest (ht.mono (used_subset_uniqueBody body r s)) hlift)
  | .block body, rest, ih => by
    intro env r s U after code _ h ht hcode
    simp only [checkBody, checkStmt, except_bind_eq_ok, except_pure_eq_ok] at h
    obtain ⟨_, ⟨_, hbody, rfl⟩, hrest⟩ := h
    have htrest := ht.mono (used_subset_uniqueBody body r s)
    rw [uniqueBody_cons, liftOnto, uniqueStmt_block, liftStmt] at hcode
    split at hcode
    · refine .opened (arranges body hbody ht.spared hcode) fun code hmid => ?_
      obtain ⟨code, hlift, rfl⟩ := toOption_map_eq_some.mp hmid
      exact ih hrest htrest hlift
    · rename_i hreturn
      -- a block without a return is opened in front of what follows it
      obtain ⟨code, hlift, rfl⟩ := except_map_eq_ok.mp hcode
      have hopen : liftOnto (uniqueBody r body s).1 (.ok code) =
          .ok ((uniqueBody r body s).1 ++ code) :=
        liftOnto_of_hasReturnIn _ (Bool.not_eq_true _ ▸ hreturn)
      have hinner := arranges body hbody ht.spared hopen
      rw [flattenBlocks_append] at hinner
      refine .opened hinner fun code' hmid => ?_
      obtain rfl : flattenBlocks code = code' := Option.some.inj hmid
      exact ih hrest htrest hlift

theorem arranges {resolve : Resolver} {ret : Ty} : ∀ body : List Stmt, Arranges resolve ret body
  | [] => by
    intro env r s U after code _ _ _ hcode
    rw [uniqueBody_nil, liftOnto] at hcode
    subst hcode
    exact .nil
  | stmt :: rest => arranges_cons stmt (arranges rest)

end

/-- The variables in scope before a body are its parameters. -/
theorem mem_of_known_scope {f : Func} {x : String} (h : Known f.scope x) :
    x ∈ f.params.map (·.name) := by
  obtain ⟨_, hmem, hx⟩ := List.lookup_isSome_iff.mp h
  obtain ⟨p, hp, rfl⟩ := List.mem_map.mp (List.mem_reverse.mp hmem)
  exact List.mem_map.mpr ⟨p, hp, (beq_iff_eq.mp hx).symm⟩

/-- The canonical body of a checked function is arranged from its body. -/
theorem arranged_canonicalBody {resolve : Resolver} {f : Func} {body code : List Stmt}
    (h : checkFunc resolve f = .ok ()) (hbody : f.body = some body)
    (hcode : canonicalBody f.params body = .ok code) :
    ∃ V, (∀ x, V x → x ∈ f.params.map (·.name)) ∧
      Arranged (fun _ _ => True) [] V (fun _ => False) (some []) body code := by
  obtain ⟨lifted, hlift, rfl⟩ := except_map_eq_ok.mp hcode
  exact ⟨Known f.scope, fun _ => mem_of_known_scope, arranges body ((of_checkFunc h).2 body hbody)
    ⟨fun x hx => (NameSupply.mem_reserveAll _ _ _).mpr (.inl (mem_of_known_scope hx)),
      fun _ => False.elim⟩ hlift⟩

end Canonical

end Fluxion
