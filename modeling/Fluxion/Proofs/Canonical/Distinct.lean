import Mathlib.Data.List.Forall2
import Fluxion.Proofs.Apart.Supply
import Fluxion.Proofs.Canonical.Unique

/-!
The declarations of a function whose locals have been named apart: every one has a name of its own,
and naming them apart again changes nothing.
-/

namespace Fluxion.Canonical

/-! ### Names for declarations -/

/-- A declaration after it was named: its type is as before, its name a variant of its old name. -/
def NamedAfter (old new : String × Ty) : Prop :=
  new.2 = old.2 ∧ ∃ n, new.1 = NameSupply.variant old.1 n

/-- From `s` to `s'` the names of the declarations `new` are given out, for the declarations
`old`. -/
structure Names (s s' : NameSupply) (old new : List (String × Ty)) : Prop where
  drawn : Drawn s s' (new.map Prod.fst : List String)
  named : List.Forall₂ NamedAfter old new

namespace Names

theorem refl (s : NameSupply) : Names s s [] [] := ⟨.refl s, .nil⟩

theorem append {s s₁ s₂ : NameSupply} {old old' new new' : List (String × Ty)}
    (h : Names s s₁ old new) (h' : Names s₁ s₂ old' new') :
    Names s s₂ (old ++ old') (new ++ new') :=
  ⟨by simpa using h.drawn.trans h'.drawn, List.rel_append h.named h'.named⟩

theorem fresh (s : NameSupply) (x : String) (t : Ty) :
    Names s (s.fresh x).2 [(x, t)] [((s.fresh x).1, t)] :=
  ⟨.fresh x, .cons ⟨rfl, s.firstFree_mem _ 0 _⟩ .nil⟩

end Names

mutual

theorem names_uniqueStmt : ∀ (stmt : Stmt) (r : Renaming) (s : NameSupply),
    Names s (uniqueStmt r stmt s).2 stmt.declared (uniqueStmt r stmt s).1.1.declared
  | .decl d, _, s => .fresh s d.name d.ty
  | .arrayDecl x elem _, _, s => .fresh s x (.arrayOf elem)
  | .assign _, _, s | .ret _, _, s | .expr _, _, s => .refl s
  | .cond _ yes no, r, s => (names_uniqueBody yes r s).append (names_uniqueBody no r _)
  | .for_ none _ _ body, r, s | .for_ (some (.assign _)) _ _ body, r, s => names_uniqueBody body r s
  | .for_ (some (.decl d)) _ _ body, r, s =>
    (Names.fresh s d.name d.ty).append (names_uniqueBody body ((d.name, _) :: r) _)
  | .while_ _ body, r, s | .block body, r, s => names_uniqueBody body r s

theorem names_uniqueBody : ∀ (body : List Stmt) (r : Renaming) (s : NameSupply),
    Names s (uniqueBody r body s).2 (declaredIn body) (declaredIn (uniqueBody r body s).1)
  | [], _, s => .refl s
  | stmt :: rest, r, s => (names_uniqueStmt stmt r s).append (names_uniqueBody rest _ _)

end

/-! ### Names that are taken stay taken -/

theorem Names.subset {s s' : NameSupply} {old new : List (String × Ty)} (h : Names s s' old new) :
    s.used ⊆ s'.used :=
  Multiset.coe_subset.mp (h.drawn.used ▸ Multiset.subset_of_le (Multiset.le_add_left _ _))

theorem used_subset_uniqueInit? (r : Renaming) (init : Option LoopInit) (s : NameSupply) :
    s.used ⊆ (uniqueInit? r init s).2.used := by
  rcases init with _ | (d | a)
  · exact List.Subset.refl _
  · simp
  · exact List.Subset.refl _

theorem used_subset_uniqueBody (body : List Stmt) (r : Renaming) (s : NameSupply) :
    s.used ⊆ (uniqueBody r body s).2.used :=
  (names_uniqueBody body r s).subset

/-! ### Names that are apart already -/

/-- The names of the declarations differ from each other and are free. -/
def Apart (s : NameSupply) (new : List (String × Ty)) : Prop :=
  (new.map Prod.fst).Nodup ∧ ∀ x ∈ new.map Prod.fst, x ∉ s.used

/-- The supply after the names of declarations were taken. -/
def supplyAfter (s : NameSupply) (new : List (String × Ty)) : NameSupply :=
  ⟨(new.map Prod.fst).reverse ++ s.used⟩

theorem supplyAfter_append (s : NameSupply) (a b : List (String × Ty)) :
    supplyAfter s (a ++ b) = supplyAfter (supplyAfter s a) b := by
  simp [supplyAfter]

theorem Apart.append {s : NameSupply} {a b : List (String × Ty)} (h : Apart s (a ++ b)) :
    Apart s a ∧ Apart (supplyAfter s a) b := by
  unfold Apart supplyAfter at *
  grind

theorem Apart.fresh {s : NameSupply} {x : String} {t : Ty} (h : Apart s [(x, t)]) :
    s.fresh x = (x, supplyAfter s [(x, t)]) := by
  have hfree : x ∉ s.used := by simpa using h.2
  have hfirst : s.firstFree (NameSupply.variant x) 0 s.used.length = x := by
    cases s.used.length with
    | zero => rfl
    | succ limit => simp [NameSupply.firstFree, NameSupply.variant, NameSupply.isUsed, hfree]
  simp [NameSupply.fresh, NameSupply.take, hfirst, supplyAfter]

/-- The renaming changes nothing. -/
def Idle (r : Renaming) : Prop := ∀ x, r.apply x = x

theorem Idle.cons {r : Renaming} (hr : Idle r) (x : String) : Idle ((x, x) :: r) := by
  intro y
  by_cases hy : y = x
  · simp [Renaming.apply, hy]
  · have hne : (y == x) = false := by simpa using hy
    simpa [Renaming.apply, List.lookup_cons, hne] using hr y

theorem Idle.expr {r : Renaming} (hr : Idle r) : Expr.rename r = id :=
  funext (Expr.rename_of_apply_self hr)

theorem Idle.assignment {r : Renaming} (hr : Idle r) : Assignment.rename r = id :=
  funext (Assignment.rename_of_apply_self hr)

mutual

/-- A statement whose declarations are apart already stays as it is. -/
theorem uniqueStmt_of_apart : ∀ (stmt : Stmt) {r : Renaming} {s : NameSupply}, Idle r →
    Apart s stmt.declared →
    ∃ r', Idle r' ∧ uniqueStmt r stmt s = ((stmt, r'), supplyAfter s stmt.declared)
  | .decl d, r, s, hr, h => ⟨_, hr.cons d.name, by simp [h.fresh, hr.expr, Stmt.declared]⟩
  | .arrayDecl x elem len, r, s, hr, h => ⟨_, hr.cons x, by simp [h.fresh, hr.expr, Stmt.declared]⟩
  | .assign a, r, s, hr, _ => ⟨r, hr, by simp [hr.assignment, Stmt.declared, supplyAfter]⟩
  | .ret value, r, s, hr, _ => ⟨r, hr, by simp [hr.expr, Stmt.declared, supplyAfter]⟩
  | .expr e, r, s, hr, _ => ⟨r, hr, by simp [hr.expr, Stmt.declared, supplyAfter]⟩
  | .cond test yes no, r, s, hr, h => by
    obtain ⟨hyes, hno⟩ := Apart.append h
    refine ⟨r, hr, ?_⟩
    simp [uniqueBody_of_apart yes hr hyes, uniqueBody_of_apart no hr hno, hr.expr, Stmt.declared,
      supplyAfter_append]
  | .for_ none test step body, r, s, hr, h =>
    ⟨r, hr, by simp [uniqueBody_of_apart body hr h, hr.expr, hr.assignment, Stmt.declared]⟩
  | .for_ (some (.assign a)) test step body, r, s, hr, h =>
    ⟨r, hr, by simp [uniqueBody_of_apart body hr h, hr.expr, hr.assignment, Stmt.declared]⟩
  | .for_ (some (.decl d)) test step body, r, s, hr, h => by
    obtain ⟨hd, hbody⟩ := Apart.append (a := [(d.name, d.ty)]) h
    have hin := hr.cons d.name
    refine ⟨r, hr, ?_⟩
    simp [hd.fresh, uniqueBody_of_apart body hin hbody, hr.expr, hin.expr, hin.assignment,
      ← supplyAfter_append, Stmt.declared]
  | .while_ test body, r, s, hr, h =>
    ⟨r, hr, by simp [uniqueBody_of_apart body hr h, hr.expr, Stmt.declared]⟩
  | .block body, r, s, hr, h =>
    ⟨r, hr, by simp [uniqueBody_of_apart body hr h, Stmt.declared]⟩

theorem uniqueBody_of_apart : ∀ (body : List Stmt) {r : Renaming} {s : NameSupply}, Idle r →
    Apart s (declaredIn body) →
    uniqueBody r body s = (body, supplyAfter s (declaredIn body))
  | [], _, _, _, _ => rfl
  | stmt :: rest, r, s, hr, h => by
    obtain ⟨hstmt, hrest⟩ := Apart.append h
    obtain ⟨r', hr', heq⟩ := uniqueStmt_of_apart stmt hr hstmt
    simp only [uniqueBody_cons, heq, uniqueBody_of_apart rest hr' hrest]
    rw [declaredIn, supplyAfter_append]

end

/-- Naming the locals of a function apart gives each declaration, in order and with its type, a
variant of its name that no other declaration and no parameter has, whatever names the function
uses already. Doing it again changes nothing. -/
theorem locals_named_apart (f : Func) :
    ((declaredIn (uniqueLocals f).stmts).map Prod.fst).Nodup ∧
      ((declaredIn (uniqueLocals f).stmts).map Prod.fst).Disjoint (f.params.map (·.name)) ∧
      List.Forall₂ NamedAfter (declaredIn f.stmts) (declaredIn (uniqueLocals f).stmts) ∧
      uniqueLocals (uniqueLocals f) = uniqueLocals f := by
  obtain ⟨name, params, ret, body, span⟩ := f
  cases body with
  | none => exact ⟨List.nodup_nil, List.disjoint_nil_left _, .nil, rfl⟩
  | some body =>
    let s := NameSupply.empty.reserveAll (params.map (·.name))
    have hnames := names_uniqueBody body [] s
    have hapart : Apart s (declaredIn (uniqueLocalsOf params body)) :=
      hnames.drawn.apart (NameSupply.nodup_reserveAll List.nodup_nil _)
    refine ⟨hapart.1, fun x hx hp => ?_, hnames.named, ?_⟩
    · exact hapart.2 x hx ((NameSupply.mem_reserveAll _ _ x).mpr (.inl hp))
    · have hagain := uniqueBody_of_apart (r := []) _ (fun _ => rfl) hapart
      simp only [uniqueLocals, Option.map_some]
      rw [uniqueLocalsOf, hagain]

end Fluxion.Canonical
