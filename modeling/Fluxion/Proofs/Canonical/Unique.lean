import Fluxion.Canonical.Renaming
import Fluxion.Proofs.Names

/-!
Naming locals apart, as functions of the names that are taken.
-/

namespace Fluxion

/-! ### Renamings that change nothing -/

mutual

theorem Expr.rename_of_apply_self {r : Renaming} (hr : ∀ x, r.apply x = x) :
    ∀ e : Expr, e.rename r = e
  | .var x => by rw [Expr.rename, hr]
  | .float _ | .int _ | .bool _ | .funcRef _ => rfl
  | .index x i => by rw [Expr.rename, hr, Expr.rename_of_apply_self hr i]
  | .unary op e => by rw [Expr.rename, Expr.rename_of_apply_self hr e]
  | .binary op l e => by
    rw [Expr.rename, Expr.rename_of_apply_self hr l, Expr.rename_of_apply_self hr e]
  | .call f args => by rw [Expr.rename, renameArgs_of_apply_self hr args]

theorem renameArgs_of_apply_self {r : Renaming} (hr : ∀ x, r.apply x = x) :
    ∀ es : List Expr, renameArgs r es = es
  | [] => rfl
  | e :: es => by rw [renameArgs, Expr.rename_of_apply_self hr e, renameArgs_of_apply_self hr es]

end

theorem Assignment.rename_of_apply_self {r : Renaming} (hr : ∀ x, r.apply x = x)
    (a : Assignment) : a.rename r = a := by
  obtain ⟨x | ⟨x, i⟩, op, value⟩ := a
  · rw [Assignment.rename, Place.rename, hr, Expr.rename_of_apply_self hr]
  · rw [Assignment.rename, Place.rename, hr, Expr.rename_of_apply_self hr,
      Expr.rename_of_apply_self hr]

namespace Canonical

section

variable (r : Renaming) (s : NameSupply)

@[simp] theorem uniqueLocal_apply (d : Local) :
    uniqueLocal r d s =
      ((⟨(s.fresh d.name).1, d.ty, d.init.map (Expr.rename r)⟩, (d.name, (s.fresh d.name).1) :: r),
        (s.fresh d.name).2) := rfl

@[simp] theorem uniqueInit?_none : uniqueInit? r none s = ((none, r), s) := rfl

@[simp] theorem uniqueInit?_decl (d : Local) :
    uniqueInit? r (some (.decl d)) s =
      ((some (.decl (uniqueLocal r d s).1.1), (uniqueLocal r d s).1.2), (uniqueLocal r d s).2) := rfl

@[simp] theorem uniqueInit?_assign (a : Assignment) :
    uniqueInit? r (some (.assign a)) s = ((some (.assign (a.rename r)), r), s) := rfl

@[simp] theorem uniqueStmt_decl (d : Local) :
    uniqueStmt r (.decl d) s =
      ((.decl (uniqueLocal r d s).1.1, (uniqueLocal r d s).1.2), (uniqueLocal r d s).2) := rfl

@[simp] theorem uniqueStmt_arrayDecl (x : String) (elem : Ty) (len : Expr) :
    uniqueStmt r (.arrayDecl x elem len) s =
      ((.arrayDecl (s.fresh x).1 elem (len.rename r), (x, (s.fresh x).1) :: r),
        (s.fresh x).2) := rfl

@[simp] theorem uniqueStmt_assign (a : Assignment) :
    uniqueStmt r (.assign a) s = ((.assign (a.rename r), r), s) := rfl

@[simp] theorem uniqueStmt_cond (test : Expr) (yes no : List Stmt) :
    uniqueStmt r (.cond test yes no) s =
      ((.cond (test.rename r) (uniqueBody r yes s).1 (uniqueBody r no (uniqueBody r yes s).2).1, r),
        (uniqueBody r no (uniqueBody r yes s).2).2) := rfl

@[simp] theorem uniqueStmt_for (init : Option LoopInit) (test : Option Expr)
    (step : Option Assignment) (body : List Stmt) :
    uniqueStmt r (.for_ init test step body) s =
      let i := uniqueInit? r init s
      let b := uniqueBody i.1.2 body i.2
      ((.for_ i.1.1 (test.map (Expr.rename i.1.2)) (step.map (Assignment.rename i.1.2)) b.1, r),
        b.2) := rfl

@[simp] theorem uniqueStmt_while (test : Expr) (body : List Stmt) :
    uniqueStmt r (.while_ test body) s =
      ((.while_ (test.rename r) (uniqueBody r body s).1, r), (uniqueBody r body s).2) := rfl

@[simp] theorem uniqueStmt_ret (value : Option Expr) :
    uniqueStmt r (.ret value) s = ((.ret (value.map (Expr.rename r)), r), s) := rfl

@[simp] theorem uniqueStmt_expr (e : Expr) :
    uniqueStmt r (.expr e) s = ((.expr (e.rename r), r), s) := rfl

@[simp] theorem uniqueStmt_block (body : List Stmt) :
    uniqueStmt r (.block body) s = ((.block (uniqueBody r body s).1, r), (uniqueBody r body s).2) :=
  rfl

@[simp] theorem uniqueBody_nil : uniqueBody r [] s = ([], s) := rfl

@[simp] theorem uniqueBody_cons (stmt : Stmt) (rest : List Stmt) :
    uniqueBody r (stmt :: rest) s =
      let first := uniqueStmt r stmt s
      let others := uniqueBody first.1.2 rest first.2
      (first.1.1 :: others.1, others.2) := rfl

end

end Canonical

end Fluxion
