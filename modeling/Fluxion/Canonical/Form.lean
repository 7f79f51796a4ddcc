import Fluxion.Canonical.Renaming
import Fluxion.Canonical.Returns

/-!
The canonical form that differentiation starts from: unique names, returns at the end, and no
blocks.
-/

namespace Fluxion.Canonical

mutual

/-- The statement without blocks; a block becomes its statements. -/
def flattenStmt : Stmt → List Stmt
  | .block body => flattenBlocks body
  | .cond test yes no => [.cond test (flattenBlocks yes) (flattenBlocks no)]
  | .for_ init test step body => [.for_ init test step (flattenBlocks body)]
  | .while_ test body => [.while_ test (flattenBlocks body)]
  | .decl d => [.decl d]
  | .arrayDecl x elem len => [.arrayDecl x elem len]
  | .assign a => [.assign a]
  | .ret value => [.ret value]
  | .expr e => [.expr e]

/-- The statements without blocks. -/
def flattenBlocks : List Stmt → List Stmt
  | [] => []
  | s :: rest => flattenStmt s ++ flattenBlocks rest

end

/-- The canonical body of a function with the given parameters. -/
def canonicalBody (params : List Param) (body : List Stmt) : Lifted :=
  (liftReturns (uniqueLocalsOf params body)).map flattenBlocks

/-- The canonical form of a function. -/
def canonicalize (f : Func) : Except ReturnInLoop Func :=
  match f.body with
  | none => .ok f
  | some body => (canonicalBody f.params body).map fun body => { f with body := some body }

end Fluxion.Canonical
