import Fluxion.Lang.Func

/-!
Returns at the end: a statement after a branch that may return moves into the branches, so that a
return is always the last statement that runs. Returns inside loops cannot be moved.
-/

namespace Fluxion.Canonical

/-- A return stands inside a loop. -/
inductive ReturnInLoop where
  | mk
deriving DecidableEq, Repr

/-- The message of the failure. -/
def ReturnInLoop.message (_ : ReturnInLoop) : String :=
  "`return` inside a loop cannot be moved to the end of the function"

/-- Statements, unless a return cannot be moved. -/
abbrev Lifted := Except ReturnInLoop (List Stmt)

mutual

/-- The statement followed by statements that are lifted already. What follows counts only where
control reaches it. -/
def liftStmt (s : Stmt) (after : Lifted) : Lifted :=
  match s with
  | .ret value => .ok [.ret value]
  | .cond test yes no =>
    if hasReturnIn yes || hasReturnIn no then do
      let yes ← liftOnto yes after
      let no ← liftOnto no after
      return [.cond test yes no]
    else after.map (.cond test yes no :: ·)
  | .block body =>
    if hasReturnIn body then liftOnto body after else after.map (.block body :: ·)
  | .for_ init test step body =>
    if hasReturnIn body then .error .mk else after.map (.for_ init test step body :: ·)
  | .while_ test body =>
    if hasReturnIn body then .error .mk else after.map (.while_ test body :: ·)
  | .decl d => after.map (.decl d :: ·)
  | .arrayDecl x elem len => after.map (.arrayDecl x elem len :: ·)
  | .assign a => after.map (.assign a :: ·)
  | .expr e => after.map (.expr e :: ·)

/-- The statements followed by statements that are lifted already. -/
def liftOnto (body : List Stmt) (after : Lifted) : Lifted :=
  match body with
  | [] => after
  | s :: rest => liftStmt s (liftOnto rest after)

end

/-- Moves all returns to the end. -/
def liftReturns (body : List Stmt) : Lifted := liftOnto body (.ok [])

end Fluxion.Canonical
