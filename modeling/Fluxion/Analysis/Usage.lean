import Fluxion.Lang.Func

/-!
What a body reads, calls and assigns, and whether it can end without a recursive call.
-/

namespace Fluxion.Analysis

/-- The list without repetitions, each entry at its first place. -/
def distinct (names : List String) : List String :=
  names.foldl (fun seen x => if seen.contains x then seen else seen ++ [x]) []

/-- The variable or array an expression reads, calls apart. -/
def readBy : Expr → Option String
  | .var x => some x
  | .index x _ => some x
  | _ => none

/-- The variable or array an assignment reads because it adds to what is there. -/
def updatedBy (a : Assignment) : Option String :=
  if a.op = .set then none else some a.place.name

/-- Variables and arrays that statements read. -/
def reads (body : List Stmt) : List String :=
  distinct ((assignmentsIn body).filterMap updatedBy ++ (partsOf body).filterMap readBy)

/-- The calls in statements, with their arguments. -/
def calls (body : List Stmt) : List (String × List Expr) :=
  (partsOf body).filterMap fun
    | .call f args => some (f, args)
    | _ => none

/-- Functions that statements call. -/
def callees (body : List Stmt) : List String := distinct ((calls body).map (·.1))

/-- Parameters that a function assigns to itself. -/
def paramsWritten (f : Func) : List String :=
  let names := f.params.map (·.name)
  distinct (((assignmentsIn f.stmts).map (·.place.name)).filter names.contains)

/-- The arguments at the given positions that name storage. -/
def placeArgs (args : List Expr) (isRef : Nat → Bool) : List (Nat × Place) :=
  args.zipIdx.filterMap fun (e, i) => if isRef i then e.place?.map (i, ·) else none

/-- Some part of the statement calls or references a function that `p` holds of. -/
def stmtMentions (p : String → Bool) (s : Stmt) : Bool :=
  s.parts.any fun part => part.callee?.any p

/-- The first part of a loop header calls or references a function that `p` holds of. -/
def initMentions (p : String → Bool) (i : LoopInit) : Bool :=
  i.parts.any fun part => part.callee?.any p

mutual

/-- Some path through the statement and what follows it avoids all functions that `recursive`
holds of; `after` says whether what follows has such a path. -/
def exitsStmt (recursive : String → Bool) (s : Stmt) (after : Bool) : Bool :=
  match s with
  | .ret value => !value.any (·.mentions recursive)
  | .cond test yes no =>
    !test.mentions recursive && (exitsOnto recursive yes after || exitsOnto recursive no after)
  | .for_ init test _ _ =>
    !(init.any (initMentions recursive) || test.any (·.mentions recursive)) && after
  | .while_ test _ => !test.mentions recursive && after
  | .block body => exitsOnto recursive body after
  | .decl d => !stmtMentions recursive (.decl d) && after
  | .arrayDecl x elem len => !stmtMentions recursive (.arrayDecl x elem len) && after
  | .assign a => !stmtMentions recursive (.assign a) && after
  | .expr e => !stmtMentions recursive (.expr e) && after

/-- Some path through the statements and what follows them avoids the functions. -/
def exitsOnto (recursive : String → Bool) (body : List Stmt) (after : Bool) : Bool :=
  match body with
  | [] => after
  | s :: rest => exitsStmt recursive s (exitsOnto recursive rest after)

end

/-- Some path through the body calls and references none of the functions that `recursive` holds
of. -/
def exitsCleanly (recursive : String → Bool) (body : List Stmt) : Bool :=
  exitsOnto recursive body true

end Fluxion.Analysis
