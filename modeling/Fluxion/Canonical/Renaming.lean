import Fluxion.Names

/-!
Locals with names of their own: every declaration gets a name that no parameter and no other
declaration of the function has, and its uses follow.
-/

namespace Fluxion

/-- New names of the variables in scope; of several entries for a name the first counts, and a
name without entry stays. -/
abbrev Renaming := List (String × String)

/-- The new name of a variable. -/
def Renaming.apply (r : Renaming) (x : String) : String := (r.lookup x).getD x

mutual

/-- Renames the variables of an expression. -/
def Expr.rename (r : Renaming) : Expr → Expr
  | .var x => .var (r.apply x)
  | .index x i => .index (r.apply x) (i.rename r)
  | .unary op e => .unary op (e.rename r)
  | .binary op l r' => .binary op (l.rename r) (r'.rename r)
  | .call f args => .call f (renameArgs r args)
  | .float v => .float v
  | .int v => .int v
  | .bool v => .bool v
  | .funcRef f => .funcRef f

/-- Renames the variables of arguments. -/
def renameArgs (r : Renaming) : List Expr → List Expr
  | [] => []
  | e :: es => e.rename r :: renameArgs r es

end

/-- Renames the variables of a storage location. -/
def Place.rename (r : Renaming) : Place → Place
  | .var x => .var (r.apply x)
  | .index x i => .index (r.apply x) (i.rename r)

/-- Renames the variables of an assignment. -/
def Assignment.rename (r : Renaming) (a : Assignment) : Assignment :=
  ⟨a.place.rename r, a.op, a.value.rename r⟩

namespace Canonical

/-- Computations that take names. -/
abbrev Naming := StateM NameSupply

/-- A free name for a declaration of `x`. -/
def freshFor (x : String) : Naming String := fun s => s.fresh x

/-- Names a local, whose initial value does not see the new name. -/
def uniqueLocal (r : Renaming) (d : Local) : Naming (Local × Renaming) := do
  let name ← freshFor d.name
  return (⟨name, d.ty, d.init.map (Expr.rename r)⟩, (d.name, name) :: r)

/-- Names what a loop header declares. -/
def uniqueInit (r : Renaming) : LoopInit → Naming (LoopInit × Renaming)
  | .decl d => do
    let (d, r) ← uniqueLocal r d
    return (.decl d, r)
  | .assign a => return (.assign (a.rename r), r)

/-- Names what the first part of a loop header declares, if there is one. -/
def uniqueInit? (r : Renaming) : Option LoopInit → Naming (Option LoopInit × Renaming)
  | none => return (none, r)
  | some init => do
    let (init, r) ← uniqueInit r init
    return (some init, r)

mutual

/-- Names the locals of a statement; gives the names in scope after it. -/
def uniqueStmt (r : Renaming) : Stmt → Naming (Stmt × Renaming)
  | .decl d => do
    let (d, r) ← uniqueLocal r d
    return (.decl d, r)
  | .arrayDecl x elem len => do
    let name ← freshFor x
    return (.arrayDecl name elem (len.rename r), (x, name) :: r)
  | .assign a => return (.assign (a.rename r), r)
  | .cond test yes no => do
    let yes ← uniqueBody r yes
    let no ← uniqueBody r no
    return (.cond (test.rename r) yes no, r)
  | .for_ init test step body => do
    let (init, inner) ← uniqueInit? r init
    let body ← uniqueBody inner body
    return (.for_ init (test.map (Expr.rename inner)) (step.map (Assignment.rename inner)) body, r)
  | .while_ test body => do
    let body ← uniqueBody r body
    return (.while_ (test.rename r) body, r)
  | .ret value => return (.ret (value.map (Expr.rename r)), r)
  | .expr e => return (.expr (e.rename r), r)
  | .block body => do
    let body ← uniqueBody r body
    return (.block body, r)

/-- Names the locals of a statement list, which is a scope of its own. -/
def uniqueBody (r : Renaming) : List Stmt → Naming (List Stmt)
  | [] => return []
  | s :: rest => do
    let (s, r) ← uniqueStmt r s
    let rest ← uniqueBody r rest
    return s :: rest

end

/-- Names the locals of a body apart from the given parameters and from each other. -/
def uniqueLocalsOf (params : List Param) (body : List Stmt) : List Stmt :=
  (uniqueBody [] body (NameSupply.empty.reserveAll (params.map (·.name)))).1

/-- Names the locals of a function apart from its parameters and from each other. -/
def uniqueLocals (f : Func) : Func := { f with body := f.body.map (uniqueLocalsOf f.params) }

end Canonical

end Fluxion
