import Fluxion.Lang.Expr

/-!
Statements. A loop header holds at most a declaration or an assignment before the loop and an
assignment between rounds; everything else nests through statement lists.
-/

namespace Fluxion

/-- How an assignment combines the old value with the new one. -/
inductive AssignOp where
  | set | add | sub | mul | div
deriving DecidableEq, Repr

namespace AssignOp

/-- The operator as written. -/
def symbol : AssignOp → String
  | .set => "="
  | .add => "+="
  | .sub => "-="
  | .mul => "*="
  | .div => "/="

/-- The operator a compound assignment applies. -/
def binOp? : AssignOp → Option BinOp
  | .set => none
  | .add => some .add
  | .sub => some .sub
  | .mul => some .mul
  | .div => some .div

end AssignOp

/-- The declaration of a local, with a value to start from. -/
structure Local where
  name : String
  ty : Ty
  init : Option Expr
deriving Repr, Inhabited

/-- An assignment to a storage location. -/
structure Assignment where
  place : Place
  op : AssignOp
  value : Expr
deriving Repr

/-- What may stand before the first `;` of a loop header. -/
inductive LoopInit where
  | decl (d : Local)
  | assign (a : Assignment)
deriving Repr

/-- A statement. -/
inductive Stmt where
  | decl (d : Local)
  | arrayDecl (name : String) (elem : Ty) (len : Expr)
  | assign (a : Assignment)
  | cond (test : Expr) (yes no : List Stmt)
  | for_ (init : Option LoopInit) (test : Option Expr) (step : Option Assignment) (body : List Stmt)
  | while_ (test : Expr) (body : List Stmt)
  | ret (value : Option Expr)
  | expr (e : Expr)
  | block (body : List Stmt)
deriving Repr

instance : Inhabited Stmt := ⟨.ret none⟩

/-- The statement `let name: ty = init;`. -/
def Stmt.let_ (name : String) (ty : Ty) (init : Option Expr) : Stmt := .decl ⟨name, ty, init⟩

/-- The statement `place op value;`. -/
def Stmt.update (place : Place) (op : AssignOp) (value : Expr) : Stmt := .assign ⟨place, op, value⟩

/-- The statement `name = value;`. -/
def Stmt.set (name : String) (value : Expr) : Stmt := .assign ⟨.var name, .set, value⟩

/-- The statement a loop header begins with, standing on its own. -/
def LoopInit.toStmt : LoopInit → Stmt
  | .decl d => .decl d
  | .assign a => .assign a

/-! ### The expressions of a statement -/

/-- All expressions in a declaration. -/
def Local.parts (d : Local) : List Expr := (d.init.map Expr.parts).getD []

/-- All expressions in an assignment, those of an index first. -/
def Assignment.parts (a : Assignment) : List Expr := a.place.parts ++ a.value.parts

/-- All expressions in the first part of a loop header. -/
def LoopInit.parts : LoopInit → List Expr
  | .decl d => d.parts
  | .assign a => a.parts

mutual

/-- All expressions in a statement, in the order of the source. -/
def Stmt.parts : Stmt → List Expr
  | .decl d => d.parts
  | .arrayDecl _ _ len => len.parts
  | .assign a => a.parts
  | .cond test yes no => test.parts ++ (partsOf yes ++ partsOf no)
  | .for_ init test step body =>
    (init.map LoopInit.parts).getD [] ++ (test.map Expr.parts).getD []
      ++ (step.map Assignment.parts).getD [] ++ partsOf body
  | .while_ test body => test.parts ++ partsOf body
  | .ret value => (value.map Expr.parts).getD []
  | .expr e => e.parts
  | .block body => partsOf body

/-- All expressions in a statement list, in the order of the source. -/
def partsOf : List Stmt → List Expr
  | [] => []
  | s :: rest => s.parts ++ partsOf rest

end

/-! ### The declarations of a statement -/

mutual

/-- Names and types a statement declares, at any depth and in the order of the source; arrays
declared with a length have a type without one. -/
def Stmt.declared : Stmt → List (String × Ty)
  | .decl d => [(d.name, d.ty)]
  | .arrayDecl name elem _ => [(name, .arrayOf elem)]
  | .cond _ yes no => declaredIn yes ++ declaredIn no
  | .for_ (some (.decl d)) _ _ body => (d.name, d.ty) :: declaredIn body
  | .for_ _ _ _ body => declaredIn body
  | .while_ _ body => declaredIn body
  | .block body => declaredIn body
  | _ => []

/-- Names and types a statement list declares. -/
def declaredIn : List Stmt → List (String × Ty)
  | [] => []
  | s :: rest => s.declared ++ declaredIn rest

end

/-! ### The assignments of a statement -/

/-- The assignment a loop header begins with, if that is what it begins with. -/
def LoopInit.assignments : LoopInit → List Assignment
  | .decl _ => []
  | .assign a => [a]

mutual

/-- All assignments in a statement, at any depth. -/
def Stmt.assignments : Stmt → List Assignment
  | .assign a => [a]
  | .cond _ yes no => assignmentsIn yes ++ assignmentsIn no
  | .for_ init _ step body =>
    (init.map LoopInit.assignments).getD [] ++ step.toList ++ assignmentsIn body
  | .while_ _ body => assignmentsIn body
  | .block body => assignmentsIn body
  | _ => []

/-- All assignments in a statement list. -/
def assignmentsIn : List Stmt → List Assignment
  | [] => []
  | s :: rest => s.assignments ++ assignmentsIn rest

end

/-! ### Returns -/

mutual

/-- A return occurs somewhere in the statement. -/
def Stmt.hasReturn : Stmt → Bool
  | .ret _ => true
  | .cond _ yes no => hasReturnIn yes || hasReturnIn no
  | .for_ _ _ _ body => hasReturnIn body
  | .while_ _ body => hasReturnIn body
  | .block body => hasReturnIn body
  | _ => false

/-- A return occurs somewhere in the statement list. -/
def hasReturnIn : List Stmt → Bool
  | [] => false
  | s :: rest => s.hasReturn || hasReturnIn rest

end

/-! ### Equality -/

instance : BEq Local where
  beq d d' := d.name == d'.name && d.ty == d'.ty && d.init == d'.init

instance : BEq Assignment where
  beq a a' := a.place == a'.place && a.op == a'.op && a.value == a'.value

instance : BEq LoopInit where
  beq
    | .decl d, .decl d' => d == d'
    | .assign a, .assign a' => a == a'
    | _, _ => false

mutual

/-- Equality of statements that compares float literals as numbers. -/
def Stmt.same : Stmt → Stmt → Bool
  | .decl d, .decl d' => d == d'
  | .arrayDecl x t n, .arrayDecl x' t' n' => x == x' && t == t' && n == n'
  | .assign a, .assign a' => a == a'
  | .cond c y n, .cond c' y' n' => c == c' && sameBody y y' && sameBody n n'
  | .for_ i c s b, .for_ i' c' s' b' => i == i' && c == c' && s == s' && sameBody b b'
  | .while_ c b, .while_ c' b' => c == c' && sameBody b b'
  | .ret v, .ret v' => v == v'
  | .expr e, .expr e' => e == e'
  | .block b, .block b' => sameBody b b'
  | _, _ => false

/-- Equality of statement lists that compares float literals as numbers. -/
def sameBody : List Stmt → List Stmt → Bool
  | [], [] => true
  | s :: rest, s' :: rest' => s.same s' && sameBody rest rest'
  | _, _ => false

end

instance : BEq Stmt := ⟨Stmt.same⟩

end Fluxion
