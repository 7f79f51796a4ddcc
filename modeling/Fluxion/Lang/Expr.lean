import Fluxion.Lang.Ty

/-!
Expressions: literals, variables, array elements, operators, calls, and references to functions.
-/

namespace Fluxion

/-- A binary operator. -/
inductive BinOp where
  | add | sub | mul | div | rem
  | lt | le | gt | ge | eq | ne
  | and | or
deriving DecidableEq, Repr

namespace BinOp

/-- Every binary operator, arithmetic first. -/
def all : List BinOp := [.add, .sub, .mul, .div, .rem, .lt, .le, .gt, .ge, .eq, .ne, .and, .or]

/-- The operator as written. -/
def symbol : BinOp → String
  | .add => "+"
  | .sub => "-"
  | .mul => "*"
  | .div => "/"
  | .rem => "%"
  | .lt => "<"
  | .le => "<="
  | .gt => ">"
  | .ge => ">="
  | .eq => "=="
  | .ne => "!="
  | .and => "&&"
  | .or => "||"

/-- Binding strength; larger binds tighter. -/
def precedence : BinOp → Nat
  | .or => 1
  | .and => 2
  | .eq | .ne => 3
  | .lt | .le | .gt | .ge => 4
  | .add | .sub => 5
  | .mul | .div | .rem => 6

/-- An operator that compares numbers. -/
def isComparison : BinOp → Bool
  | .lt | .le | .gt | .ge | .eq | .ne => true
  | _ => false

end BinOp

/-- A unary operator. -/
inductive UnOp where
  | neg
  | not
deriving DecidableEq, Repr

/-- The operator as written. -/
def UnOp.symbol : UnOp → String
  | .neg => "-"
  | .not => "!"

/-- An expression. `funcRef` names a function as a value, which only numerical differentiation
takes. -/
inductive Expr where
  | float (value : Float)
  | int (value : Int64)
  | bool (value : Bool)
  | var (name : String)
  | index (name : String) (at_ : Expr)
  | unary (op : UnOp) (operand : Expr)
  | binary (op : BinOp) (lhs rhs : Expr)
  | call (name : String) (args : List Expr)
  | funcRef (name : String)
deriving Repr, Inhabited

/-- A storage location: a variable or an array element. -/
inductive Place where
  | var (name : String)
  | index (name : String) (at_ : Expr)
deriving Repr, Inhabited

namespace Expr

/-- A literal zero, of either sign. -/
def isZero : Expr → Bool
  | .float v => v == 0.0
  | .int v => v == 0
  | _ => false

/-- A literal one. -/
def isOne : Expr → Bool
  | .float v => v == 1.0
  | .int v => v == 1
  | _ => false

/-- A literal of any type. -/
def isLiteral : Expr → Bool
  | .float _ | .int _ | .bool _ => true
  | _ => false

/-- An integer literal. -/
def isInt : Expr → Bool
  | .int _ => true
  | _ => false

/-- The storage location an expression names, if it names one. -/
def place? : Expr → Option Place
  | .var x => some (.var x)
  | .index x i => some (.index x i)
  | _ => none

mutual

/-- The expression and all expressions inside it, outermost first and from left to right. -/
def parts : Expr → List Expr
  | .float v => [.float v]
  | .int v => [.int v]
  | .bool v => [.bool v]
  | .var x => [.var x]
  | .index x i => .index x i :: i.parts
  | .unary op e => .unary op e :: e.parts
  | .binary op l r => .binary op l r :: (l.parts ++ r.parts)
  | .call f args => .call f args :: partsList args
  | .funcRef f => [.funcRef f]

/-- The parts of each expression of a list, in order. -/
def partsList : List Expr → List Expr
  | [] => []
  | e :: es => e.parts ++ partsList es

end

theorem mem_parts (e : Expr) : e ∈ e.parts := by
  cases e <;> simp [parts]

mutual

/-- Equality of expressions that compares float literals as numbers. -/
def same : Expr → Expr → Bool
  | .float a, .float b => a == b
  | .int a, .int b => a == b
  | .bool a, .bool b => a == b
  | .var x, .var y => x == y
  | .index x i, .index y j => x == y && same i j
  | .unary op e, .unary op' e' => op == op' && same e e'
  | .binary op l r, .binary op' l' r' => op == op' && same l l' && same r r'
  | .call f args, .call g args' => f == g && sameList args args'
  | .funcRef f, .funcRef g => f == g
  | _, _ => false

/-- Equality of expression lists that compares float literals as numbers. -/
def sameList : List Expr → List Expr → Bool
  | [], [] => true
  | e :: es, e' :: es' => same e e' && sameList es es'
  | _, _ => false

end

instance : BEq Expr := ⟨same⟩

/-- The function a call or a function reference names. -/
def callee? : Expr → Option String
  | .call f _ => some f
  | .funcRef f => some f
  | _ => none

/-- Some part of the expression calls or references a function that `p` holds of. -/
def mentions (p : String → Bool) (e : Expr) : Bool :=
  e.parts.any fun part => part.callee?.any p

end Expr

namespace Place

/-- The variable or array a location belongs to. -/
def name : Place → String
  | .var x => x
  | .index x _ => x

/-- The expression that reads a location. -/
def toExpr : Place → Expr
  | .var x => .var x
  | .index x i => .index x i

/-- The same location of other storage. -/
def renamed (name : String) : Place → Place
  | .var _ => .var name
  | .index _ i => .index name i

/-- The expressions a location is computed from. -/
def parts : Place → List Expr
  | .var _ => []
  | .index _ i => i.parts

instance : BEq Place where
  beq
    | .var x, .var y => x == y
    | .index x i, .index y j => x == y && i == j
    | _, _ => false

theorem place?_toExpr (p : Place) : p.toExpr.place? = some p := by
  cases p <;> rfl

end Place

end Fluxion
