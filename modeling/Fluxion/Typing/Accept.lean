import Fluxion.Lang.Expr

/-!
Which arguments a parameter accepts, at which cost, and what operators make of their operands'
types. The only conversion is from integers to floats, and it costs one.
-/

namespace Fluxion

namespace Ty

/-- A parameter type accepts an argument type as it is. Known lengths of arrays have to agree. -/
def acceptsExactly : Ty → Ty → Bool
  | .array t (some n), .array a (some m) => t == a && n == m
  | .array t _, .array a _ => t == a
  | t, a => t == a

/-- The cost at which a parameter type accepts an argument type. A reference takes no
conversion. -/
def cost? : Ty → Ty → Option Nat
  | .ref t, .ref a => if t.acceptsExactly a then some 0 else none
  | .ref t, a => if t.acceptsExactly a then some 0 else none
  | .float, .int => some 1
  | t, .ref a => cost? t a
  | t, a => if t.acceptsExactly a then some 0 else none

/-- A place of type `t` takes a value of type `a`. -/
def takes (t a : Ty) : Bool := t == a || (t.cost? a).isSome

/-- The type counts as a float when read. -/
def isFloat (t : Ty) : Bool := t.value == .float

end Ty

/-- The type of `l op r` for operands of the given types. -/
def BinOp.result? (op : BinOp) (l r : Ty) : Option Ty :=
  let l := l.value
  let r := r.value
  match op with
  | .and | .or => if l == .bool && r == .bool then some .bool else none
  | .rem => if l == .int && r == .int then some .int else none
  | _ =>
    if (op == .eq || op == .ne) && l == .bool && r == .bool then some .bool
    else if !l.isNumeric || !r.isNumeric then none
    else if op.isComparison then some .bool
    else if l == .float || r == .float then some .float
    else some .int

/-- The type of `op e` for an operand of the given type. -/
def UnOp.result? (op : UnOp) (t : Ty) : Option Ty :=
  match op with
  | .neg => if t.isNumeric then some t else none
  | .not => if t == .bool then some .bool else none

end Fluxion
