import Fluxion.Lang.Expr

/-!
Constructors that fold literal zeros and ones. Derivative rules are written with these, so a
derived expression keeps the shape of its rule but for terms that vanish.
-/

namespace Fluxion.Expr

/-- The float zero. -/
def zero : Expr := .float 0.0

/-- The float one. -/
def one : Expr := .float 1.0

/-- Negation; of a zero it is zero, and two cancel. -/
def negate : Expr → Expr
  | .float v => if v == 0.0 then zero else .unary .neg (.float v)
  | .int v => if v == 0 then zero else .unary .neg (.int v)
  | .unary .neg e => e
  | e => .unary .neg e

/-- Sum without zeros. -/
def plus (l r : Expr) : Expr :=
  if l.isZero then r else if r.isZero then l else .binary .add l r

/-- Difference without zeros. -/
def minus (l r : Expr) : Expr :=
  if r.isZero then l else if l.isZero then r.negate else .binary .sub l r

/-- Product without zeros and ones. -/
def times (l r : Expr) : Expr :=
  if l.isZero || r.isZero then zero
  else if l.isOne then r
  else if r.isOne then l
  else .binary .mul l r

/-- Quotient without a zero above or a one below. -/
def dividedBy (l r : Expr) : Expr :=
  if l.isZero then zero else if r.isOne then l else .binary .div l r

/-- The comparison `l < r`. -/
def less (l r : Expr) : Expr := .binary .lt l r

/-- The comparison `l > r`. -/
def greater (l r : Expr) : Expr := .binary .gt l r

/-- An integer as a literal, if it is one of the language. -/
def ofInt? (n : Int) : Option Expr :=
  if Int64.minValue.toInt ≤ n ∧ n ≤ Int64.maxValue.toInt then some (.int (Int64.ofInt n)) else none

/-- A natural number as an integer literal. -/
def ofNat (n : Nat) : Expr := .int (Int64.ofNat n)

/-- Sum of index expressions; two literals are added, which fails when the sum is no literal. -/
def indexSum? (l r : Expr) : Option Expr :=
  match l, r with
  | l, .int 0 => some l
  | .int 0, r => some r
  | .int a, .int b => ofInt? (a.toInt + b.toInt)
  | l, r => some (.binary .add l r)

/-- Product of index expressions; two literals are multiplied, which fails when the product is no
literal. -/
def indexProduct? (l r : Expr) : Option Expr :=
  match l, r with
  | .int 0, _ => some (.int 0)
  | _, .int 0 => some (.int 0)
  | .int 1, r => some r
  | l, .int 1 => some l
  | .int a, .int b => ofInt? (a.toInt * b.toInt)
  | l, r => some (.binary .mul l r)

/-- Sum of index expressions, left as written when it cannot be folded. -/
def indexSum (l r : Expr) : Expr := (indexSum? l r).getD (.binary .add l r)

/-- Product of index expressions, left as written when it cannot be folded. -/
def indexProduct (l r : Expr) : Expr := (indexProduct? l r).getD (.binary .mul l r)

end Fluxion.Expr
