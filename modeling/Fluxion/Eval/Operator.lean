import Fluxion.Eval.Fault
import Fluxion.Eval.Value

/-!
Operators on values. Integers wrap around; a float on either side makes the other one a float.
-/

namespace Fluxion

variable {K : Type} [Scalar K]

/-- An operator on integers, division by zero and remainders apart. -/
def BinOp.onInts (op : BinOp) (a b : Int64) : Option (Value K) :=
  match op with
  | .add => some (.int (a + b))
  | .sub => some (.int (a - b))
  | .mul => some (.int (a * b))
  | .div => some (.int (a / b))
  | .rem => some (.int (a % b))
  | .lt => some (.bool (a < b))
  | .le => some (.bool (a ≤ b))
  | .gt => some (.bool (b < a))
  | .ge => some (.bool (b ≤ a))
  | .eq => some (.bool (a == b))
  | .ne => some (.bool (a != b))
  | .and | .or => none

/-- An operator on numbers. -/
def BinOp.onNumbers (op : BinOp) (a b : K) : Option (Value K) :=
  match op with
  | .add => some (.float (a + b))
  | .sub => some (.float (a - b))
  | .mul => some (.float (a * b))
  | .div => some (.float (a / b))
  | .lt => some (.bool (Scalar.lt a b))
  | .le => some (.bool (Scalar.le a b))
  | .gt => some (.bool (Scalar.lt b a))
  | .ge => some (.bool (Scalar.le b a))
  | .eq => some (.bool (Scalar.eq a b))
  | .ne => some (.bool (!Scalar.eq a b))
  | .rem | .and | .or => none

/-- An operator on truth values. -/
def BinOp.onBools (op : BinOp) (a b : Bool) : Option (Value K) :=
  match op with
  | .and => some (.bool (a && b))
  | .or => some (.bool (a || b))
  | .eq => some (.bool (a == b))
  | .ne => some (.bool (a != b))
  | _ => none

/-- The value of an operator on values that it applies to; integers are not divided by zero. -/
def BinOp.value? (op : BinOp) : Value K → Value K → Option (Value K)
  | .bool a, .bool b => op.onBools a b
  | .bool _, _ => none
  | _, .bool _ => none
  | .int a, .int b => op.onInts a b
  | .int a, .float b => op.onNumbers (Scalar.ofInt a) b
  | .float a, .int b => op.onNumbers a (Scalar.ofInt b)
  | .float a, .float b => op.onNumbers a b

/-- The operands are an integer and an integer zero to divide it by. -/
def BinOp.dividesByZero (op : BinOp) : Value K → Value K → Bool
  | .int _, .int b => (op == .div || op == .rem) && b == 0
  | _, _ => false

/-- The value of `l op r`. -/
def BinOp.apply (op : BinOp) (l r : Value K) : Except RuntimeError (Value K) :=
  if op.dividesByZero l r then .error .divisionByZero
  else
    match op.value? l r with
    | some v => .ok v
    | none => .error (.type (.operator op l.ty r.ty))

/-- The negative of a number. -/
def Value.negate : Value K → Except RuntimeError (Value K)
  | .float v => .ok (.float (-v))
  | .int v => .ok (.int (-v))
  | .bool _ => .error (.type .negatedBool)

end Fluxion
