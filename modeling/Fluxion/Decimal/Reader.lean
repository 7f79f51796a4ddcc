import Fluxion.Decimal.Binary

/-!
Reading decimal texts as doubles. The nearest double is taken, a half going to the even one;
magnitudes too large for a double become infinite.
-/

namespace Fluxion.Decimal

/-- The bits of the double nearest to `num / den`, for positive `num` and `den`. -/
def nearestBits (num den : Nat) : Nat :=
  let guess : Int := (num.log2 : Int) - den.log2 - 52
  let exact :=
    if num * powDown 2 guess < Nat.pow 2 52 * den * powUp 2 guess then guess - 1 else guess
  let exp := max exact (-1074)
  let man := roundEven (num * powDown 2 exp) (den * powUp 2 exp)
  let bits := if man < Nat.pow 2 52 then man else (exp + 1074).toNat * Nat.pow 2 52 + man
  min bits (2047 * Nat.pow 2 52)

/-- The double nearest to `man * 10 ^ exp`, with a sign. Four hundred powers of ten away from one
the outcome is zero or infinity whatever the digits. -/
def nearest (negative : Bool) (man : Nat) (exp : Int) : Float :=
  if man = 0 || exp + (toString man).length < -400 then ofMagnitude negative 0
  else if exp > 400 then ofMagnitude negative (2047 * Nat.pow 2 52)
  else ofMagnitude negative (nearestBits (man * powUp 10 exp) (powDown 10 exp))

/-- The value of a list of decimal digits. -/
def digitsValue (digits : List Char) : Nat :=
  digits.foldl (fun n c => 10 * n + (c.toNat - 48)) 0

/-- Whole part, fraction and exponent of a written decimal. -/
structure Written where
  whole : List Char
  frac : List Char
  exponent : Int
deriving Repr

/-- The value of a written decimal. -/
def Written.toFloat (w : Written) (negative : Bool) : Float :=
  nearest negative (digitsValue (w.whole ++ w.frac)) (w.exponent - w.frac.length)

/-- An exponent: a sign that may be missing and at least one digit. -/
def exponent? (text : List Char) : Option Int :=
  let (negative, digits) := match text with
    | '-' :: rest => (true, rest)
    | '+' :: rest => (false, rest)
    | rest => (false, rest)
  if digits.isEmpty || !digits.all Char.isDigit then none
  else some (if negative then -(digitsValue digits : Int) else digitsValue digits)

/-- Splits an unsigned decimal; a digit has to stand before or after the point. -/
def written? (text : List Char) : Option Written :=
  let whole := text.takeWhile Char.isDigit
  let (frac, rest) := match text.dropWhile Char.isDigit with
    | '.' :: rest => (rest.takeWhile Char.isDigit, rest.dropWhile Char.isDigit)
    | rest => ([], rest)
  if whole.isEmpty && frac.isEmpty then none
  else match rest with
    | [] => some ⟨whole, frac, 0⟩
    | c :: power => if c = 'e' || c = 'E' then (exponent? power).map (⟨whole, frac, ·⟩) else none

/-- Reads a whole text as a double: a sign, then a decimal or a name of infinity or NaN. -/
def read? (text : String) : Option Float :=
  let (negative, body) := match text.toList with
    | '-' :: rest => (true, rest)
    | '+' :: rest => (false, rest)
    | rest => (false, rest)
  match String.ofList (body.map Char.toLower) with
  | "inf" => some (ofMagnitude negative (2047 * Nat.pow 2 52))
  | "infinity" => some (ofMagnitude negative (2047 * Nat.pow 2 52))
  | "nan" => some (ofMagnitude negative (2047 * Nat.pow 2 52 + Nat.pow 2 51))
  | _ => (written? body).map (·.toFloat negative)

end Fluxion.Decimal
