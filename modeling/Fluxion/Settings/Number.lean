import Fluxion.Decimal.Reader
import Fluxion.Settings.Value

/-!
Numbers of a settings file: integers in four bases, and floats. Digits may be grouped by single
underscores.
-/

namespace Fluxion.Settings

/-- The digits of a group, where a single underscore may stand between two of them. -/
def digits? (isDigit : Char → Bool) : List Char → Option (List Char)
  | [] => none
  | [c] => if isDigit c then some [c] else none
  | c :: '_' :: rest => if isDigit c then (digits? isDigit rest).map (c :: ·) else none
  | c :: rest => if isDigit c then (digits? isDigit rest).map (c :: ·) else none

/-- The value of a digit in a base up to sixteen. -/
def digitValue (c : Char) : Nat :=
  if c.isDigit then c.toNat - 48 else c.toLower.toNat - 87

/-- A digit of a base up to sixteen. -/
def isDigitOf (base : Nat) (c : Char) : Bool :=
  (c.isDigit || ('a' ≤ c.toLower && c.toLower ≤ 'f')) && digitValue c < base

/-- The number that digits write in a base. -/
def valueOf (base : Nat) (digits : List Char) : Nat :=
  digits.foldl (fun n c => base * n + digitValue c) 0

/-- An integer of 64 bits. -/
def int? (n : Int) : Option Value :=
  if Int64.minValue.toInt ≤ n ∧ n ≤ Int64.maxValue.toInt then some (.int n) else none

/-- An unsigned decimal number without needless zeros in front. -/
def decimal? (text : List Char) : Option (List Char) := do
  let ds ← digits? Char.isDigit text
  if 1 < ds.length ∧ ds.head? = some '0' then none else some ds

/-- The sign of a number, and the text after it. -/
def takeSign : List Char → Bool × List Char
  | '-' :: rest => (true, rest)
  | '+' :: rest => (false, rest)
  | rest => (false, rest)

/-- The power of ten after a number. Zeros in front are no fault there. -/
def power? (text : List Char) : Option Int := do
  let (negative, rest) := takeSign text
  let ds ← digits? Char.isDigit rest
  return if negative then -(valueOf 10 ds : Int) else valueOf 10 ds

/-- A float: a fraction, a power of ten, or both follow the whole part. A positive number has to
be finite. -/
def float? (negative : Bool) (text : List Char) : Option Value := do
  let inPower (c : Char) : Bool := c == 'e' || c == 'E'
  let mantissa := text.takeWhile (!inPower ·)
  let exponent ← match text.dropWhile (!inPower ·) with
    | [] => some 0
    | _ :: power => power? power
  let whole ← decimal? (mantissa.takeWhile (· != '.'))
  let frac ← match mantissa.dropWhile (· != '.') with
    | [] => some []
    | _ :: frac => digits? Char.isDigit frac
  let v := (Decimal.Written.mk whole frac exponent).toFloat negative
  if v == 1.0 / 0.0 then none else some (.float v)

/-- A decimal number without its sign, or the name of infinity or NaN. -/
def unsigned? (negative : Bool) (text : List Char) : Option Value :=
  match decimal? text with
  | some ds => int? (if negative then -(valueOf 10 ds : Int) else valueOf 10 ds)
  | none =>
    match String.ofList text with
    | "inf" => some (.float (Decimal.ofMagnitude negative (2047 * Nat.pow 2 52)))
    | "nan" => some (.float (0.0 / 0.0))
    | _ => float? negative text

/-- An integer in a base other than ten. -/
def based? (base : Nat) (text : List Char) : Option Value := do
  int? (valueOf base (← digits? (isDigitOf base) text))

/-- A number. Those in other bases have no sign. -/
def number? (text : List Char) : Option Value :=
  match text with
  | '0' :: 'x' :: rest => based? 16 rest
  | '0' :: 'o' :: rest => based? 8 rest
  | '0' :: 'b' :: rest => based? 2 rest
  | text =>
    let (negative, rest) := takeSign text
    unsigned? negative rest

end Fluxion.Settings
