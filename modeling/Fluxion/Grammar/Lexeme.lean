import Fluxion.Decimal.Reader
import Fluxion.Grammar.Combinators
import Fluxion.Lang.Func

/-!
The words of the language: keywords, identifiers, paths of identifiers, numbers and types.
-/

namespace Fluxion.Grammar

open Fluxion.Grammar.Parser

/-- The words that are no identifiers. -/
def keywords : List String :=
  ["fn", "extern", "namespace", "let", "if", "else", "for", "while", "return", "true", "false",
   "tape", "f64", "i64", "bool", "void"]

/-- A letter or an underscore, all of ASCII. -/
def isIdentStart (c : Char) : Bool := c.isAlpha || c == '_'

/-- A letter, a digit or an underscore, all of ASCII. -/
def isIdentPart (c : Char) : Bool := c.isAlphanum || c == '_'

/-- Letters, digits and underscores, the first no digit. -/
def name : Parser String := do
  let first ← satisfy isIdentStart
  let rest ← span isIdentPart
  return String.ofList (first :: rest)

/-- A given keyword. Another word is refused as a whole. -/
def keyword (text : String) : Parser Unit :=
  padded (checked name fun s => if s == text then .ok () else .error none)

/-- A name that is no keyword. -/
def ident : Parser String :=
  padded (checked name fun s =>
    if keywords.contains s then .error (some ("`" ++ s ++ "` is a reserved word")) else .ok s)

/-- Identifiers joined by `::`. -/
def path (limit : Nat) : Parser String := do
  let first ← ident
  let rest ← many limit (do word "::"; ident)
  return "::".intercalate (first :: rest)

/-- A decimal number without a superfluous zero at the front; after a zero it ends. -/
def wholeNumber : Parser (List Char) :=
  orElse (do
    let first ← satisfy fun c => c.isDigit && c != '0'
    let rest ← span Char.isDigit
    return first :: rest)
  (do
    let zero ← char '0'
    return [zero])

/-- At least one digit. -/
def digits : Parser (List Char) := do
  let first ← satisfy Char.isDigit
  let rest ← span Char.isDigit
  return first :: rest

/-- The power of ten of a number: its sign and digits. -/
def exponent : Parser (Option Char × List Char) := do
  let _ ← satisfy fun c => c == 'e' || c == 'E'
  let sign ← optional (satisfy fun c => c == '+' || c == '-')
  let power ← digits
  return (sign, power)

/-- The literal for what was read of a number: an integer without point and power, else a float. -/
def literal (whole : List Char) (frac : Option (Option (List Char)))
    (power : Option (Option Char × List Char)) : Except (Option String) Expr :=
  match frac, power with
  | none, none =>
    let n := Decimal.digitsValue whole
    if n < Nat.pow 2 63 then .ok (.int (Int64.ofNat n))
    else .error (some "integer literal out of range")
  | _, _ =>
    let e : Int := match power with
      | none => 0
      | some (some '-', ds) => -(Decimal.digitsValue ds : Int)
      | some (_, ds) => Decimal.digitsValue ds
    .ok (.float (Decimal.Written.toFloat ⟨whole, (frac.getD none).getD [], e⟩ false))

/-- A number. -/
def number : Parser Expr :=
  padded (checked (do
    let whole ← wholeNumber
    let frac ← optional (do
      let _ ← char '.'
      optional digits)
    let power ← optional exponent
    return (whole, frac, power))
  fun (whole, frac, power) => literal whole frac power)

/-- The array type for an element type and a length, which has to fit a machine word. -/
def arrayTy (elem : Ty) (len : Option (List Char)) : Except (Option String) Ty :=
  match len.map Decimal.digitsValue with
  | none => .ok (.array elem none)
  | some n =>
    if n < Nat.pow 2 64 then .ok (.array elem (some n)) else .error (some "array length too large")

/-- A type; `limit` bounds the depth of nesting. -/
def ty : Nat → Parser Ty
  | 0 => refuse
  | limit + 1 => firstOf
    [firstOf
      [(do keyword "f64"; return .float),
       (do keyword "i64"; return .int),
       (do keyword "bool"; return .bool),
       (do keyword "void"; return .void)],
     (do
      let _ ← symbol '&'
      return .ref (← ty limit)),
     checked (between '[' ']' (do
      let elem ← ty limit
      let len ← optional (do
        let _ ← symbol ';'
        padded wholeNumber)
      return (elem, len))) fun (elem, len) => arrayTy elem len,
     (do
      keyword "tape"
      return .tape (← between '<' '>' (ty limit)))]

end Fluxion.Grammar
