import Fluxion.Decimal.Layout
import Fluxion.Decimal.Reader
import Fluxion.Text.Position

/-!
Tokens of the short lists that are given beside a program: lists of independent variables such as
`x, a[0:2]` and lists of arguments such as `3, 5.5, [0, 1]`. The longest token wins.
-/

namespace Fluxion.Listing

/-- A token of a list. -/
inductive Token where
  | ident (name : String)
  | int (value : Int64)
  | float (value : Float)
  | leftBracket
  | rightBracket
  | colon
  | comma
deriving DecidableEq, Repr

/-- The name of a token in messages. -/
def Token.text : Token → String
  | .ident name => "Ident(\"" ++ name ++ "\")"
  | .int v => "Int(" ++ toString v.toInt ++ ")"
  | .float v => "Float(" ++ Decimal.render .literal v ++ ")"
  | .leftBracket => "LBracket"
  | .rightBracket => "RBracket"
  | .colon => "Colon"
  | .comma => "Comma"

/-- A power of ten at the front of `chars`, and what follows it. -/
def takeExponent? (chars : List Char) : Option (List Char × List Char) :=
  match chars with
  | c :: rest =>
    if c = 'e' || c = 'E' then
      let (sign, rest) := match rest with
        | '+' :: rest => (['+'], rest)
        | '-' :: rest => (['-'], rest)
        | rest => ([], rest)
      let power := rest.takeWhile Char.isDigit
      if power.isEmpty then none else some (c :: sign ++ power, rest.dropWhile Char.isDigit)
    else none
  | [] => none

/-- The longest number after the digits `whole`: the text of its fraction and power, if it has
any, and what follows. -/
def takeFraction (chars : List Char) : List Char × List Char :=
  match chars with
  | '.' :: rest =>
    let frac := '.' :: rest.takeWhile Char.isDigit
    let rest := rest.dropWhile Char.isDigit
    match takeExponent? rest with
    | some (power, rest) => (frac ++ power, rest)
    | none => (frac, rest)
  | rest => (takeExponent? rest).getD ([], rest)

/-- An integer token, if the number is an integer of the language. -/
def intToken? (negative : Bool) (digits : List Char) : Option Token :=
  let n : Int := Decimal.digitsValue digits
  let n := if negative then -n else n
  if Int64.minValue.toInt ≤ n ∧ n ≤ Int64.maxValue.toInt then some (.int (Int64.ofInt n)) else none

/-- A number at the front of `chars`, after a sign. Gives the token unless the number is out of
range, how many characters it takes up without the sign, and what follows. -/
def takeNumber (negative : Bool) (chars : List Char) : Option Token × Nat × List Char :=
  let whole := chars.takeWhile Char.isDigit
  let (fraction, rest) := takeFraction (chars.dropWhile Char.isDigit)
  let token :=
    if fraction.isEmpty then intToken? negative whole
    else (Decimal.written? (whole ++ fraction)).map fun w => .float (w.toFloat negative)
  (token, whole.length + fraction.length, rest)

/-- The token for a character that is one by itself. -/
def Token.ofChar? : Char → Option Token
  | '[' => some .leftBracket
  | ']' => some .rightBracket
  | ':' => some .colon
  | ',' => some .comma
  | _ => none

/-- A letter or an underscore, all of ASCII. -/
def isNameStart (c : Char) : Bool := c.isAlpha || c == '_'

/-- What stands at the front of a text: a blank, a token and its length, or something that is no
token and its length in bytes. -/
inductive Front where
  | blank (rest : List Char)
  | token (t : Token) (length : Nat) (rest : List Char)
  | other (length : Nat)

/-- Reads the front of the text `c :: rest`. -/
def front (c : Char) (rest : List Char) : Front :=
  let ofNumber (negative : Bool) (signs : Nat) (chars : List Char) : Front :=
    match takeNumber negative chars with
    | (some t, length, rest) => .token t (signs + length) rest
    | (none, length, _) => .other (signs + length)
  if c = ' ' || c = '\t' || c = '\r' || c = '\n' then .blank rest
  else if isNameStart c then
    let name := c :: rest.takeWhile fun d => d.isAlphanum || d == '_'
    .token (.ident (String.ofList name)) name.length
      (rest.dropWhile fun d => d.isAlphanum || d == '_')
  else if c.isDigit then ofNumber false 0 (c :: rest)
  else if c = '-' && (rest.head?.any Char.isDigit) then ofNumber true 1 rest
  else match Token.ofChar? c with
    | some t => .token t 1 rest
    | none => .other c.utf8Size

/-- Reads the tokens of `chars`, which begin at offset `pos`. Every step takes up a character, so a
limit above their number is none. -/
def tokensFrom : Nat → Nat → List Char → Except Span (List (Token × Span))
  | 0, _, _ => .ok []
  | _, _, [] => .ok []
  | limit + 1, pos, c :: rest =>
    match front c rest with
    | .blank rest => tokensFrom limit (pos + 1) rest
    | .token t length rest => do
      let more ← tokensFrom limit (pos + length) rest
      return (t, ⟨pos, pos + length⟩) :: more
    | .other length => .error ⟨pos, pos + length⟩

/-- The tokens of a text with their byte ranges, or the range of the first text that is none. -/
def tokens (text : String) : Except Span (List (Token × Span)) :=
  let chars := text.toList
  tokensFrom (chars.length + 1) 0 chars

end Fluxion.Listing
