import Fluxion.Listing.Token

/-!
Lists of arguments, as they are given on the command line: numbers, truth values and arrays of
numbers. Inside an array commas are optional.
-/

namespace Fluxion.Listing

/-- One argument. -/
inductive Literal where
  | int (value : Int64)
  | float (value : Float)
  | bool (value : Bool)
  | array (values : List Float)
deriving Repr

/-- Why a list of arguments is refused. Offsets are in bytes. -/
inductive LiteralError where
  | character (offset : Nat)
  | token (t : Token) (offset : Nat)
  | unterminated
  | missingComma (found : Token) (offset : Nat)
deriving Repr

/-- The message of a refusal. -/
def LiteralError.message : LiteralError → String
  | .character offset => "unexpected character at " ++ toString offset
  | .token t offset => "unexpected " ++ t.text ++ " at " ++ toString offset
  | .unterminated => "unterminated array literal"
  | .missingComma found offset =>
    "expected ',' but found " ++ found.text ++ " at " ++ toString offset

/-- The number a literal stands for. -/
def Literal.toFloat? : Literal → Option Float
  | .int v => some v.toFloat
  | .float v => some v
  | _ => none

/-- A literal in messages. -/
def Literal.text : Literal → String
  | .int v => "Int(" ++ toString v.toInt ++ ")"
  | .float v => "Float(" ++ Decimal.render .literal v ++ ")"
  | .bool v => "Bool(" ++ (if v then "true" else "false") ++ ")"
  | .array vs => "Array([" ++ ", ".intercalate (vs.map (Decimal.render .literal)) ++ "])"

/-- What the reader of a list is inside of. -/
inductive ListState where
  | entry
  | separator
  | array (items : List Float)

/-- Reads tokens into literals; an array that is open holds `items`, last first. -/
def literalsFrom : ListState → List (Token × Span) → Except LiteralError (List Literal)
  | .entry, [] => .ok []
  | .separator, [] => .ok []
  | .array _, [] => .error .unterminated
  | .entry, (t, span) :: rest =>
    match t with
    | .int v => return .int v :: (← literalsFrom .separator rest)
    | .float v => return .float v :: (← literalsFrom .separator rest)
    | .ident "true" => return .bool true :: (← literalsFrom .separator rest)
    | .ident "false" => return .bool false :: (← literalsFrom .separator rest)
    | .leftBracket => literalsFrom (.array []) rest
    | other => .error (.token other span.start)
  | .separator, (t, span) :: rest =>
    match t with
    | .comma => literalsFrom .entry rest
    | other => .error (.missingComma other span.start)
  | .array items, (t, span) :: rest =>
    match t with
    | .rightBracket => return .array items.reverse :: (← literalsFrom .separator rest)
    | .int v => literalsFrom (.array (v.toFloat :: items)) rest
    | .float v => literalsFrom (.array (v :: items)) rest
    | .comma => literalsFrom (.array items) rest
    | other => .error (.token other span.start)

/-- Reads a list of arguments. -/
def literals (text : String) : Except LiteralError (List Literal) :=
  match tokens text with
  | .error span => .error (.character span.start)
  | .ok ts => literalsFrom .entry ts

end Fluxion.Listing
