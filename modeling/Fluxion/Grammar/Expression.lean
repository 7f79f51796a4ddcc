import Fluxion.Grammar.Lexeme

/-!
The grammar of expressions. Six levels of binary operators, all associating to the left, stand
above the unary operators; an operator of arithmetic is none when `=` follows.
-/

namespace Fluxion.Grammar

open Fluxion.Grammar.Parser

/-- A given text that stands for `a`. -/
def sign {α : Type} (text : String) (a : α) : Parser α := do
  word text
  return a

/-- Operands joined by operators of one level. -/
def level (limit : Nat) (operand : Parser Expr) (ops : Parser BinOp) : Parser Expr := do
  let first ← operand
  let rest ← many limit (do
    let op ← padded ops
    let rhs ← operand
    return (op, rhs))
  return rest.foldl (fun lhs (op, rhs) => .binary op lhs rhs) first

/-- An operand without operators; `inner` reads what stands in brackets. -/
def atom (limit : Nat) (inner : Parser Expr) : Parser Expr :=
  firstOf
    [number,
     (do keyword "true"; return .bool true),
     (do keyword "false"; return .bool false),
     (do
      let f ← path limit
      let args ← between '(' ')' (items limit inner (symbol ','))
      return .call f args),
     (do
      let x ← ident
      let i ← between '[' ']' inner
      return .index x i),
     (do
      let _ ← symbol '&'
      return .funcRef (← path limit)),
     (do return .var (← ident)),
     between '(' ')' inner]

/-- An operand with the unary operators before it. -/
def unary (limit : Nat) (inner : Parser Expr) : Parser Expr := do
  let ops ← many limit (padded (firstOf
    [sign "-" .neg,
     (do
      word "!"
      ahead '='
      return .not)]))
  let operand ← atom limit inner
  return ops.foldr .unary operand

/-- An operator of arithmetic, before a character other than `=`. -/
def arithmetic (ops : List (Parser BinOp)) : Parser BinOp := do
  let op ← firstOf ops
  ahead '='
  return op

/-- All levels of binary operators, the loosest outermost. -/
def levels (limit : Nat) (inner : Parser Expr) : Parser Expr :=
  let product := level limit (unary limit inner)
    (arithmetic [sign "*" .mul, sign "/" .div, sign "%" .rem])
  let sum := level limit product (arithmetic [sign "+" .add, sign "-" .sub])
  let relation := level limit sum
    (firstOf [sign "<=" .le, sign ">=" .ge, sign "<" .lt, sign ">" .gt])
  let equality := level limit relation (firstOf [sign "==" .eq, sign "!=" .ne])
  let conjunction := level limit equality (sign "&&" .and)
  level limit conjunction (sign "||" .or)

/-- An expression; `limit` bounds the depth of nesting and the length of lists. -/
def expr : Nat → Parser Expr
  | 0 => refuse
  | limit + 1 => levels (limit + 1) (expr limit)

end Fluxion.Grammar
