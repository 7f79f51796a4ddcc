import Fluxion.Grammar.Expression

/-!
The grammar of statements. What begins like an array declaration is read as one if it can be, as
`let a: [f64; n];` is also the beginning of a declaration with an array type.
-/

namespace Fluxion.Grammar

open Fluxion.Grammar.Parser

/-- A location `x` or `x[i]`. -/
def place (limit : Nat) : Parser Place := do
  let x ← ident
  let i ← optional (between '[' ']' (expr limit))
  return i.elim (.var x) (.index x)

/-- The sign of an assignment; `=` before another character than `=`. -/
def assignOp : Parser AssignOp :=
  padded (firstOf
    [sign "+=" .add, sign "-=" .sub, sign "*=" .mul, sign "/=" .div,
     (do
      word "="
      ahead '='
      return .set)])

/-- An assignment without the final `;`. -/
def assignment (limit : Nat) : Parser Assignment := do
  let place ← place limit
  let op ← assignOp
  let value ← expr limit
  return ⟨place, op, value⟩

/-- The beginning `let x:` of a declaration. -/
def letHead : Parser String := do
  keyword "let"
  let x ← ident
  let _ ← symbol ':'
  return x

/-- A declaration without the final `;`. -/
def localDecl (limit : Nat) : Parser Local := do
  let x ← letHead
  let t ← ty limit
  let init ← optional (do
    let _ ← symbol '='
    expr limit)
  return ⟨x, t, init⟩

/-- An array declaration without the final `;`. -/
def arrayDecl (limit : Nat) : Parser Stmt := do
  let x ← letHead
  let (elem, len) ← between '[' ']' (do
    let elem ← ty limit
    let _ ← symbol ';'
    let len ← expr limit
    return (elem, len))
  return .arrayDecl x elem len

/-- What `p` reads, with a `;` after it. -/
def ended {α : Type} (p : Parser α) : Parser α := do
  let a ← p
  let _ ← symbol ';'
  return a

/-- The condition of an `if` or a `while`. -/
def condition (limit : Nat) : Parser Expr := between '(' ')' (expr limit)

/-- An `if` with all its branches, an `if` after `else` being a branch of one statement. The first
number bounds how many are chained. -/
def ifChain (limit : Nat) (block : Parser (List Stmt)) : Nat → Parser Stmt
  | 0 => refuse
  | more + 1 => do
    keyword "if"
    let test ← condition limit
    let yes ← block
    let no ← optional (do
      keyword "else"
      firstOf [block, (do return [← ifChain limit block more])])
    return .cond test yes (no.getD [])

/-- The header of a `for`. -/
def loopHeader (limit : Nat) : Parser (Option LoopInit × Option Expr × Option Assignment) :=
  between '(' ')' (do
    let init ← ended (optional (firstOf
      [(do return .decl (← localDecl limit)), (do return .assign (← assignment limit))]))
    let test ← ended (optional (expr limit))
    let step ← optional (assignment limit)
    return (init, test, step))

/-- A statement whose blocks `block` reads. -/
def stmtWith (limit : Nat) (block : Parser (List Stmt)) : Parser Stmt :=
  firstOf
    [ended (arrayDecl limit),
     (do return .decl (← ended (localDecl limit))),
     ifChain limit block limit,
     (do
      keyword "for"
      let (init, test, step) ← loopHeader limit
      return .for_ init test step (← block)),
     (do
      keyword "while"
      let test ← condition limit
      return .while_ test (← block)),
     (do
      keyword "return"
      return .ret (← ended (optional (expr limit)))),
     (do return .block (← block)),
     (do return .assign (← ended (assignment limit))),
     (do return .expr (← ended (expr limit)))]

/-- A statement; `limit` bounds the depth of nesting and the length of lists. -/
def stmt : Nat → Parser Stmt
  | 0 => refuse
  | limit + 1 =>
    stmtWith (limit + 1) (between '\x7b' '\x7d' (many (limit + 1) (stmt limit)))

end Fluxion.Grammar
