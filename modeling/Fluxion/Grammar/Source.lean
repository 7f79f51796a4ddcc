import Fluxion.Diagnostic
import Fluxion.Grammar.Statement
import Fluxion.Text.Comments

/-!
The grammar of programs, and parsing of whole texts.

A failure's range counts characters of the text with its comments blanked. Diagnostics take these
numbers for byte offsets of the text as given, which they are when characters outside comments are
all of ASCII.
-/

namespace Fluxion.Grammar

open Fluxion.Grammar.Parser

/-- A parameter `x: type`. -/
def param (limit : Nat) : Parser Param := do
  let x ← ident
  let _ ← symbol ':'
  return ⟨x, ← ty limit⟩

/-- Name, parameters and result type of a function. -/
def head (limit : Nat) : Parser (String × List Param × Ty) := do
  let f ← ident
  let params ← between '(' ')' (items limit (param limit) (symbol ','))
  let ret ← optional (do
    padded (word "->")
    ty limit)
  return (f, params, ret.getD .void)

/-- A function with a body. -/
def bodied (limit : Nat) : Parser Func := do
  let ((f, params, ret, body), span) ← located (do
    keyword "fn"
    let (f, params, ret) ← head limit
    let body ← between '\x7b' '\x7d' (many limit (stmt limit))
    return (f, params, ret, body))
  return ⟨f, params, ret, some body, span⟩

/-- A function without a body. -/
def native (limit : Nat) : Parser Func := do
  let ((f, params, ret), span) ← located (do
    keyword "extern"
    keyword "fn"
    ended (head limit))
  return ⟨f, params, ret, none, span⟩

/-- A function, or a namespace of them; `limit` bounds the depth of nesting. -/
def item : Nat → Parser (List Func)
  | 0 => refuse
  | limit + 1 => firstOf
    [(do return [← bodied (limit + 1)]),
     (do return [← native (limit + 1)]),
     (do
      keyword "namespace"
      let ns ← ident
      let inner ← between '\x7b' '\x7d' (many (limit + 1) (item limit))
      return inner.flatten.map fun f => { f with name := ns ++ "::" ++ f.name })]

/-- A whole program. -/
def program (limit : Nat) : Parser Program := do
  let found ← padded (many limit (item limit))
  eof
  return found.flatten

/-- A whole text read by `p`, which takes a limit on nesting. -/
def parseWith {α : Type} (p : Nat → Parser α) (chars : List Char) : Except Failure α :=
  match p (chars.length + 1) (Cursor.start chars) with
  | .ok a _ _ => .ok a
  | .fail why => .error why

/-- The diagnostic for a text that does not parse. -/
def Failure.diagnostic (source : String) (f : Failure) : Diagnostic :=
  .error source "parse" "E1001" f.span f.message

/-- Parses a program. -/
def parse (source : String) : Except Failure Program :=
  parseWith program (Text.blankComments source)

/-- Parses a single expression, in which there are no comments. -/
def parseExpr (source : String) : Except Failure Expr :=
  parseWith (fun limit => do
    let e ← padded (expr limit)
    eof
    return e) source.toList

end Fluxion.Grammar
