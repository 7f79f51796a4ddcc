import Fluxion.Decimal.Layout
import Fluxion.Lang.Func

/-!
Programs as source text. Parentheses stand only where the grammar needs them, blocks are indented
by four blanks, and a function in namespaces is printed inside a `namespace` block for each.
-/

namespace Fluxion

/-- How tightly a unary operator binds; tighter than any binary one. -/
def unaryPrecedence : Nat := 7

/-- The text, in parentheses when `needed`. -/
def parenthesized (needed : Bool) (text : String) : String :=
  if needed then "(" ++ text ++ ")" else text

mutual

/-- An expression as text, for a position that asks for at least the precedence `least`. -/
def Expr.textAt (least : Nat) : Expr → String
  | .float v => parenthesized (Decimal.isNegative v) (Decimal.render .literal v)
  | .int v => parenthesized (decide (v < 0)) (toString v.toInt)
  | .bool v => if v then "true" else "false"
  | .var x => x
  | .funcRef f => "&" ++ f
  | .index x i => x ++ "[" ++ i.textAt 0 ++ "]"
  | .call f args => f ++ "(" ++ ", ".intercalate (textsOf args) ++ ")"
  | .unary op e => parenthesized (unaryPrecedence < least) (op.symbol ++ e.textAt unaryPrecedence)
  | .binary op l r =>
    parenthesized (op.precedence < least)
      (l.textAt op.precedence ++ " " ++ op.symbol ++ " " ++ r.textAt (op.precedence + 1))

/-- The texts of a list of arguments. -/
def textsOf : List Expr → List String
  | [] => []
  | e :: es => e.textAt 0 :: textsOf es

end

theorem Expr.textAt_funcRef (f : String) (least : Nat) : (funcRef f).textAt least = "&" ++ f := by
  rw [textAt]

/-- An expression as text. -/
def Expr.text (e : Expr) : String := e.textAt 0

/-- A storage location as text. -/
def Place.text : Place → String
  | .var x => x
  | .index x i => x ++ "[" ++ i.text ++ "]"

/-- A declaration without the final `;`. -/
def Local.text (d : Local) : String :=
  match d.init with
  | some e => "let " ++ d.name ++ ": " ++ d.ty.text ++ " = " ++ e.text
  | none => "let " ++ d.name ++ ": " ++ d.ty.text

/-- An assignment without the final `;`. -/
def Assignment.text (a : Assignment) : String :=
  a.place.text ++ " " ++ a.op.symbol ++ " " ++ a.value.text

/-- The first part of a loop header. -/
def LoopInit.text : LoopInit → String
  | .decl d => d.text
  | .assign a => a.text

/-- The blanks before a line at a depth of nesting. -/
def indentation (depth : Nat) : String := "".pushn ' ' (4 * depth)

/-- A loop header with the word that begins it. -/
def headerText (init : Option LoopInit) (test : Option Expr) (step : Option Assignment) : String :=
  "for (" ++ (init.map LoopInit.text).getD "" ++ "; " ++ (test.map Expr.text).getD "" ++ "; "
    ++ (step.map Assignment.text).getD "" ++ ") "

/-- A block in braces around lines of text. -/
def braces (depth : Nat) (lines : String) : String :=
  "\x7b\n" ++ lines ++ indentation depth ++ "\x7d"

mutual

/-- A statement as text at a depth, without the blanks before it and the newline after it. -/
def Stmt.textAt (depth : Nat) : Stmt → String
  | .decl d => d.text ++ ";"
  | .arrayDecl x elem len => "let " ++ x ++ ": [" ++ elem.text ++ "; " ++ len.text ++ "];"
  | .assign a => a.text ++ ";"
  | .cond test yes no =>
    "if (" ++ test.text ++ ") " ++ braces depth (linesText (depth + 1) yes) ++ elseText depth no
  | .for_ init test step body =>
    headerText init test step ++ braces depth (linesText (depth + 1) body)
  | .while_ test body => "while (" ++ test.text ++ ") " ++ braces depth (linesText (depth + 1) body)
  | .ret none => "return;"
  | .ret (some e) => "return " ++ e.text ++ ";"
  | .expr e => e.text ++ ";"
  | .block body => braces depth (linesText (depth + 1) body)

/-- What follows the first branch; a lone `if` is chained without a block of its own. -/
def elseText (depth : Nat) : List Stmt → String
  | [] => ""
  | [.cond test yes no] =>
    " else if (" ++ test.text ++ ") " ++ braces depth (linesText (depth + 1) yes)
      ++ elseText depth no
  | s :: rest =>
    " else " ++ braces depth
      (indentation (depth + 1) ++ s.textAt (depth + 1) ++ "\n" ++ linesText (depth + 1) rest)

/-- Statements on lines of their own. -/
def linesText (depth : Nat) : List Stmt → String
  | [] => ""
  | s :: rest => indentation depth ++ s.textAt depth ++ "\n" ++ linesText depth rest

end

theorem Stmt.textAt_expr (e : Expr) (depth : Nat) : (expr e).textAt depth = e.text ++ ";" := by
  rw [textAt]

/-- What `inner` gives at the depth reached inside a `namespace` block for each name. -/
def inNamespaces (inner : Nat → String) (depth : Nat) : List String → String
  | [] => inner depth
  | ns :: rest =>
    indentation depth ++ "namespace " ++ ns ++ " \x7b\n" ++ inNamespaces inner (depth + 1) rest
      ++ indentation depth ++ "\x7d\n"

/-- A function called `name` as text at a depth. -/
def Func.textAt (f : Func) (name : String) (depth : Nat) : String :=
  let head := "fn " ++ name ++ "(" ++ ", ".intercalate (f.params.map Param.text) ++ ")"
    ++ (if f.ret = .void then "" else " -> " ++ f.ret.text)
  match f.body with
  | none => indentation depth ++ "extern " ++ head ++ ";\n"
  | some body =>
    indentation depth ++ head ++ " " ++ braces depth (linesText (depth + 1) body) ++ "\n"

/-- A function as text. -/
def Func.text (f : Func) : String :=
  inNamespaces (f.textAt f.baseName) 0 (nameParts f.name).dropLast

/-- A program as text, with an empty line between functions. -/
def Program.text (p : Program) : String := "\n".intercalate (p.map Func.text)

end Fluxion
