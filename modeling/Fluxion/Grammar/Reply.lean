import Fluxion.Text.Blank
import Fluxion.Text.Position

/-!
What a parser answers. A parser that succeeds may still carry the failure that kept it from going
on: when a later parser fails, the failure that got furthest is the one reported. Of failures that
got equally far, the later one wins among alternatives, and a failure wins over what came before it.
-/

namespace Fluxion.Grammar

/-- The characters left to read, and how many have been read. -/
structure Cursor where
  pos : Nat
  rest : List Char
deriving Repr

/-- Why a parser failed: how far it got, the range and character it objects to, and a message
where the reason is not just the character. -/
structure Failure where
  reached : Nat
  span : Span
  found : Option Char
  note : Option String
deriving DecidableEq, Repr

/-- The failure that got further; `a` if both got equally far. -/
def Failure.further (a b : Failure) : Failure := if a.reached < b.reached then b else a

/-- Joins what an earlier and a later success carry along. -/
def joinAlt : Option Failure → Option Failure → Option Failure
  | none, later => later
  | earlier, none => earlier
  | some earlier, some later => some (later.further earlier)

/-- Success with a value, the cursor after it and the failure that ended it; or failure. -/
inductive Reply (α : Type) where
  | ok (value : α) (next : Cursor) (alt : Option Failure)
  | fail (why : Failure)

/-- A parser reads from a cursor. -/
def Parser (α : Type) := Cursor → Reply α

namespace Cursor

/-- A cursor at the beginning. -/
def start (chars : List Char) : Cursor := ⟨0, chars⟩

/-- The cursor after blanks. -/
def skipBlanks (c : Cursor) : Cursor :=
  ⟨c.pos + (c.rest.takeWhile Text.isBlank).length, c.rest.dropWhile Text.isBlank⟩

/-- The failure that objects to the next character, or to the end of the text. -/
def objection (c : Cursor) : Failure :=
  match c.rest with
  | [] => ⟨c.pos, ⟨c.pos, c.pos⟩, none, none⟩
  | ch :: _ => ⟨c.pos, ⟨c.pos, c.pos + 1⟩, some ch, none⟩

/-- The range from `c` to the later cursor `d`; with nothing in between, that of the next
character. -/
def spanTo (c d : Cursor) : Span :=
  if c.pos < d.pos then ⟨c.pos, d.pos⟩ else c.objection.span

end Cursor

/-- The message of a failure. -/
def Failure.message (f : Failure) : String :=
  match f.note, f.found with
  | some note, _ => note
  | none, some c => "unexpected '" ++ c.toString ++ "'"
  | none, none => "unexpected end of input"

end Fluxion.Grammar
