import Fluxion.Grammar.Reply

/-!
Parser combinators. Those that repeat take a limit on the number of rounds; a limit above the
number of characters left is none, as each round reads at least one.
-/

namespace Fluxion.Grammar.Parser

variable {α β : Type}

/-- Reads nothing. -/
def give (a : α) : Parser α := fun c => .ok a c none

/-- Reads `p`, then what `f` makes of its value. -/
def andThen (p : Parser α) (f : α → Parser β) : Parser β := fun c =>
  match p c with
  | .fail why => .fail why
  | .ok a c' alt =>
    match f a c' with
    | .fail why => .fail (alt.elim why why.further)
    | .ok b c'' alt' => .ok b c'' (joinAlt alt alt')

instance : Monad Parser where
  pure := give
  bind := andThen

/-- Fails at the next character. -/
def refuse : Parser α := fun c => .fail c.objection

/-- One character that `p` holds of. -/
def satisfy (p : Char → Bool) : Parser Char := fun c =>
  match c.rest with
  | ch :: rest => if p ch then .ok ch ⟨c.pos + 1, rest⟩ none else .fail c.objection
  | [] => .fail c.objection

/-- One given character. -/
def char (ch : Char) : Parser Char := satisfy (· == ch)

/-- The given characters one after the other. -/
def chars : List Char → Parser Unit
  | [] => give ()
  | ch :: rest => do
    let _ ← char ch
    chars rest

/-- A given text. -/
def word (text : String) : Parser Unit := chars text.toList

/-- All characters up to the first that `p` does not hold of. -/
def span (p : Char → Bool) : Parser (List Char) := fun c =>
  let taken := c.rest.takeWhile p
  let next : Cursor := ⟨c.pos + taken.length, c.rest.dropWhile p⟩
  .ok taken next (some next.objection)

/-- The end of the text. -/
def eof : Parser Unit := fun c =>
  match c.rest with
  | [] => .ok () c none
  | _ :: _ => .fail c.objection

/-- Reads nothing, before a character other than `ch`; fails at the end of the text. -/
def ahead (ch : Char) : Parser Unit := fun c =>
  match c.rest with
  | next :: _ => if next == ch then .fail c.objection else .ok () c none
  | [] => .fail c.objection

/-- Blanks around `p` are skipped. -/
def padded (p : Parser α) : Parser α := fun c =>
  match p c.skipBlanks with
  | .ok a c' alt => .ok a c'.skipBlanks alt
  | .fail why => .fail why

/-- One given character with blanks around it. -/
def symbol (ch : Char) : Parser Char := padded (char ch)

/-- Runs `p`, or else `q`; `q` carries along why `p` failed. -/
def orElse (p q : Parser α) : Parser α := fun c =>
  match p c with
  | .ok a c' alt => .ok a c' alt
  | .fail why =>
    match q c with
    | .ok a c' alt => .ok a c' (joinAlt alt (some why))
    | .fail why' => .fail (why.further why')

/-- The first parser that succeeds, after others have failed with `why`. -/
def firstAfter (why : Failure) : List (Parser α) → Parser α
  | [], _ => .fail why
  | p :: ps, c =>
    match p c with
    | .ok a c' alt => .ok a c' alt
    | .fail why' => firstAfter (why'.further why) ps c

/-- The first parser that succeeds. It carries along nothing of those before it. -/
def firstOf : List (Parser α) → Parser α
  | [] => refuse
  | p :: ps => fun c =>
    match p c with
    | .ok a c' alt => .ok a c' alt
    | .fail why => firstAfter why ps c

/-- Runs `p` if it succeeds. -/
def optional (p : Parser α) : Parser (Option α) := fun c =>
  match p c with
  | .ok a c' alt => .ok (some a) c' alt
  | .fail why => .ok none c (some why)

/-- More of `p` after the values `acc`, last first. -/
def manyMore (p : Parser α) : Nat → List α → Option Failure → Parser (List α)
  | 0, acc, alt, c => .ok acc.reverse c alt
  | limit + 1, acc, alt, c =>
    match p c with
    | .ok a c' alt' => manyMore p limit (a :: acc) (joinAlt alt alt') c'
    | .fail why => .ok acc.reverse c (joinAlt alt (some why))

/-- Runs `p` as often as it succeeds. -/
def many (limit : Nat) (p : Parser α) : Parser (List α) := manyMore p limit [] none

/-- The end of a list whose last item ends at `c` and that `why` keeps from going on; a separator
may follow. -/
def closeList (sep : Parser β) (acc : List α) (alt : Option Failure) (why : Failure) :
    Parser (List α) := fun c =>
  match sep c with
  | .ok _ c' alt' => .ok acc.reverse c' (joinAlt (joinAlt alt alt') (some why))
  | .fail why' => .ok acc.reverse c (joinAlt (joinAlt alt (some why')) (some why))

/-- More items, each after a separator. -/
def itemsMore (item : Parser α) (sep : Parser β) :
    Nat → List α → Option Failure → Parser (List α)
  | 0, acc, alt, c => .ok acc.reverse c alt
  | limit + 1, acc, alt, c =>
    match sep c with
    | .fail why => closeList sep acc alt why c
    | .ok _ c' alt' =>
      let alt := joinAlt alt alt'
      match item c' with
      | .fail why => closeList sep acc alt why c
      | .ok a c'' alt'' => itemsMore item sep limit (a :: acc) (joinAlt alt alt'') c''

/-- Items with separators between them and perhaps one after the last. -/
def items (limit : Nat) (item : Parser α) (sep : Parser β) : Parser (List α) := fun c =>
  match item c with
  | .fail why => .ok [] c (some why)
  | .ok a c' alt => itemsMore item sep limit [a] alt c'

/-- Runs `p` between two symbols. -/
def between (left right : Char) (p : Parser α) : Parser α := do
  let _ ← symbol left
  let a ← p
  let _ ← symbol right
  return a

/-- Turns the value of `p` into another one. A refusal is a failure of the whole range read, with
the refusal's message, and forgets what `p` carries along. -/
def checked (p : Parser α) (f : α → Except (Option String) β) : Parser β := fun c =>
  match p c with
  | .fail why => .fail why
  | .ok a c' alt =>
    match f a with
    | .ok b => .ok b c' alt
    | .error note => .fail ⟨c'.pos, c.spanTo c', none, note⟩

/-- The value of `p` with the range it was read from. -/
def located (p : Parser α) : Parser (α × Span) := fun c =>
  match p c with
  | .fail why => .fail why
  | .ok a c' alt => .ok (a, c.spanTo c') c' alt

end Fluxion.Grammar.Parser
