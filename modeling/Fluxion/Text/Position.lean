/-!
Positions in a text: ranges of offsets, and the line and column of a byte offset.
-/

namespace Fluxion

/-- A range of offsets, from `start` up to `stop`. -/
structure Span where
  start : Nat
  stop : Nat
deriving DecidableEq, Repr, Inhabited

namespace Text

/-- A place people can find: line and column, both counted from one, the column in characters. -/
structure Location where
  line : Nat
  col : Nat
deriving DecidableEq, Repr

/-- The location after one more character. -/
def Location.advance (loc : Location) (c : Char) : Location :=
  if c = '\n' then ⟨loc.line + 1, 1⟩ else ⟨loc.line, loc.col + 1⟩

/-- The location reached by passing every character that begins before byte `offset`, where the
first of `chars` begins at byte `at`. -/
def locateFrom (loc : Location) (begins offset : Nat) : List Char → Location
  | [] => loc
  | c :: rest =>
    if begins ≥ offset then loc
    else locateFrom (loc.advance c) (begins + c.utf8Size) offset rest

/-- Line and column of a byte offset; an offset past the end is the end. -/
def locate (text : String) (offset : Nat) : Location :=
  locateFrom ⟨1, 1⟩ 0 offset text.toList

/-- Bytes a list of characters takes up. -/
def byteLength (chars : List Char) : Nat := (chars.map Char.utf8Size).foldr (· + ·) 0

/-- Cuts a text at a byte offset, which must not lie inside a character. -/
def cutAt? : List Char → Nat → Option (List Char × List Char)
  | rest, 0 => some ([], rest)
  | [], _ => none
  | c :: rest, n =>
    if c.utf8Size ≤ n then (cutAt? rest (n - c.utf8Size)).map fun (a, b) => (c :: a, b) else none

/-- The line around a byte offset with the offset at which it begins. An offset past the end
stands for the end; none inside a character is answered. -/
def lineAround? (text : String) (offset : Nat) : Option (String × Nat) := do
  let chars := text.toList
  let (before, after) ← cutAt? chars (min offset (byteLength chars))
  let head := (before.reverse.takeWhile (· != '\n')).reverse
  let tail := after.takeWhile (· != '\n')
  return (String.ofList (head ++ tail), byteLength before - byteLength head)

end Text

end Fluxion
