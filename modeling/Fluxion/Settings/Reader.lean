import Fluxion.Settings.Moment
import Fluxion.Settings.Quoted

/-!
Keys and values of a settings file. Arrays may go over several lines, with comments between their
items; tables in braces may not. How deep they nest bounds the recursion.
-/

namespace Fluxion.Settings

/-- A character of a key without quotes. -/
def isKeyChar (c : Char) : Bool := c.isAlphanum || c == '_' || c == '-'

/-- One part of a key, and what follows. -/
def takePart? (text : List Char) : Option (String × List Char) :=
  match takeQuoted? text with
  | some (key, rest) => some (String.ofList key, rest)
  | none =>
    let key := text.takeWhile isKeyChar
    if key.isEmpty then none else some (String.ofList key, text.dropWhile isKeyChar)

/-- A key with at most so many parts, and what follows. -/
def takePath? : Nat → List Char → Option (List String × List Char)
  | 0, _ => none
  | limit + 1, text => do
    let (part, rest) ← takePart? (text.dropWhile isGap)
    match rest.dropWhile isGap with
    | '.' :: rest => do
      let (path, rest) ← takePath? limit rest
      return (part :: path, rest)
    | rest => return ([part], rest)

/-- How deep arrays and tables may nest, and how many parts a key may have. -/
def maxNesting : Nat := 79

/-- A key with points between its parts, and what follows. -/
def takeKey? (text : List Char) : Option (List String × List Char) :=
  takePath? maxNesting text

/-- The text after blanks, ends of lines, and comments, which end with their line. -/
def skipTrivia (inComment : Bool) : List Char → Option (List Char)
  | [] => if inComment then none else some []
  | '\r' :: '\n' :: rest => skipTrivia false rest
  | c :: rest =>
    if c == '\n' then skipTrivia false rest
    else if inComment then if isPlain c then skipTrivia true rest else none
    else if c == '#' then skipTrivia true rest
    else if isGap c then skipTrivia false rest
    else some (c :: rest)

/-- Reads a value, and gives what follows. -/
abbrev ValueReader := List Char → Option (Value × List Char)

/-- At most so many items of an array, up to its bracket. A comma may follow the last. -/
def takeItems? (item : ValueReader) : Nat → List Char → Option (List Value × List Char)
  | 0, _ => none
  | limit + 1, text => do
    match ← skipTrivia false text with
    | ']' :: rest => return ([], rest)
    | text => do
      let (v, rest) ← item text
      match ← skipTrivia false rest with
      | ',' :: rest => do
        let (vs, rest) ← takeItems? item limit rest
        return (v :: vs, rest)
      | ']' :: rest => return ([v], rest)
      | _ => none

/-- A key with its value, and what follows. -/
def takeEntry? (item : ValueReader) (text : List Char) :
    Option ((List String × Value) × List Char) := do
  let (path, rest) ← takeKey? text
  let (v, rest) ← item ((← dropChar? '=' rest).dropWhile isGap)
  return ((path, v), rest)

/-- At most so many entries of a table in braces, up to its brace. -/
def takeEntries? (item : ValueReader) :
    Nat → List Char → Option (List (List String × Value) × List Char)
  | 0, _ => none
  | limit + 1, text => do
    let (entry, rest) ← takeEntry? item text
    match rest.dropWhile isGap with
    | ',' :: rest => do
      let (entries, rest) ← takeEntries? item limit rest
      return (entry :: entries, rest)
    | '\x7d' :: rest => return ([entry], rest)
    | _ => none

/-- A table after its opening brace, and what follows. -/
def takeTable? (item : ValueReader) (text : List Char) : Option (Value × List Char) :=
  match text.dropWhile isGap with
  | '\x7d' :: rest => some (.table false [], rest)
  | text => do
    let (entries, rest) ← takeEntries? item (text.length + 1) text
    return (.table false (← Value.insertAll? [] entries), rest)

/-- A character of a value that is neither quoted nor nested. -/
def isScalarChar (c : Char) : Bool :=
  c.isAlphanum || c == '+' || c == '-' || c == '_' || c == '.' || c == ':'

/-- A truth value, a number, a date or a time. -/
def scalar? (text : List Char) : Option Value :=
  match String.ofList text with
  | "true" => some (.bool true)
  | "false" => some (.bool false)
  | s => if isMoment text then some (.moment s) else number? text

/-- A time that follows a date after a blank, and what follows it. -/
def takeTime? : List Char → Option (List Char × List Char)
  | ' ' :: rest =>
    let time := rest.takeWhile isScalarChar
    if isTimeAfterDate time then some (time, rest.dropWhile isScalarChar) else none
  | _ => none

/-- A value that is neither quoted nor nested, and what follows. -/
def takeScalar? (text : List Char) : Option (Value × List Char) := do
  let own := text.takeWhile isScalarChar
  let rest := text.dropWhile isScalarChar
  match if isDate own then takeTime? rest else none with
  | some (time, rest) => return (.moment (String.ofList (own ++ ' ' :: time)), rest)
  | none => return (← scalar? own, rest)

/-- A value that is not nested, and what follows. -/
def takeFlat? (text : List Char) : Option (Value × List Char) :=
  match takeText? text with
  | some (s, rest) => some (.text (String.ofList s), rest)
  | none => takeScalar? text

/-- A value in which arrays and tables nest so deep at most, and what follows. -/
def takeNested? : Nat → ValueReader
  | 0, text => takeFlat? text
  | depth + 1, text =>
    match text with
    | '[' :: rest => do
      let (items, rest) ← takeItems? (takeNested? depth) (rest.length + 1) rest
      return (.array items, rest)
    | '\x7b' :: rest => takeTable? (takeNested? depth) rest
    | text => takeFlat? text

/-- A value, and what follows. -/
def takeValue? : ValueReader := takeNested? maxNesting

end Fluxion.Settings
