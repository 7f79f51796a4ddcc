import Fluxion.Settings.Number

/-!
Quoted texts of a settings file. Between double quotes a backslash escapes, between single quotes
all characters stand for themselves, and three quotes enclose a text of several lines.
-/

namespace Fluxion.Settings

/-- Blanks inside a line. -/
def isGap (c : Char) : Bool := c == ' ' || c == '\t'

/-- A character that may stand in a text or comment. -/
def isPlain (c : Char) : Bool := c == '\t' || (' ' ≤ c && c != '\x7f')

/-- The character whose code point so many digits write, and what follows. -/
def takeCode? (count : Nat) (text : List Char) : Option (Char × List Char) :=
  let ds := text.take count
  let n := valueOf 16 ds
  if ds.length = count ∧ ds.all (isDigitOf 16) ∧ n.isValidChar then
    some (Char.ofNat n, text.drop count)
  else none

/-- The character that an escape stands for, and what follows. -/
def takeEscape? : List Char → Option (Char × List Char)
  | 'b' :: rest => some ('\x08', rest)
  | 't' :: rest => some ('\t', rest)
  | 'n' :: rest => some ('\n', rest)
  | 'f' :: rest => some ('\x0c', rest)
  | 'r' :: rest => some ('\r', rest)
  | '"' :: rest => some ('"', rest)
  | '\\' :: rest => some ('\\', rest)
  | 'u' :: rest => takeCode? 4 rest
  | 'U' :: rest => takeCode? 8 rest
  | _ => none

/-- A text up to a double quote, of at most so many characters. -/
def takeEscaped? : Nat → List Char → Option (List Char × List Char)
  | 0, _ => none
  | limit + 1, text =>
    match text with
    | [] => none
    | '"' :: rest => some ([], rest)
    | '\\' :: rest => do
      let (c, rest) ← takeEscape? rest
      let (s, rest) ← takeEscaped? limit rest
      return (c :: s, rest)
    | c :: rest =>
      if isPlain c then (takeEscaped? limit rest).map fun (s, rest) => (c :: s, rest) else none

/-- A text up to a single quote. -/
def takeVerbatim? : List Char → Option (List Char × List Char)
  | [] => none
  | '\'' :: rest => some ([], rest)
  | c :: rest =>
    if isPlain c then (takeVerbatim? rest).map fun (s, rest) => (c :: s, rest) else none

/-- The text after the end of a line, which has to come. -/
def dropNewline? : List Char → Option (List Char)
  | '\n' :: rest => some rest
  | '\r' :: '\n' :: rest => some rest
  | _ => none

/-- The text after blanks and ends of lines. -/
def skipBlanks : List Char → List Char
  | [] => []
  | '\r' :: '\n' :: rest => skipBlanks rest
  | c :: rest => if isGap c || c == '\n' then skipBlanks rest else c :: rest

/-- The text after an escaped end of line and the blanks that follow it. -/
def dropFold? (text : List Char) : Option (List Char) :=
  (dropNewline? (text.dropWhile isGap)).map skipBlanks

/-- A text of several lines up to three quotes, of at most so many characters. Two more quotes may
stand before the three. -/
def takeLines? (quote : Char) (escapes : Bool) : Nat → List Char → Option (List Char × List Char)
  | 0, _ => none
  | limit + 1, text =>
    let quotes := text.takeWhile (· == quote)
    if 3 ≤ quotes.length then
      if quotes.length ≤ 5 then some (quotes.drop 3, text.drop quotes.length) else none
    else
      match text with
      | [] => none
      | '\r' :: '\n' :: rest =>
        (takeLines? quote escapes limit rest).map fun (s, rest) => ('\n' :: s, rest)
      | c :: rest =>
        if escapes && c == '\\' then
          match dropFold? rest with
          | some rest => takeLines? quote escapes limit rest
          | none => do
            let (c, rest) ← takeEscape? rest
            let (s, rest) ← takeLines? quote escapes limit rest
            return (c :: s, rest)
        else if isPlain c || c == '\n' then
          (takeLines? quote escapes limit rest).map fun (s, rest) => (c :: s, rest)
        else none

/-- A text of several lines after its opening quotes. An end of line right after them is no part
of it. -/
def takeLong? (quote : Char) (escapes : Bool) (text : List Char) :
    Option (List Char × List Char) :=
  takeLines? quote escapes (text.length + 1) ((dropNewline? text).getD text)

/-- A quoted text on one line, and what follows. -/
def takeQuoted? : List Char → Option (List Char × List Char)
  | '"' :: rest => takeEscaped? (rest.length + 1) rest
  | '\'' :: rest => takeVerbatim? rest
  | _ => none

/-- A quoted text, and what follows. -/
def takeText? : List Char → Option (List Char × List Char)
  | '"' :: '"' :: '"' :: rest => takeLong? '"' true rest
  | '\'' :: '\'' :: '\'' :: rest => takeLong? '\'' false rest
  | text => takeQuoted? text

end Fluxion.Settings
