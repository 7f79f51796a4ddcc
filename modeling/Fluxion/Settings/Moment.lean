import Fluxion.Settings.Number

/-!
Dates and times in the notation of RFC 3339. Only the form and the ranges of their parts are
looked at.
-/

namespace Fluxion.Settings

/-- A number of so many digits in a range, and what follows. -/
def takeDigits? (count lo hi : Nat) (text : List Char) : Option (Nat × List Char) :=
  let ds := text.take count
  let n := valueOf 10 ds
  if ds.length = count ∧ ds.all Char.isDigit ∧ lo ≤ n ∧ n ≤ hi then some (n, text.drop count)
  else none

/-- The text after a character, which has to come. -/
def dropChar? (c : Char) : List Char → Option (List Char)
  | [] => none
  | d :: rest => if d = c then some rest else none

/-- The days of a month. -/
def daysIn (year month : Nat) : Nat :=
  if month = 2 then
    if year % 4 = 0 ∧ (year % 100 ≠ 0 ∨ year % 400 = 0) then 29 else 28
  else if month = 4 ∨ month = 6 ∨ month = 9 ∨ month = 11 then 30
  else 31

/-- The text after a date. -/
def dropDate? (text : List Char) : Option (List Char) := do
  let (year, rest) ← takeDigits? 4 0 9999 text
  let (month, rest) ← takeDigits? 2 1 12 (← dropChar? '-' rest)
  let (_, rest) ← takeDigits? 2 1 (daysIn year month) (← dropChar? '-' rest)
  return rest

/-- The text after a fraction of a second, if there is one. -/
def dropFraction? : List Char → Option (List Char)
  | '.' :: rest =>
    if (rest.takeWhile Char.isDigit).isEmpty then none else some (rest.dropWhile Char.isDigit)
  | rest => some rest

/-- The text after a time of day. A minute may have a leap second. -/
def dropTime? (text : List Char) : Option (List Char) := do
  let (_, rest) ← takeDigits? 2 0 23 text
  let (_, rest) ← takeDigits? 2 0 59 (← dropChar? ':' rest)
  let (_, rest) ← takeDigits? 2 0 60 (← dropChar? ':' rest)
  dropFraction? rest

/-- The distance from universal time, or nothing. -/
def isOffset : List Char → Bool
  | [] => true
  | ['Z'] => true
  | ['z'] => true
  | c :: rest =>
    (c == '+' || c == '-') && ((do
      let (_, rest) ← takeDigits? 2 0 23 rest
      let (_, rest) ← takeDigits? 2 0 59 (← dropChar? ':' rest)
      return rest.isEmpty).getD false)

/-- A date. -/
def isDate (text : List Char) : Bool := dropDate? text == some []

/-- A time of day as it follows a date. -/
def isTimeAfterDate (text : List Char) : Bool := (dropTime? text).any isOffset

/-- A date with or without a time, or a time. -/
def isMoment (text : List Char) : Bool :=
  dropTime? text == some [] ||
    match dropDate? text with
    | some [] => true
    | some (c :: time) => (c == 'T' || c == 't') && isTimeAfterDate time
    | none => false

end Fluxion.Settings
