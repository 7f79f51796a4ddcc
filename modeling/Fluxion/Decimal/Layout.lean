import Fluxion.Decimal.Shortest

/-!
Texts of doubles. All notations write the fewest digits that read back, but for `fixed`, which
rounds the exact value to a number of places.
-/

namespace Fluxion.Decimal

/-- The decisions of a notation: which decimal exponents are written without a power of ten, and
what follows the digits of a whole number. -/
structure Layout where
  positional : Int → Bool
  whole : String

/-- Source text and answers: positional from `0.0001` up to, but not including, `10 ^ 16`, and
always recognisable as a float. -/
def Layout.literal : Layout := ⟨fun e => decide (-4 ≤ e) && decide (e < 16), ".0"⟩

/-- Results for people: never a power of ten, and no point in whole numbers. -/
def Layout.plain : Layout := ⟨fun _ => true, ""⟩

/-- Configuration files: never a power of ten, always a point. -/
def Layout.setting : Layout := ⟨fun _ => true, ".0"⟩

/-- Zeros, `n` of them. -/
def zeros (n : Nat) : String := "".pushn '0' n

/-- The digits of a number, cut in two after the first `n`. -/
def splitDigits (digits : String) (n : Nat) : String × String :=
  (String.ofList (digits.toList.take n), String.ofList (digits.toList.drop n))

/-- The number `c * 10 ^ i` without a power of ten. -/
def positionalText (whole digits : String) (i : Int) : String :=
  let point := (digits.length : Int) + i
  if i ≥ 0 then digits ++ zeros i.toNat ++ whole
  else if point ≤ 0 then "0." ++ zeros (-point).toNat ++ digits
  else
    let (front, back) := splitDigits digits point.toNat
    front ++ "." ++ back

/-- The number `c * 10 ^ i` with one digit before the point and a power of ten. -/
def scientificText (digits : String) (e : Int) : String :=
  let (front, back) := splitDigits digits 1
  let power := if e < 0 then "-" ++ toString e.natAbs else toString e.natAbs
  front ++ (if back = "" then "" else "." ++ back) ++ "e" ++ power

/-- The magnitude `man * 2 ^ exp` in a notation. -/
def magnitudeText (layout : Layout) (man : Nat) (exp : Int) : String :=
  if man = 0 then "0" ++ layout.whole
  else
    let (c, i) := shortest man exp
    let digits := toString c
    let e := (digits.length : Int) + i - 1
    if layout.positional e then positionalText layout.whole digits i else scientificText digits e

/-- A double in a notation. The sign of a zero is written, that of a NaN is not. -/
def render (layout : Layout) (x : Float) : String :=
  match Reading.ofFloat x with
  | .nan => "NaN"
  | .infinite negative => if negative then "-inf" else "inf"
  | .finite negative man exp =>
    (if negative then "-" else "") ++ magnitudeText layout man exp

/-- The number `man * 2 ^ exp` with exactly `places` digits after the point, a half going to even. -/
def fixedMagnitude (places man : Nat) (exp : Int) : String :=
  let scaled := roundEven (man * powUp 2 exp * Nat.pow 10 places) (powDown 2 exp)
  let front := toString (scaled / Nat.pow 10 places)
  let back := toString (scaled % Nat.pow 10 places)
  if places = 0 then front else front ++ "." ++ zeros (places - back.length) ++ back

/-- Removes zeros at the end, then a point at the end. -/
def trimZeros (text : String) : String :=
  let kept := text.toList.reverse.dropWhile (· == '0')
  String.ofList (kept.dropWhile (· == '.')).reverse

/-- A double rounded to twelve places, without zeros that say nothing. -/
def rounded (x : Float) : String :=
  match Reading.ofFloat x with
  | .nan => "NaN"
  | .infinite negative => if negative then "-inf" else "inf"
  | .finite negative man exp =>
    trimZeros ((if negative then "-" else "") ++ fixedMagnitude 12 man exp)

end Fluxion.Decimal
