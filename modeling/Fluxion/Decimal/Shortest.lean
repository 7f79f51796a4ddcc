import Fluxion.Decimal.Binary

/-!
The fewest decimal digits that read back to a given double, and of those the nearest.

A positive double `man * 2 ^ exp` is what every real in a certain interval rounds to. Grids of
powers of ten are tried from coarse to fine; the first with a point in that interval wins.
-/

namespace Fluxion.Decimal

/-- The point `c * 10 ^ i` of a decimal grid that stands for `man * 2 ^ exp`, if the grid has one.
The interval's ends belong to it when `man` is even, and a tie goes to the larger point. -/
def gridPoint? (man : Nat) (exp i : Int) : Option Nat :=
  let ten := powUp 10 i * powDown 2 (exp - 2)
  let unit := powUp 2 (exp - 2) * powDown 10 i
  let value := 4 * man * unit
  let lowest := (4 * man - (if man = Nat.pow 2 52 ∧ exp > -1074 then 1 else 2)) * unit
  let highest := (4 * man + 2) * unit
  let low := value / ten
  let inside (c : Nat) : Bool :=
    if man % 2 = 0 then lowest ≤ c * ten && c * ten ≤ highest
    else lowest < c * ten && c * ten < highest
  match inside low, inside (low + 1) with
  | true, true => some (if value - low * ten < (low + 1) * ten - value then low else low + 1)
  | true, false => some low
  | false, true => some (low + 1)
  | false, false => none

/-- Walks the grids downwards from `10 ^ i`. -/
def searchGrids (man : Nat) (exp : Int) : Nat → Int → Nat × Int
  | 0, i => (4 * man, i)
  | steps + 1, i =>
    match gridPoint? man exp i with
    | some c => (c, i)
    | none => searchGrids man exp steps (i - 1)

/-- An exponent of ten above the value, so that the search starts too coarse. -/
def startingGrid (man : Nat) (exp : Int) : Int :=
  ((exp + man.log2 + 1) * 30103).fdiv 100000 + 1

/-- Digits and exponent: `man * 2 ^ exp` is written `c * 10 ^ i`. Twenty grids are enough, as
seventeen digits tell any two doubles apart. -/
def shortest (man : Nat) (exp : Int) : Nat × Int :=
  searchGrids man exp 22 (startingGrid man exp)

end Fluxion.Decimal
