/-!
Doubles as exact numbers. A double is not a number, a signed infinity, or a signed whole multiple
of a power of two; every decimal text in this library is computed from that reading.
-/

namespace Fluxion.Decimal

/-- What a double stands for; a finite one is `man * 2 ^ exp` with a sign. -/
inductive Reading where
  | nan
  | infinite (negative : Bool)
  | finite (negative : Bool) (man : Nat) (exp : Int)
deriving DecidableEq, Repr

/-- The exact reading of a double. -/
def Reading.ofFloat (x : Float) : Reading :=
  let bits := x.toBits.toNat
  let negative := decide (Nat.pow 2 63 ≤ bits)
  let field : Nat := bits / Nat.pow 2 52 % Nat.pow 2 11
  let frac : Nat := bits % Nat.pow 2 52
  if field = 2047 then
    if frac = 0 then .infinite negative else .nan
  else if field = 0 then .finite negative frac (-1074)
  else .finite negative (Nat.pow 2 52 + frac) ((field : Int) - 1075)

/-- A number below zero; no zero and no NaN is one. -/
def isNegative (x : Float) : Bool :=
  match Reading.ofFloat x with
  | .nan => false
  | .infinite negative => negative
  | .finite negative man _ => negative && man != 0

/-- The double with the given sign, whose magnitude has the bits `magnitude`. -/
def ofMagnitude (negative : Bool) (magnitude : Nat) : Float :=
  Float.ofBits (UInt64.ofNat (if negative then Nat.pow 2 63 + magnitude else magnitude))

/-- The numerator's part of `base ^ exp`. -/
def powUp (base : Nat) (exp : Int) : Nat := base.pow exp.toNat

/-- The denominator's part of `base ^ exp`. -/
def powDown (base : Nat) (exp : Int) : Nat := base.pow (-exp).toNat

/-- The quotient `num / den` rounded to a whole number, a half going to the even neighbour. -/
def roundEven (num den : Nat) : Nat :=
  let quot := num / den
  let rest := 2 * (num % den)
  if rest > den || (rest == den && quot % 2 == 1) then quot + 1 else quot

end Fluxion.Decimal
