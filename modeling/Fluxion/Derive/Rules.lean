import Fluxion.Lang.Fold

/-!
The rules of differentiation for arithmetic.
-/

namespace Fluxion.Derive

/-- The tangent of `l op r`, given those of its operands. -/
def tangentOf? (op : BinOp) (l dl r dr : Expr) : Option Expr :=
  match op with
  | .add => some (dl.plus dr)
  | .sub => some (dl.minus dr)
  | .mul => some ((dl.times r).plus (l.times dr))
  | .div => some (((dl.times r).minus (l.times dr)).dividedBy (r.times r))
  | _ => none

/-- What the operands of `l op r` receive of the adjoint `seed` of the whole. -/
def seedsOf? (op : BinOp) (l r seed : Expr) : Option (Expr × Expr) :=
  match op with
  | .add => some (seed, seed)
  | .sub => some (seed, seed.negate)
  | .mul => some (seed.times r, l.times seed)
  | .div => some (seed.dividedBy r, ((seed.times l).dividedBy (r.times r)).negate)
  | _ => none

end Fluxion.Derive
