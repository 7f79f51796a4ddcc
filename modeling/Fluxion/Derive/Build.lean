import Fluxion.Lang.Fold
import Fluxion.Lang.Stmt
import Fluxion.Typing.Intrinsic

/-!
Pieces that derived code is made of.
-/

namespace Fluxion.Derive

/-- The call `len(array)`. -/
def lenOf (array : String) : Expr := .call "len" [.var array]

/-- The call `push(tape, value)`. -/
def pushTo (tape : String) (value : Expr) : Expr := .call "push" [.var tape, value]

/-- The call `pop(tape)`. -/
def popFrom (tape : String) : Expr := .call "pop" [.var tape]

/-- A loop in which `i` counts from zero to below `count`. -/
def countedLoop (i : String) (count : Expr) (body : List Stmt) : Stmt :=
  .for_ (some (.decl ⟨i, .int, some (.int 0)⟩)) (some (.less (.var i) count))
    (some ⟨.var i, .add, .int 1⟩) body

/-- A loop that copies all elements of an array. -/
def copyLoop (i target source : String) : Stmt :=
  countedLoop i (lenOf source) [.update (.index target (.var i)) .set (.index source (.var i))]

/-- The numerical derivative of `callee` along argument `k`. -/
def centralDifference (callee : String) (k : Nat) (print : Bool) (args : List Expr) : Expr :=
  .call Intrinsic.centralDifferenceName
    (.funcRef callee :: .ofNat k :: .bool print :: args)

end Fluxion.Derive
