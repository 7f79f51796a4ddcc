/-!
Calls that the language itself gives a meaning to.
-/

namespace Fluxion

/-- A call that no function of the program answers. -/
inductive Intrinsic where
  | len
  | push
  | pop
  | centralDifference
deriving DecidableEq, Repr

namespace Intrinsic

/-- The name under which numerical differentiation is called. -/
def centralDifferenceName : String := "numdiff::central_difference"

/-- The intrinsic of a name. -/
def ofName? (name : String) : Option Intrinsic :=
  if name == "len" then some .len
  else if name == "push" then some .push
  else if name == "pop" then some .pop
  else if name == centralDifferenceName then some .centralDifference
  else none

end Intrinsic

end Fluxion
