import Fluxion.Lang.Func
import Fluxion.Typing.Accept

/-!
Overload resolution: of the functions of a name that accept the arguments, the one at the lowest
cost, and of several the first.
-/

namespace Fluxion

/-- The cost of passing arguments to parameters, one by one. -/
def costs? : List Param → List Ty → Option Nat
  | [], [] => some 0
  | p :: ps, a :: as => do
    let c ← p.ty.cost? a
    let cs ← costs? ps as
    return c + cs
  | _, _ => none

/-- The cost of calling a function. -/
def Func.cost? (f : Func) (args : List Ty) : Option Nat := costs? f.params args

/-- The cheaper of the best so far and another function. -/
def cheaper (args : List Ty) (best : Option (Nat × Func)) (f : Func) : Option (Nat × Func) :=
  match f.cost? args, best with
  | none, best => best
  | some c, none => some (c, f)
  | some c, some (c', g) => if c < c' then some (c, f) else some (c', g)

/-- The overload of `name` that a call with arguments of the given types reaches. -/
def Program.resolve (p : Program) (name : String) (args : List Ty) : Option Func :=
  ((p.overloads name).foldl (cheaper args) none).map (·.2)

/-- Finds the function that a call reaches. -/
abbrev Resolver := String → List Ty → Option Func

/-- A program together with functions derived from it, which calls reach first. -/
structure Host where
  program : Program
  derived : List Func
deriving Inhabited

namespace Host

/-- A program by itself. -/
def ofProgram (p : Program) : Host := ⟨p, []⟩

/-- The function a call reaches. -/
def resolve (h : Host) : Resolver := fun name args =>
  (Program.resolve h.derived name args).or (h.program.resolve name args)

/-- The number of functions a call may reach. -/
def size (h : Host) : Nat := h.program.length + h.derived.length

end Host

end Fluxion
