import Fluxion.Lang.Stmt
import Fluxion.Text.Position

/-!
Functions and programs. A function without a body is native: its implementation is bound when the
program runs. Overloads share a name and differ in their signatures.
-/

namespace Fluxion

/-- A parameter. -/
structure Param where
  name : String
  ty : Ty
deriving DecidableEq, Repr, Inhabited

/-- The parameter as `name: type`. -/
def Param.text (p : Param) : String := p.name ++ ": " ++ p.ty.text

/-- What identifies a function: its name, and its types without array lengths. -/
structure Signature where
  name : String
  params : List Ty
  ret : Ty
deriving DecidableEq, Repr, Inhabited

/-- The signature as `name(types) -> type`. -/
def Signature.text (s : Signature) : String :=
  s.name ++ "(" ++ tyList s.params ++ ") -> " ++ s.ret.text

/-- A function. The name includes the namespaces, separated by `::`. -/
structure Func where
  name : String
  params : List Param
  ret : Ty
  body : Option (List Stmt)
  span : Span
deriving Repr, Inhabited

/-- The parts of a name between `::`, the first part being `current` so far. -/
def namePartsFrom (current : List Char) : List Char → List (List Char)
  | [] => [current.reverse]
  | ':' :: ':' :: rest => current.reverse :: namePartsFrom [] rest
  | c :: rest => namePartsFrom (c :: current) rest

/-- The parts of a name: its namespaces, and last the name within them. -/
def nameParts (name : String) : List String :=
  (namePartsFrom [] name.toList).map String.ofList

namespace Func

/-- The function's signature. -/
def signature (f : Func) : Signature :=
  ⟨f.name, f.params.map (·.ty.erased), f.ret.erased⟩

/-- Position and declaration of the first parameter with a name. -/
def param? (f : Func) (name : String) : Option (Nat × Param) :=
  (f.params.zipIdx.find? (·.1.name == name)).map fun (p, i) => (i, p)

/-- The statements of the body; a native function has none. -/
def stmts (f : Func) : List Stmt := f.body.getD []

/-- The function has no body. -/
def isNative (f : Func) : Bool := f.body.isNone

/-- The name without namespaces. -/
def baseName (f : Func) : String := (nameParts f.name).getLastD f.name

/-- The types of parameters and locals. Of several declarations of one name the last counts. -/
def env (f : Func) : List (String × Ty) :=
  ((f.params.map fun p => (p.name, p.ty)) ++ declaredIn f.stmts).reverse

/-- Equality of all but the position in the source. -/
def same (f g : Func) : Bool :=
  f.name == g.name && f.params == g.params && f.ret == g.ret && f.body == g.body

end Func

/-- A program: functions in the order of the source. -/
abbrev Program := List Func

namespace Program

/-- The functions of one name, in order. -/
def overloads (p : Program) (name : String) : List Func := p.filter (·.name == name)

/-- The function called `name`, one with a body if there is any. -/
def find? (p : Program) (name : String) : Option Func :=
  (List.find? (fun f => f.name == name && !f.isNative) p).or (List.find? (·.name == name) p)

end Program

end Fluxion
