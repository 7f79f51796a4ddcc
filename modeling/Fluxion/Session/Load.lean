import Fluxion.Grammar.Source
import Fluxion.Library.Prelude
import Fluxion.Typing.Checker

/-!
Loading: a source text becomes a program by parsing it, putting the library in front, and checking
the types of the whole.
-/

namespace Fluxion.Session

/-- Why a text cannot be loaded. -/
inductive LoadError where
  | parse (diagnostic : Diagnostic)
  | type (diagnostics : List Diagnostic)
deriving Repr

/-- The diagnostics of a failure. -/
def LoadError.diagnostics : LoadError → List Diagnostic
  | .parse d => [d]
  | .type ds => ds

/-- Parses a text and puts the library in front. -/
def loadUnchecked (source : String) : Except LoadError Program :=
  match Grammar.parse source with
  | .error f => .error (.parse (f.diagnostic source))
  | .ok user => .ok (Library.prelude ++ user)

/-- Loads a text. Diagnostics are placed in it, also those about functions of the library. -/
def load (source : String) : Except LoadError Program := do
  let p ← loadUnchecked source
  match Typing.check p with
  | [] => return p
  | errors => throw (.type (errors.map (·.diagnostic source p)))

end Fluxion.Session
