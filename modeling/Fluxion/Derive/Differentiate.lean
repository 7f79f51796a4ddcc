import Fluxion.Derive.Hessian
import Fluxion.Derive.Jacobian

/-!
Differentiation: a request becomes a function, together with the functions it calls that were
derived on the way.
-/

namespace Fluxion.Derive

open Library (Registry)

/-- A derived function. -/
structure Derived where
  mode : Request.Mode
  func : Func
  /-- Derived functions that it calls, in the order in which they were finished. -/
  support : List Func
  warnings : List Warning

namespace Derived

/-- All derived functions, the one that was asked for last. -/
def funcs (d : Derived) : Program := d.support ++ [d.func]

/-- The derived functions as source text. -/
def text (d : Derived) : String := Program.text d.funcs

end Derived

/-- Derives the function that a request asks for. -/
def derivedFunc (s : Setting) (r : Request) : Derivation Func :=
  match r.mode with
  | .forward => directional s (planner s) r
  | .reverse => gradient s (planner s) r
  | .errorEstimate => gradientWith s (planner s) r s.errorEpsilon
  | .hessian => hessian s r
  | .jacobian => jacobian s r

/-- What a differentiation works with. In error mode, pullbacks add up errors too. -/
def Setting.make (p : Program) (registry : Registry) (options : Options) (mode : Request.Mode) :
    Setting where
  program := p
  registry := registry
  options := options
  errorEpsilon := if mode = .errorEstimate then some options.machineEpsilon else none

/-- Differentiates. -/
def differentiate (p : Program) (registry : Registry) (options : Options) (r : Request) :
    Except DeriveError Derived :=
  match derivedFunc (Setting.make p registry options r.mode) r (Progress.start p) with
  | .ok f s => .ok ⟨r.mode, f, s.support, s.warnings⟩
  | .error e _ => .error e

end Fluxion.Derive
