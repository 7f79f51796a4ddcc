import Fluxion.Derive.Differentiate
import Fluxion.Eval.Machine
import Fluxion.Session.Load

/-!
From a source text to a derivative: load the text, collect the derivatives that it gives, find the
function, and differentiate it.
-/

namespace Fluxion.Session

open Derive (DeriveError Derived)
open Library (Registry RegistryError)

/-- What is asked of a program. -/
structure Query where
  function : String
  mode : Request.Mode
  /-- The independent variables as text; without it, all there are. -/
  wrt : Option String
  order : Nat
  options : Derive.Options

/-- A program together with the derivatives that it gives. -/
structure Workspace where
  program : Program
  registry : Registry

/-- Why a text cannot be compiled. -/
inductive CompileError where
  | load (e : LoadError)
  | registry (e : RegistryError)
  | derive (e : DeriveError)
deriving Repr

/-- What a failure comes from, where its message goes on to say it. -/
def CompileError.cause? : CompileError → Option String
  | .load _ => none
  | .registry e => some e.message
  | .derive e => some e.message

/-- The message of a failure. -/
def CompileError.message : CompileError → String
  | .load (.parse _) => "parse error"
  | .load (.type _) => "type error"
  | .registry e => "invalid custom derivative: " ++ e.message
  | .derive e => "differentiation failed: " ++ e.message

/-- The function of a name. -/
def findFunc (p : Program) (name : String) : Except DeriveError Func :=
  match p.find? name with
  | some f => .ok f
  | none => .error (.functionNotFound name)

/-- Differentiates a function of a program. -/
def Workspace.differentiate (w : Workspace) (q : Query) : Except DeriveError Derived := do
  let f ← findFunc w.program q.function
  let r ← (Request.make (.ofProgram w.program) f q.mode q.wrt q.order).mapError .request
  Derive.differentiate w.program w.registry q.options r

/-- Collects the derivatives that a program gives. -/
def Workspace.ofProgram (p : Program) : Except RegistryError Workspace := do
  return ⟨p, ← Registry.ofProgram p⟩

/-- The workspace of a source text. -/
def openSource (source : String) : Except CompileError Workspace := do
  let p ← (load source).mapError .load
  (Workspace.ofProgram p).mapError .registry

/-- A derived function with all that it calls, ready to run. -/
def machine {K : Type} (p : Program) (d : Derived) (natives : Natives K) : Machine K :=
  ⟨p ++ d.funcs, natives⟩

end Fluxion.Session
