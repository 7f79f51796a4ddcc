import Fluxion.Command.Words
import Fluxion.Settings.File

/-!
What a command line asks for: the derivative of a function in a file, or the conformance cases.
-/

namespace Fluxion.Command

/-- A derivative that is asked for. -/
structure Task where
  input : Option String
  function : Option String
  mode : String
  wrt : Option String
  order : Nat
  emitDerived : Bool
  /-- The arguments to run the derived function on. -/
  args : Option String
  config : Option String
  noNumericalFallback : Bool
  printNumericalErrors : Bool
deriving DecidableEq, Repr

/-- What is asked for. -/
inductive Invocation where
  | derive (t : Task)
  | conformance (profile : String)
deriving DecidableEq, Repr

/-- The command that runs the conformance cases. -/
def conformanceWord : String := "conformance"

/-- The command line. -/
def mainShape : Shape where
  valued := ["--func", "--mode", "--wrt", "--order", "--args", "--config"]
  dashed := ["--args"]
  flags := ["--emit-derived", "--no-numerical-fallback", "--print-num-diff-errors"]
  commands := [conformanceWord]
  files := 1

/-- The command line after the conformance command. -/
def conformanceShape : Shape where
  valued := ["--profile"]
  dashed := []
  flags := []
  commands := []
  files := 0

/-- An order: digits, maybe with a sign, that write a number of 32 bits. -/
def order? (text : String) : Option Nat :=
  let (negative, digits) := Settings.takeSign text.toList
  if digits.isEmpty || !digits.all Char.isDigit then none
  else
    let n := Settings.valueOf 10 digits
    if (negative && n != 0) || n ≥ UInt32.size then none else some n

/-- A path is not empty. -/
def path? (text : Option String) : Option (Option String) :=
  if text = some "" then none else some text

/-- The task of a command line. -/
def Task.ofWords? (w : Words) : Option Task := do
  let input ← path? w.files.head?
  let config ← path? (w.value? "--config")
  let order ← match w.value? "--order" with
    | some text => order? text
    | none => some 1
  return {
    input, config, order
    function := w.value? "--func"
    mode := (w.value? "--mode").getD "reverse"
    wrt := w.value? "--wrt"
    emitDerived := w.flags.contains "--emit-derived"
    args := w.value? "--args"
    noNumericalFallback := w.flags.contains "--no-numerical-fallback"
    printNumericalErrors := w.flags.contains "--print-num-diff-errors" }

/-- What a command line asks for, unless it is refused. -/
def Invocation.ofWords? (argv : List String) : Option Invocation := do
  let w ← readWords mainShape .empty argv
  let task ← Task.ofWords? w
  match w.command with
  | none => return .derive task
  | some (_, rest) => do
    let w ← readWords conformanceShape .empty rest
    return .conformance ((w.value? "--profile").getD "full")

/-- The files that may be read. -/
def Invocation.files : Invocation → List String
  | .derive t => t.input.toList ++ [t.config.getD Settings.defaultFile]
  | .conformance _ => []

end Fluxion.Command
