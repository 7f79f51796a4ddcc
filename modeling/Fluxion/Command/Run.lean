import Fluxion.Command.Binding
import Fluxion.Command.Invocation
import Fluxion.Conformance.Profile

/-!
Runs of the command line as functions of its words and of the files that it may read.
-/

namespace Fluxion.Command

/-- What has been written. -/
structure Output where
  stdout : String
  stderr : String
deriving DecidableEq, Repr

/-- What a run leaves: its code, and what it has written. -/
structure Report where
  code : Nat
  output : Output
deriving DecidableEq, Repr

/-- Steps that write, and fail with a message. What was written before a failure stays. -/
abbrev Step := EStateM String Output

/-- What a file holds, if it is there. -/
abbrev Files := String → Option String

/-- Writes text. -/
def print (text : String) : Step Unit := modify fun o => { o with stdout := o.stdout ++ text }

/-- Writes a line. -/
def printLine (line : String) : Step Unit := print (line ++ "\n")

/-- Writes a line about what is wrong. -/
def complain (line : String) : Step Unit :=
  modify fun o => { o with stderr := o.stderr ++ line ++ "\n" }

/-- A message, and what the failure comes from. -/
def withCause (message : String) (cause : Option String) : String :=
  match cause with
  | some cause => message ++ ": " ++ cause
  | none => message

/-- Takes a result, or fails with the message of its error. -/
def orFail {ε α : Type} (message : ε → String) : Except ε α → Step α
  | .ok a => pure a
  | .error e => throw (message e)

/-- The settings of a task: those of its file or of the default one, and then its flags. -/
def Task.options (t : Task) (files : Files) : Except Settings.SettingsError Derive.Options := do
  let o ← match t.config with
    | some path => Settings.load path (files path)
    | none => Settings.discover (files Settings.defaultFile)
  return { o with
    numericalFallback := o.numericalFallback && !t.noNumericalFallback
    printNumericalErrors := o.printNumericalErrors || t.printNumericalErrors }

/-- Fails because of a text that cannot be compiled. -/
def refuse {α : Type} (input source : String) : Session.CompileError → Step α
  | .load e => do
    for d in e.diagnostics do
      complain ((d.render? source).getD d.text)
    throw (input ++ " failed with " ++ toString e.diagnostics.length ++ " diagnostic(s)")
  | e => throw (withCause e.message e.cause?)

/-- Takes what was compiled, or fails. -/
def compiled {α : Type} (input source : String) : Except Session.CompileError α → Step α
  | .ok a => pure a
  | .error e => refuse input source e

/-- A parameter whose argument is shown after a run. -/
def isShown (p : Param) : Bool := p.ty.isRef || p.ty.isArray

/-- Writes the outcome of a run. -/
def printOutcome (f : Func) (o : Machine.Outcome Float) : Step Unit := do
  if let some v := o.value then printLine ("result = " ++ Decimal.render .plain v)
  for (p, arg) in f.params.zip o.args do
    if isShown p then printLine (p.name ++ " = " ++ arg.text)

/-- Runs a derived function on a list of arguments. -/
def runDerived (w : Session.Workspace) (q : Session.Query) (d : Derive.Derived) (list : String) :
    Step Unit := do
  let literals ← orFail (fun e => "invalid --args: " ++ e.message) (Listing.literals list)
  let f ← orFail (·.message) (Session.findFunc w.program q.function)
  let host := Host.ofProgram w.program
  let r ← orFail (·.message) (Request.make host f q.mode q.wrt q.order)
  let args ← orFail (·.message) (bindLiterals host r literals)
  let m := Session.machine w.program d Natives.standard
  printOutcome d.func (← orFail (·.message) (m.execute d.func args))

/-- Carries out a task. -/
def Task.run (t : Task) (files : Files) : Step Unit := do
  let some input := t.input | throw "expected an input file or subcommand"
  let some source := files input
    | throw ("failed to read " ++ input ++ ": " ++ Settings.noSuchFile)
  let mode ← orFail (·.message) (Request.Mode.ofName t.mode)
  let options ← orFail (fun e => withCause e.message e.cause?) (t.options files)
  let w ← compiled input source (Session.openSource source)
  let some function := t.function
    | printLine (input ++ ": ok (" ++ toString w.program.length ++ " functions)")
  let q : Session.Query := ⟨function, mode, t.wrt, t.order, options⟩
  let d ← compiled input source ((w.differentiate q).mapError .derive)
  for warning in d.warnings do
    complain ("warning: " ++ warning.text)
  if t.emitDerived || t.args.isNone then print d.text
  if let some list := t.args then runDerived w q d list

/-- Runs the conformance cases. -/
def runConformance (profile : String) : Report :=
  let name := Conformance.lowercase profile
  match Conformance.Profile.ofName? name with
  | none =>
    ⟨1, "", "error[conformance]: unknown profile '" ++ name ++ "' (expected scenarios|full)\n"⟩
  | some p =>
    match p.complaints with
    | [] => ⟨0, "conformance passed for profile: " ++ p.text ++ "\n", ""⟩
    | failures =>
      ⟨1, "", "conformance failures detected:\n" ++ String.join (failures.map ("- " ++ · ++ "\n"))⟩

/-- Runs steps to their end. -/
def report (steps : Step Unit) : Report :=
  match steps ⟨"", ""⟩ with
  | .ok () o => ⟨0, o⟩
  | .error message o => ⟨1, { o with stderr := o.stderr ++ "error: " ++ message ++ "\n" }⟩

/-- Does what is asked for. -/
def Invocation.run (files : Files) : Invocation → Report
  | .derive t => report (t.run files)
  | .conformance profile => runConformance profile

/-- The code of a run whose command line is refused. -/
def refusedCode : Nat := 2

/-- Runs a command line. -/
def run (files : Files) (argv : List String) : Report :=
  match Invocation.ofWords? argv with
  | some i => i.run files
  | none => ⟨refusedCode, "", "error: invalid command line\n"⟩

end Fluxion.Command
