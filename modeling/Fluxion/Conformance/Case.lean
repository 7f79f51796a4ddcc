import Fluxion.Session.Compile

/-!
Cases: a source, the derivative to take of it, arguments to run it on, and what has to come out.
-/

namespace Fluxion.Conformance

/-- What has to come out. -/
inductive Expected where
  /-- The number that the derived function returns. -/
  | value (v : Float)
  /-- What arguments hold after the run, by position. -/
  | outputs (args : List (Nat × Arg Float))
  /-- There is no derivative, and the message holds the text. -/
  | failure (text : String)

/-- A case. -/
structure Case where
  name : String
  source : String
  function : String
  mode : Request.Mode
  wrt : Option String
  args : List (Arg Float)
  expected : Expected

/-- Why a case fails. -/
inductive Failure where
  | otherError (expected got : String)
  | compile (message : String)
  | noError (expected : String)
  | run (message derived : String)
  | value (expected : Float) (got : Option Float)
  | noArgument (position : Nat)
  | argument (position : Nat) (expected got : Arg Float)

/-- A number that may be missing, in messages. -/
def optionalNumber : Option Float → String
  | some v => "Some(" ++ Decimal.render .literal v ++ ")"
  | none => "None"

/-- The message of a failure. -/
def Failure.message : Failure → String
  | .otherError expected got => "expected error containing '" ++ expected ++ "', got " ++ got
  | .compile message => "unexpected compile error: " ++ message
  | .noError expected =>
    "expected failure containing '" ++ expected ++ "' but synthesis succeeded"
  | .run message derived => "execution failed: " ++ message ++ "\n" ++ derived
  | .value expected got =>
    "expected " ++ Decimal.render .plain expected ++ ", got " ++ optionalNumber got
  | .noArgument position => "no argument at position " ++ toString position
  | .argument position expected got =>
    "argument " ++ toString position ++ ": expected " ++ expected.text ++ ", got " ++ got.text

/-- The relative error that numbers may have; near zero it is absolute. -/
def tolerance : Float := 1e-9

/-- A number is what it has to be, up to the tolerance. -/
def close (got expected : Float) : Bool :=
  let size := if 1.0 < expected.abs then expected.abs else 1.0
  (got - expected).abs ≤ tolerance * size

/-- An argument is what it has to be, up to the tolerance. -/
def argClose : Arg Float → Arg Float → Bool
  | .ref a, .ref b => close a b
  | .scalar a, .scalar b => close a b
  | .array as, .array bs => as.length == bs.length && (as.zip bs).all fun (a, b) => close a b
  | .int a, .int b => a == b
  | .bool a, .bool b => a == b
  | _, _ => false

/-- A text occurs in another. -/
def occursIn (part : List Char) : List Char → Bool
  | [] => part.isEmpty
  | c :: rest => part.isPrefixOf (c :: rest) || occursIn part rest

/-- A text with small letters only. -/
def lowercase (s : String) : String := s.map Char.toLower

/-- Checks the arguments after a run. -/
def checkOutputs (args : List (Arg Float)) : List (Nat × Arg Float) → Except Failure Unit
  | [] => .ok ()
  | (position, expected) :: rest =>
    match args[position]? with
    | none => .error (.noArgument position)
    | some got =>
      if argClose got expected then checkOutputs args rest
      else .error (.argument position expected got)

/-- Checks the outcome of a run. -/
def checkOutcome (o : Machine.Outcome Float) : Expected → Except Failure Unit
  | .value expected =>
    if o.value.any (close · expected) then .ok () else .error (.value expected o.value)
  | .outputs expected => checkOutputs o.args expected
  | .failure _ => .ok ()

/-- Checks that the derivative could not be taken for the right reason. -/
def checkError (message : String) : Expected → Except Failure Unit
  | .failure expected =>
    if occursIn (lowercase expected).toList (lowercase message).toList then .ok ()
    else .error (.otherError expected (lowercase message))
  | _ => .error (.compile message)

namespace Case

/-- The program of a case and the derivative that it asks for. -/
def derive (c : Case) : Except Session.CompileError (Program × Derive.Derived) := do
  let w ← Session.openSource c.source
  let d ← (w.differentiate ⟨c.function, c.mode, c.wrt, 1, .standard⟩).mapError .derive
  return (w.program, d)

/-- Runs a case. -/
def check (c : Case) : Except Failure Unit :=
  match c.derive, c.expected with
  | .error e, expected => checkError e.message expected
  | .ok _, .failure expected => .error (.noError expected)
  | .ok (p, d), expected =>
    match (Session.machine p d Natives.standard).execute d.func c.args with
    | .error stop => .error (.run stop.message d.text)
    | .ok o => checkOutcome o expected

/-- The complaint about a case, if it fails. -/
def complaint? (c : Case) : Option String :=
  match c.check with
  | .ok () => none
  | .error f => some (c.name ++ " => " ++ f.message)

end Case

end Fluxion.Conformance
