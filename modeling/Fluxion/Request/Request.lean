import Fluxion.Analysis.Writes
import Fluxion.Request.Spec

/-!
Requests: what to differentiate, how, and with respect to what. A request holds only independent
variables that make sense for its function and mode.
-/

namespace Fluxion.Request

/-- What is derived. -/
inductive Mode where
  | forward
  | reverse
  | hessian
  | jacobian
  | errorEstimate
deriving DecidableEq, Repr

/-- The name of a mode. -/
def Mode.text : Mode → String
  | .forward => "forward"
  | .reverse => "reverse"
  | .hessian => "hessian"
  | .jacobian => "jacobian"
  | .errorEstimate => "error"

/-- A name that no mode has, in small letters. -/
structure UnknownMode where
  name : String
deriving DecidableEq, Repr

/-- The message of the failure. -/
def UnknownMode.message (e : UnknownMode) : String :=
  "unknown mode `" ++ e.name ++ "` (expected forward, reverse, hessian, jacobian or error)"

/-- The mode of a name, whatever its capitals. -/
def Mode.ofName (name : String) : Except UnknownMode Mode :=
  match String.ofList (name.toList.map Char.toLower) with
  | "forward" | "fwd" => .ok .forward
  | "reverse" | "grad" | "gradient" => .ok .reverse
  | "hessian" => .ok .hessian
  | "jacobian" => .ok .jacobian
  | "error" | "error-estimate" => .ok .errorEstimate
  | other => .error ⟨other⟩

/-- Why a request is refused. -/
inductive RequestError where
  | empty (function : String)
  | unknownParameter (function name : String)
  | parameterOutOfRange (function : String) (index count : Nat)
  | elementOutOfRange (param : String) (index len : Nat)
  | invalidRange (param : String) (lo hi : Nat)
  | overlapping (param : String)
  | indexOnScalar (param : String)
  | notDifferentiable (param : String) (ty : Ty)
  | forwardMultiple (count : Nat)
  | missingRange (param : String) (mode : Mode)
  | invalidOrder (order : Nat) (mode : Mode)
  | noOutputs (function : String)
  | invalidSpec (spec : String) (fault : SpecFault)
  /-- The number of independent scalars is not below `countLimit`. -/
  | countOverflow
deriving Repr

/-- The message of a refusal. -/
def RequestError.message : RequestError → String
  | .empty f => "no independent variables requested for `" ++ f ++ "`"
  | .unknownParameter f x => "`" ++ f ++ "` has no parameter named `" ++ x ++ "`"
  | .parameterOutOfRange f i n =>
    "parameter index " ++ toString i ++ " is out of range: `" ++ f ++ "` has " ++ toString n
      ++ " parameters"
  | .elementOutOfRange x i n =>
    "index " ++ toString i ++ " is out of range for `" ++ x ++ "` of length " ++ toString n
  | .invalidRange x lo hi =>
    "invalid range [" ++ toString lo ++ ":" ++ toString hi ++ "] for `" ++ x ++ "`"
  | .overlapping x => "`" ++ x ++ "` is requested more than once (overlapping independent variables)"
  | .indexOnScalar x => "`" ++ x ++ "` is a scalar and cannot be indexed"
  | .notDifferentiable x t => "`" ++ x ++ "` of type " ++ t.text ++ " is not differentiable"
  | .forwardMultiple n =>
    "forward mode differentiates w.r.t. exactly one scalar, got " ++ toString n
  | .missingRange x m => m.text ++ " mode needs an explicit element range for array `" ++ x ++ "`"
  | .invalidOrder n m =>
    "invalid derivative order " ++ toString n ++ " for " ++ m.text ++ " mode"
  | .noOutputs f => "`" ++ f ++ "` writes no array parameter, so it has no jacobian outputs"
  | .invalidSpec spec fault =>
    "malformed independent variable list `" ++ spec ++ "`: " ++ fault.message
  | .countOverflow => "there are too many independent scalars"

/-- Counts of scalars are machine words. -/
def countLimit : Nat := UInt64.size

/-- Adds counts to a total, from left to right, up to one that is not known. -/
def addCounts (total : Nat) : List (Option Nat) → Except RequestError (Option Nat)
  | [] => .ok (some total)
  | none :: _ => .ok none
  | some n :: rest =>
    if total + n < countLimit then addCounts (total + n) rest else .error .countOverflow

/-- An independent variable: a parameter, by position and name, or a range of its elements. -/
structure Independent where
  param : Nat
  name : String
  range : Option (Nat × Nat)
deriving DecidableEq, Repr, Inhabited

/-- The number of elements of a range. -/
def Independent.count? (v : Independent) : Option Nat := v.range.map fun (lo, hi) => hi - lo + 1

end Fluxion.Request

namespace Fluxion

/-- A request. -/
structure Request where
  target : Func
  independents : List Request.Independent
  mode : Request.Mode
  order : Nat
deriving Repr

end Fluxion

namespace Fluxion.Request

/-- The parameter at a position is an array. -/
def isArrayAt (f : Func) (i : Nat) : Bool := f.params[i]?.any (·.ty.isArray)

/-- The number of independent scalars, if every array comes with a range. -/
def scalarCount (r : Request) : Except RequestError (Option Nat) :=
  addCounts 0 (r.independents.map fun v =>
    if isArrayAt r.target v.param then v.count? else some 1)

/-- Positions of the float arrays that a function may write. -/
def outputArrays (h : Host) (f : Func) : List Nat :=
  (h.writtenParams f).filter fun i =>
    f.params[i]?.any fun p => p.ty.isArray && p.ty.isDifferentiable

/-- The position and declaration of the parameter that an entry refers to. -/
def findParam (f : Func) : ParamRef → Except RequestError (Nat × Param)
  | .name x =>
    match f.param? x with
    | some found => .ok found
    | none => .error (.unknownParameter f.name x)
  | .position i =>
    match f.params[i]? with
    | some p => .ok (i, p)
    | none => .error (.parameterOutOfRange f.name i f.params.length)

/-- A range has to lie within an array. -/
def checkRange (p : Param) : Option (Nat × Nat) → Except RequestError Unit
  | none => .ok ()
  | some (lo, hi) =>
    match p.ty with
    | .array _ len =>
      if hi < lo then .error (.invalidRange p.name lo hi)
      else
        match len with
        | some n => if n ≤ hi then .error (.elementOutOfRange p.name hi n) else .ok ()
        | none => .ok ()
    | _ => .error (.indexOnScalar p.name)

/-- The independent variable that an entry describes. -/
def validate (f : Func) (spec : Spec) : Except RequestError Independent := do
  let (i, p) ← findParam f spec.param
  if !p.ty.isDifferentiable then throw (.notDifferentiable p.name p.ty)
  checkRange p spec.range
  return ⟨i, p.name, spec.range⟩

/-- The independent variables of entries after those in `before`; no parameter comes twice. -/
def validateAll (f : Func) (before : List Independent) :
    List Spec → Except RequestError (List Independent)
  | [] => .ok before
  | spec :: rest => do
    let v ← validate f spec
    if before.any (·.param == v.param) then throw (.overlapping v.name)
    validateAll f (before ++ [v]) rest

/-- Forward mode differentiates with respect to one scalar. -/
def checkForward (f : Func) (vars : List Independent) : Except RequestError Unit := do
  let count ← addCounts 0 (vars.map fun v => some (v.count?.getD 1))
  match vars with
  | [v] =>
    if isArrayAt f v.param && v.range.isNone then throw (.missingRange v.name .forward)
  | _ => pure ()
  if count ≠ some 1 then throw (.forwardMultiple (count.getD 0))

/-- Matrices need to know how many scalars each array contributes. -/
def checkRanges (f : Func) (mode : Mode) (vars : List Independent) : Except RequestError Unit :=
  match vars.find? fun v => v.range.isNone && isArrayAt f v.param with
  | some v => .error (.missingRange v.name mode)
  | none => .ok ()

/-- A jacobian has outputs, and they are not independent variables. -/
def checkOutputs (h : Host) (f : Func) (vars : List Independent) : Except RequestError Unit :=
  let outputs := outputArrays h f
  if outputs.isEmpty then .error (.noOutputs f.name)
  else
    match vars.find? fun v => outputs.contains v.param with
    | some v => .error (.overlapping v.name)
    | none => .ok ()

/-- What the mode asks of the independent variables. -/
def checkMode (h : Host) (f : Func) (mode : Mode) (vars : List Independent) :
    Except RequestError Unit :=
  match mode with
  | .forward => checkForward f vars
  | .hessian => checkRanges f .hessian vars
  | .jacobian => do
    checkRanges f .jacobian vars
    checkOutputs h f vars
  | .reverse | .errorEstimate => .ok ()

/-- The request for the given entries. -/
def ofSpecs (h : Host) (f : Func) (mode : Mode) (specs : List Spec) (order : Nat) :
    Except RequestError Request := do
  if order = 0 ∨ (1 < order ∧ mode ≠ .forward) then throw (.invalidOrder order mode)
  if specs.isEmpty then throw (.empty f.name)
  let vars ← validateAll f [] specs
  checkMode h f mode vars
  return ⟨f, vars, mode, order⟩

/-- The elements that stand for an array when nothing is said: all, if a matrix is asked for and
their number is known. -/
def defaultRange (mode : Mode) : Ty → Option (Nat × Nat)
  | .array _ (some n) =>
    if (mode = .hessian ∨ mode = .jacobian) ∧ 0 < n then some (0, n - 1) else none
  | _ => none

/-- All differentiable parameters, but for the outputs of a jacobian. -/
def defaultSpecs (h : Host) (f : Func) (mode : Mode) : List Spec :=
  let outputs := if mode = .jacobian then outputArrays h f else []
  let chosen := f.params.zipIdx.filter fun (p, i) => p.ty.isDifferentiable && !outputs.contains i
  chosen.map fun (p, _) => ⟨.name p.name, defaultRange mode p.ty⟩

/-- Reads a list of independent variables. -/
def parseSpecs (text : String) : Except RequestError (List Spec) :=
  (Spec.list text).mapError (.invalidSpec text)

/-- The request for a list of independent variables as text, or for the default ones. -/
def make (h : Host) (f : Func) (mode : Mode) (wrt : Option String) (order : Nat) :
    Except RequestError Request := do
  let specs ← match wrt with
    | some text => parseSpecs text
    | none => pure (defaultSpecs h f mode)
  ofSpecs h f mode specs order

end Fluxion.Request
