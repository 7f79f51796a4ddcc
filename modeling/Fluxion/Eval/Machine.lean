import Fluxion.Eval.Native
import Fluxion.Eval.Statement

/-!
Calls, and runs of whole programs. Calls nest to a fixed depth, and evaluation follows that depth.
-/

namespace Fluxion

/-- Functions with a body, and implementations of those without. -/
structure Machine (K : Type) where
  funcs : Program
  natives : Natives K

namespace Machine

variable {K : Type}

open Exec

/-- The number of calls that may be open at once. -/
def maxDepth : Nat := 256

/-- The rounds that each loop is granted, more than any run can take. -/
def manyRounds : Nat := 4611686018427387904

/-- The implementation of a native function, by its full name or by that without namespaces. -/
def native? (m : Machine K) (f : Func) : Option (Native K) :=
  (m.natives.lookup f.name).or (m.natives.lookup f.baseName)

variable [Scalar K]

/-- The number that a native function gets for a parameter. -/
def nativeArg (f : Func) : Bound K → Exec K K
  | .value v => require (.type (.nativeNumber f.name)) v.number?
  | .slot s => do require (.type (.nativeNumber f.name)) (← read s).number?
  | _ => mistyped (.nativeNumber f.name)

/-- Calls a native function. -/
def callNative (m : Machine K) (f : Func) (bound : List (Bound K)) : Exec K (Value K) := do
  let native ← require (.missingNative f.name) (m.native? f)
  let args ← bound.mapM (nativeArg f)
  match native args with
  | some v => return .float v
  | none => throw (.nativeArity f.name)

/-- The variable that a parameter becomes. -/
def enter (p : Param) : Bound K → Exec K Binding
  | .value v => return .scalar (← newCell (v.coerce p.ty))
  | .slot s => return .scalar s
  | .array id => return .array id
  | .tape id => return .tape id

/-- The variables that parameters become; of two parameters of one name the later counts. -/
def enterAll (env : Env) : List Param → List (Bound K) → Exec K Env
  | p :: ps, b :: bs => do
    let binding ← enter p b
    enterAll ((p.name, binding) :: env) ps bs
  | _, _ => return env

/-- What a function returns by the way its body ends. -/
def returned (f : Func) : Eval.Flow K → Exec K (Option (Value K))
  | .ret (some v) => return some (v.coerce f.ret)
  | _ => if f.ret = .void then return none else fail (.missingReturn f.name)

/-- Calls a function when so many more calls may be opened. -/
def callAt (m : Machine K) (limit : Nat) : Nat → Func → List (Bound K) → Exec K (Option (Value K))
  | 0, f, bound =>
    match f.body with
    | none => do return some (← m.callNative f bound)
    | some _ => fail (.stackOverflow maxDepth)
  | depth + 1, f, bound =>
    match f.body with
    | none => do return some (← m.callNative f bound)
    | some body => do
      let flow ← inScope (do
        let env ← enterAll [] f.params bound
        inScope (Eval.execBody ⟨m.funcs, m.callAt limit depth⟩ limit env body))
      returned f flow

/-- Binds a parameter to an argument from outside. -/
def bindArg (f : Func) (p : Param) (arg : Arg K) : Exec K (Bound K) :=
  match p.ty, arg with
  | .ref _, .ref v => return .slot (← newCell (.float v))
  | .ref _, _ => fail (.argumentKind f.name p.name .ref)
  | .array elem _, .array values => do
    let data := values.map fun v => (Value.float v).coerce elem
    return .array (← newArray ⟨elem, data.toArray⟩)
  | .array _ _, _ => fail (.argumentKind f.name p.name .array)
  | .float, .scalar v => return .value (.float v)
  | .float, .int v => return .value (.float (Scalar.ofInt v))
  | .int, .int v => return .value (.int v)
  | .int, .scalar v =>
    match Scalar.toInt? v with
    | some n => return .value (.int n)
    | none => fail (.argumentKind f.name p.name .value)
  | .bool, .bool v => return .value (.bool v)
  | _, _ => fail (.argumentKind f.name p.name .value)

/-- Binds parameters to arguments from outside one by one. -/
def bindArgs (f : Func) : List Param → List (Arg K) → Exec K (List (Bound K))
  | p :: ps, a :: as => do
    let b ← bindArg f p a
    let bs ← bindArgs f ps as
    return b :: bs
  | _, _ => return []

/-- The number that storage holds. -/
def numberIn (v : Value K) : K := v.number?.getD Scalar.nan

/-- The argument after a run. -/
def writeBack (s : Store K) : Bound K → Arg K → Arg K
  | .slot slot, .ref _ => .ref (numberIn (s.read slot))
  | .array id, .array _ => .array ((s.array id).data.toList.map numberIn)
  | _, arg => arg

/-- The arguments after a run. -/
def writeBacks (s : Store K) : List (Bound K) → List (Arg K) → List (Arg K)
  | b :: bs, a :: as => writeBack s b a :: writeBacks s bs as
  | _, _ => []

/-- The outcome of a run: the number returned, if any, and the arguments. -/
structure Outcome (K : Type) where
  value : Option K
  args : List (Arg K)
deriving Repr

/-- Runs a function on arguments from outside. -/
def run (m : Machine K) (limit : Nat) (f : Func) (args : List (Arg K)) : Exec K (Outcome K) := do
  if f.params.length ≠ args.length then fail (.arity f.name f.params.length args.length)
  else
    let bound ← bindArgs f f.params args
    let v ← m.callAt limit maxDepth f bound
    return ⟨v.bind Value.number?, writeBacks (← get) bound args⟩

/-- The answer of a run, and the storage that it leaves. -/
def answer {α : Type} (r : EStateM.Result Stop (Store K) α) : Except Stop α × Store K :=
  match r with
  | .ok a s => (.ok a, s)
  | .error e s => (.error e, s)

/-- Runs a function on storage of its own. -/
def execute (m : Machine K) (f : Func) (args : List (Arg K)) : Except Stop (Outcome K) :=
  (answer (m.run manyRounds f args .empty)).1

/-- Runs a function once for each list of arguments, every time on the storage that the run before
has left. -/
def executeAll (m : Machine K) (f : Func) (s : Store K) :
    List (List (Arg K)) → List (Except Stop (Outcome K))
  | [] => []
  | args :: rest =>
    let (a, s) := answer (m.run manyRounds f args s)
    a :: m.executeAll f s rest

/-- The function that a run of `name` starts from: the first of the name that has a body. -/
def entry? (p : Program) (name : String) : Except RuntimeError Func :=
  match List.find? (fun f => f.name == name && !f.isNative) p with
  | some f => .ok f
  | none => .error (.unknownFunction name)

end Machine

end Fluxion
