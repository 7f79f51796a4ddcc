import Fluxion.Lang.Expr

/-!
What can go wrong when a program runs.
-/

namespace Fluxion

/-- A value or binding of the wrong type. -/
inductive TypeFault where
  | notScalar (x : String)
  | notArray (x : String)
  | notTape (x : String)
  | tapeVariable
  | arrayLocal (x : String)
  | localType (x : String) (t : Ty)
  | arrayElement (t : Ty)
  | int
  | condition
  | void
  | negatedBool
  | operator (op : BinOp) (l r : Ty)
  | funcRef (f : String)
  | len
  | push
  | difference
  | differenceNumber
  | nativeNumber (f : String)
deriving DecidableEq, Repr

/-- The message of a fault. -/
def TypeFault.message : TypeFault → String
  | .notScalar x => "`" ++ x ++ "` is not a scalar"
  | .notArray x => "`" ++ x ++ "` is not an array"
  | .notTape x => "`" ++ x ++ "` is not a tape"
  | .tapeVariable => "expected a tape variable"
  | .arrayLocal x => "array local `" ++ x ++ "` needs a length"
  | .localType x t => "cannot declare `" ++ x ++ "` of type " ++ t.text
  | .arrayElement t => "arrays of " ++ t.text ++ " are not supported"
  | .int => "expected an integer"
  | .condition => "expected a boolean condition"
  | .void => "a void call has no value"
  | .negatedBool => "cannot negate a boolean"
  | .operator op l r => "operator `" ++ op.symbol ++ "` on " ++ l.text ++ " and " ++ r.text
  | .funcRef f => "`&" ++ f ++ "` is only valid as a numerical differentiation target"
  | .len => "len expects an array"
  | .push => "push expects a value"
  | .difference => "central_difference expects (&function, index, print, args...)"
  | .differenceNumber => "numerical arguments must be numbers"
  | .nativeNumber f => "native `" ++ f ++ "` takes numeric arguments"

/-- What a parameter asks for. -/
inductive ArgumentKind where
  | ref
  | array
  | value
  | place
  | arrayVariable
  | scalar
deriving DecidableEq, Repr

/-- The kind as shown in messages. -/
def ArgumentKind.text : ArgumentKind → String
  | .ref => "an `Arg::Ref`"
  | .array => "an `Arg::Array`"
  | .value => "a value of the declared type"
  | .place => "a variable or array element"
  | .arrayVariable => "an array variable"
  | .scalar => "a scalar"

/-- Why a run fails. -/
inductive RuntimeError where
  | unknownFunction (f : String)
  | noOverload (f : String) (args : List Ty)
  | missingNative (f : String)
  | arity (f : String) (expected found : Nat)
  | argumentKind (f param : String) (expected : ArgumentKind)
  | unbound (x : String)
  | indexOutOfBounds (x : String) (index : Int64) (len : Nat)
  | emptyTape (x : String)
  | divisionByZero
  | type (fault : TypeFault)
  | missingReturn (f : String)
  | stackOverflow (depth : Nat)
deriving DecidableEq, Repr

/-- The message of a failure. -/
def RuntimeError.message : RuntimeError → String
  | .unknownFunction f => "unknown function `" ++ f ++ "`"
  | .noOverload f args => "no overload of `" ++ f ++ "` accepts (" ++ tyList args ++ ")"
  | .missingNative f => "no native implementation registered for `" ++ f ++ "`"
  | .arity f expected found =>
    "`" ++ f ++ "` expects " ++ toString expected ++ " arguments, got " ++ toString found
  | .argumentKind f param expected =>
    "argument `" ++ param ++ "` of `" ++ f ++ "` must be " ++ expected.text
  | .unbound x => "unbound variable `" ++ x ++ "`"
  | .indexOutOfBounds x index len =>
    "index " ++ toString index ++ " out of bounds for `" ++ x ++ "` of length " ++ toString len
  | .emptyTape x => "pop from empty tape `" ++ x ++ "`"
  | .divisionByZero => "integer division by zero"
  | .type fault => "type error: " ++ fault.message
  | .missingReturn f => "`" ++ f ++ "` finished without returning a value"
  | .stackOverflow depth => "call depth exceeded " ++ toString depth

/-- Why a run stops early: a failure of the program, a native function that has too few arguments
to compute from, or a loop that went on for longer than the run was granted. -/
inductive Stop where
  | fault (e : RuntimeError)
  | nativeArity (f : String)
  | outOfRounds
deriving DecidableEq, Repr

/-- The message of an early stop. -/
def Stop.message : Stop → String
  | .fault e => e.message
  | .nativeArity f => "`" ++ f ++ "` has too few arguments"
  | .outOfRounds => "a loop does not end"

end Fluxion
