import Fluxion.Request.Request

/-!
What can keep a function from being differentiated, and what is worth a warning.
-/

namespace Fluxion.Derive

/-- Something that no rule of differentiation covers. -/
inductive Obstacle where
  | noBody
  | noPushforward
  | noPullback
  | forwardResult (t : Ty)
  | noIndependent
  | noOverload (f : String)
  | tapeInExpression (f : String)
  | effectInExpression (f : String)
  | arrayAlias (x : String)
  | estimateAgain
  | argumentPlace (param : String)
  | noTangent (x : String)
  | notNumerical (s : Signature)
  | fallbackDisabled (s : Signature)
  | returnInLoop
  | tapeReversed (f : String)
  | localType (x : String) (t : Ty)
  | arrayDeclared (x : String)
  | unknownVariable (x : String)
  | intrinsicReversed (f : String)
  | arrayNoAdjoint (f : String)
  | refNoAdjoint (f : String)
  | refPlace (f : String)
  | arrayWritten (f : String)
  | arrayPlace (f : String)
  | missingRange
  | noOutputs
  | outputType (x : String)
  | noAdjoint (x : String)
deriving DecidableEq, Repr

/-- The message of an obstacle. -/
def Obstacle.message : Obstacle → String
  | .noBody => "function has no body"
  | .noPushforward => "function has no body and no custom pushforward"
  | .noPullback => "function has no body and no custom pullback"
  | .forwardResult t => "forward mode needs an f64 result, found " ++ t.text
  | .noIndependent => "no independent variable"
  | .noOverload f => "no overload of `" ++ f ++ "` accepts these arguments"
  | .tapeInExpression f => "`" ++ f ++ "` cannot appear inside a differentiated expression"
  | .effectInExpression f =>
    "`" ++ f ++ "` writes through its reference or array parameters and may only be called as a statement"
  | .arrayAlias x => "array alias `" ++ x ++ "` of an untracked array"
  | .estimateAgain => "a numerical derivative estimate cannot be differentiated again"
  | .argumentPlace param => "argument for `" ++ param ++ "` must be a variable"
  | .noTangent x => "`" ++ x ++ "` has no tangent to pass by reference"
  | .notNumerical s =>
    "`" ++ s.text
      ++ "` has no body, no custom derivative and does not qualify for numerical differentiation"
  | .fallbackDisabled s => "`" ++ s.text ++ "` has no derivative and numerical fallback is disabled"
  | .returnInLoop => "`return` inside a loop cannot be reversed"
  | .tapeReversed f => "`" ++ f ++ "` is not supported in reverse mode"
  | .localType x t => "local `" ++ x ++ "` of type " ++ t.text ++ " cannot be reversed"
  | .arrayDeclared x => "array `" ++ x ++ "` is declared inside a branch or loop"
  | .unknownVariable x => "unknown variable `" ++ x ++ "`"
  | .intrinsicReversed f => "`" ++ f ++ "` cannot be differentiated in reverse mode"
  | .arrayNoAdjoint f => "array argument to `" ++ f ++ "` has no adjoint"
  | .refNoAdjoint f => "reference argument to `" ++ f ++ "` has no adjoint"
  | .refPlace f => "reference argument to `" ++ f ++ "` must be a variable"
  | .arrayWritten f => "`" ++ f ++ "` writes an array argument inside a branch or loop"
  | .arrayPlace f => "array argument to `" ++ f ++ "` must be a variable"
  | .missingRange => "every array independent needs an element range"
  | .noOutputs => "no array parameter is written"
  | .outputType x => "output `" ++ x ++ "` is not differentiable"
  | .noAdjoint x => "`" ++ x ++ "` has no adjoint"

/-- Why differentiation fails. -/
inductive DeriveError where
  | request (e : Request.RequestError)
  | unsupported (function : String) (obstacle : Obstacle)
  | unboundedRecursion (callee : String) (chain : List String)
  | depthLimit (limit : Nat) (chain : List String)
  | functionNotFound (name : String)
deriving Repr

/-- The message of a failure. -/
def DeriveError.message : DeriveError → String
  | .request e => e.message
  | .unsupported f o => "cannot differentiate `" ++ f ++ "`: " ++ o.message
  | .unboundedRecursion callee chain =>
    "unbounded recursion while differentiating `" ++ callee ++ "` (via "
      ++ " -> ".intercalate chain ++ ")"
  | .depthLimit limit chain =>
    "derivation depth limit " ++ toString limit ++ " exceeded (via " ++ " -> ".intercalate chain
      ++ ")"
  | .functionNotFound name => "function `" ++ name ++ "` not found"

/-- A call was differentiated numerically. -/
structure Warning where
  function : String
  callee : String
deriving DecidableEq, Repr

/-- The text of a warning. -/
def Warning.text (w : Warning) : String :=
  "`" ++ w.function ++ "` calls `" ++ w.callee
    ++ "`, which has no derivative; using a numerical estimate"

end Fluxion.Derive
