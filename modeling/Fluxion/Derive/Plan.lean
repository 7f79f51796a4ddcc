import Fluxion.Derive.Pullback
import Fluxion.Derive.Pushforward

/-!
How calls are differentiated: by a derivative that the source gives, else by one derived from the
body of the function, else numerically. Derivations nest, and how many may be under way at once
bounds the recursion.
-/

namespace Fluxion.Derive

open Library (DerivativeKind)

/-- A derivative that is under way, with the name it will have. -/
structure UnderWay where
  key : Key
  name : String
deriving DecidableEq, Repr

/-- Derivatives under way, outermost first. -/
abbrev Chain := List UnderWay

/-- The functions of a chain. -/
def Chain.functions (c : Chain) : List String := c.map (·.key.primal.name)

/-- The function can be differentiated numerically. -/
def isNumerical (f : Func) : Bool :=
  f.ret == .float && f.params.all fun p => p.ty == .float || p.ty == .int

/-- How calls of a function are differentiated, where `derive` derives from its body. -/
def choose (s : Setting) (derive : DerivativeKind → Func → Derivation String) (kind : DerivativeKind)
    (callee : Func) (caller : String) : Derivation CallPlan :=
  if !callee.params.any (·.ty.isDifferentiable) then return .inactive
  else
    match s.registry.get? kind callee.signature with
    | some custom => return .custom custom.name
    | none =>
      if callee.body.isSome then
        tryCatch (do return .derived (← derive kind callee)) fun
          | .unsupported f o =>
            if isNumerical callee && s.options.numericalFallback then return .numerical
            else throw (.unsupported f o)
          | e => throw e
      else if !isNumerical callee then unsupported caller (.notNumerical callee.signature)
      else if !s.options.numericalFallback then
        unsupported caller (.fallbackDisabled callee.signature)
      else return .numerical

/-- Decides about calls of a function once, and warns each caller of a numerical derivative. -/
def planWith (s : Setting) (derive : DerivativeKind → Func → Derivation String) : Planner :=
  fun kind callee caller => do
    let key : Key := ⟨kind, callee.signature⟩
    let plan ← match (← get).plans.lookup key with
      | some plan => pure plan
      | none => do
        let plan ← choose s derive kind callee caller
        modify (·.setPlan key plan)
        pure plan
    if plan = .numerical then modify (·.warn ⟨caller, callee.name⟩)
    return plan

/-- A call that leads back to a derivative under way, the first of the given ones. It is taken if
the function can return without calling any function of the cycle. -/
def closeCycle (cycle : Chain) (name : String) (callee : Func) : Derivation String :=
  let ends := callee.body.any (Analysis.exitsCleanly cycle.functions.contains)
  if ends then return name
  else throw (.unboundedRecursion callee.name (cycle.functions ++ [callee.name]))

/-- What follows the name of a function in that of its derivative. -/
def kindWord : DerivativeKind → String
  | .pushforward => "pushforward"
  | .pullback => "pullback"

/-- Derives from the body of a function. -/
def synthesize (s : Setting) (plan : Planner) (kind : DerivativeKind) (callee : Func)
    (name : String) : Derivation Func :=
  match kind with
  | .pushforward => pushforward s plan callee name
  | .pullback => pullback s plan callee name

/-- The name of a derivative that is there already or under way. -/
def known? (chain : Chain) (key : Key) (callee : Func) : Derivation (Option String) := do
  match (← get).memo.lookup key with
  | some name => return some name
  | none =>
    match chain.dropWhile (·.key != key) with
    | [] => return none
    | u :: rest => return some (← closeCycle (u :: rest) u.name callee)

/-- The name of a derivative of a function, which is derived if need be; so many more derivatives
may be under way. -/
def deriveAt (s : Setting) : Nat → Chain → DerivativeKind → Func → Derivation String
  | 0, chain, kind, callee => do
    match ← known? chain ⟨kind, callee.signature⟩ callee with
    | some name => return name
    | none => throw (.depthLimit s.options.maxDepth (chain.functions ++ [callee.name]))
  | depth + 1, chain, kind, callee => do
    let key : Key := ⟨kind, callee.signature⟩
    match ← known? chain key callee with
    | some name => return name
    | none => do
      let name ← functionName (callee.name ++ "_" ++ kindWord kind)
      let plan := planWith s (deriveAt s depth (chain ++ [⟨key, name⟩]))
      let f ← orDiscard (synthesize s plan kind callee name)
      modify fun p => (p.setMemo key name).addSupport f
      return name

/-- The name of a derivative of a function when none is under way. -/
def derive (s : Setting) : DerivativeKind → Func → Derivation String :=
  deriveAt s s.options.maxDepth []

/-- Decides about calls when no derivative is under way. -/
def planner (s : Setting) : Planner := planWith s (derive s)

end Fluxion.Derive
