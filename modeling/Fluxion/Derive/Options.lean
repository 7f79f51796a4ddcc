/-!
Settings of differentiation.
-/

namespace Fluxion.Derive

/-- What the user may set. -/
structure Options where
  /-- Calls without a derivative are differentiated numerically. -/
  numericalFallback : Bool
  /-- Numerical derivatives report their error bounds when they are computed. -/
  printNumericalErrors : Bool
  /-- How many derivatives may be under way at once. -/
  maxDepth : Nat
  /-- The relative error of one operation, for error estimates. -/
  machineEpsilon : Float
deriving Repr

namespace Options

/-- The settings when nothing is said. -/
def standard : Options where
  numericalFallback := true
  printNumericalErrors := false
  maxDepth := 64
  machineEpsilon := 2.220446049250313e-16

/-- Two settings agree. -/
def same (a b : Options) : Bool :=
  a.numericalFallback == b.numericalFallback && a.printNumericalErrors == b.printNumericalErrors
    && a.maxDepth == b.maxDepth && a.machineEpsilon == b.machineEpsilon

end Options

end Fluxion.Derive
