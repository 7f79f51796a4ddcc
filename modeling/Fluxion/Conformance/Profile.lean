import Fluxion.Conformance.Case

/-!
The cases that every installation has to pass, in two profiles.
-/

namespace Fluxion.Conformance

/-- A polynomial in two variables. -/
def polynomialSource : String :=
  "// Directional derivative of a polynomial in two variables.\n"
    ++ "fn f(x: f64, y: f64) -> f64 \x7b\n"
    ++ "    return x * x * y + y * y;\n"
    ++ "\x7d\n"

/-- A sum of squares. -/
def squaresSource : String :=
  "// Gradient of a sum of squares.\n"
    ++ "fn f(x: f64, y: f64) -> f64 \x7b\n"
    ++ "    return x * x + y * y;\n"
    ++ "\x7d\n"

/-- The energy of a mass that moves. -/
def energySource : String :=
  "fn kinetic_energy(mass: f64, velocity: f64) -> f64 \x7b\n"
    ++ "    return 0.5 * mass * velocity * velocity;\n"
    ++ "\x7d\n"

/-- Products in an array. -/
def productsSource : String :=
  "fn fn_jacobian(i: f64, j: f64, res: [f64; 3]) \x7b\n"
    ++ "    res[0] = i * i;\n"
    ++ "    res[1] = j * j;\n"
    ++ "    res[2] = i * j;\n"
    ++ "\x7d\n"

/-- Powers by recursion. -/
def powerSource : String :=
  "fn power(x: f64, n: i64) -> f64 \x7b\n"
    ++ "    if (n == 0) \x7b\n"
    ++ "        return 1.0;\n"
    ++ "    \x7d\n"
    ++ "    return x * power(x, n - 1);\n"
    ++ "\x7d\n"

/-- A loop that overwrites what it depends on. -/
def loopSource : String :=
  "// Every iteration overwrites `acc`, so reversal needs the tape.\n"
    ++ "fn f(x: f64, n: i64) -> f64 \x7b\n"
    ++ "    let acc: f64 = x;\n"
    ++ "    for (let i: i64 = 0; i < n; i += 1) \x7b\n"
    ++ "        acc = sin(acc) * x;\n"
    ++ "    \x7d\n"
    ++ "    return acc;\n"
    ++ "\x7d\n"

/-- Recursion without an end. -/
def spinSource : String :=
  "// No path out of `spin` avoids calling it again.\n"
    ++ "fn spin(x: f64) -> f64 \x7b\n"
    ++ "    return spin(x * 0.5) + x;\n"
    ++ "\x7d\n"
    ++ "\n"
    ++ "fn f(x: f64) -> f64 \x7b\n"
    ++ "    return spin(x) * x;\n"
    ++ "\x7d\n"

/-- The state of the loop and its slope after so many rounds. -/
def loopSlope (x : Float) : Nat → Float × Float
  | 0 => (x, 1.0)
  | n + 1 =>
    let (acc, slope) := loopSlope x n
    (acc.sin * x, acc.cos * slope * x + acc.sin)

/-- One case of each kind of derivative. -/
def scenarioCases : List Case := [
  { name := "scenario_a_forward", source := polynomialSource, function := "f"
    mode := .forward, wrt := some "x"
    args := [.scalar 5.0, .scalar 3.0]
    expected := .value 30.0 },
  { name := "scenario_b_gradient", source := squaresSource, function := "f"
    mode := .reverse, wrt := some "x, y"
    args := [.scalar 3.0, .scalar 4.0, .ref 0.0, .ref 0.0]
    expected := .outputs [(2, .ref 6.0), (3, .ref 8.0)] },
  { name := "scenario_c_hessian", source := energySource, function := "kinetic_energy"
    mode := .hessian, wrt := some "mass, velocity"
    args := [.scalar 10.0, .scalar 2.0, .zeros 4]
    expected := .outputs [(2, .array [0.0, 2.0, 2.0, 10.0])] },
  { name := "scenario_d_jacobian", source := productsSource, function := "fn_jacobian"
    mode := .jacobian, wrt := none
    args := [.scalar 3.0, .scalar 5.0, .zeros 3, .zeros 6]
    expected := .outputs [(3, .array [6.0, 0.0, 0.0, 10.0, 5.0, 3.0])] }]

/-- Recursion, loops and failures. -/
def extendedCases : List Case := [
  { name := "recursion_with_base_case", source := powerSource, function := "power"
    mode := .reverse, wrt := some "x"
    args := [.scalar 1.5, .int 4, .ref 0.0]
    expected := .outputs [(2, .ref (4.0 * (1.5 * 1.5 * 1.5)))] },
  { name := "loop_overwrite_gradient", source := loopSource, function := "f"
    mode := .reverse, wrt := some "x"
    args := [.scalar 0.8, .int 3, .ref 0.0]
    expected := .outputs [(2, .ref (loopSlope 0.8 3).2)] },
  { name := "loop_overwrite_forward", source := loopSource, function := "f"
    mode := .forward, wrt := some "x"
    args := [.scalar 0.8, .int 3]
    expected := .value (loopSlope 0.8 3).2 },
  { name := "unbounded_recursion", source := spinSource, function := "f"
    mode := .reverse, wrt := none
    args := []
    expected := .failure "unbounded recursion" },
  { name := "unknown_independent", source := squaresSource, function := "f"
    mode := .reverse, wrt := some "z"
    args := []
    expected := .failure "`z`" }]

/-- Which cases to run. -/
inductive Profile where
  | scenarios
  | full
deriving DecidableEq, Repr

namespace Profile

/-- The profile of a name in small letters. -/
def ofName? : String → Option Profile
  | "scenarios" => some .scenarios
  | "full" => some .full
  | _ => none

/-- The profile as shown to the user. -/
def text : Profile → String
  | .scenarios => "Scenarios"
  | .full => "Full"

/-- The cases of a profile. -/
def cases : Profile → List Case
  | .scenarios => scenarioCases
  | .full => scenarioCases ++ extendedCases

/-- The complaints about the cases of a profile. -/
def complaints (p : Profile) : List String := p.cases.filterMap Case.complaint?

end Profile

end Fluxion.Conformance
