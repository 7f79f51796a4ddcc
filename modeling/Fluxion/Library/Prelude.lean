import Fluxion.Lang.Printer

/-!
The library that stands in front of every program: mathematical functions, which are native, and
their derivatives. The derivatives are functions like any other, so they can be differentiated
again.
-/

namespace Fluxion.Library

/-- The namespace of derivatives that are given and not derived. -/
def derivativeSpace : String := "custom_derivatives"

/-! ### Native functions -/

/-- A native function of floats. -/
def native (name : String) (params : List String) : Func where
  name := name
  params := params.map (⟨·, .float⟩)
  ret := .float
  body := none
  span := ⟨0, 0⟩

/-- The native functions. -/
def natives : List Func := [
  native "sin" ["x"], native "cos" ["x"], native "tan" ["x"], native "exp" ["x"],
  native "log" ["x"], native "sqrt" ["x"], native "pow" ["x", "y"], native "abs" ["x"],
  native "tanh" ["x"], native "sinh" ["x"], native "cosh" ["x"], native "atan" ["x"],
  native "floor" ["x"]]

/-! ### Their derivatives -/

/-- The variables of the derivatives. -/
def x : Expr := .var "x"

/-- The second argument. -/
def y : Expr := .var "y"

/-- Tangent or adjoint of the first argument. -/
def dx : Expr := .var "_d_x"

/-- Tangent of the second argument, or the adjoint of the result. -/
def dy : Expr := .var "_d_y"

/-- The adjoint of the result where `_d_y` is that of an argument. -/
def dret : Expr := .var "_d_ret"

/-- The product `l * r`. -/
def product (l r : Expr) : Expr := .binary .mul l r

/-- The quotient `l / r`. -/
def quotient (l r : Expr) : Expr := .binary .div l r

/-- The call `f(x)`. -/
def ofX (f : String) : Expr := .call f [x]

/-- The statement `_d_x += e;`. -/
def addToDx (e : Expr) : Stmt := .update (.var "_d_x") .add e

/-- The statement `_d_x -= e;`. -/
def subFromDx (e : Expr) : Stmt := .update (.var "_d_x") .sub e

/-- The statement `return e;`. -/
def give (e : Expr) : Stmt := .ret (some e)

/-- Pushforward and pullback of a function. -/
structure Pair where
  pushforward : Func
  pullback : Func

/-- The full name of a derivative. -/
def derivativeName (function ending : String) : String :=
  derivativeSpace ++ "::" ++ function ++ ending

/-- The derivatives of a function of one variable. -/
def unary (name : String) (pushforward pullback : List Stmt) : Pair where
  pushforward :=
    ⟨derivativeName name "_pushforward", [⟨"x", .float⟩, ⟨"_d_x", .float⟩], .float,
      some pushforward, ⟨0, 0⟩⟩
  pullback :=
    ⟨derivativeName name "_pullback", [⟨"x", .float⟩, ⟨"_d_y", .float⟩, ⟨"_d_x", .ref .float⟩],
      .void, some pullback, ⟨0, 0⟩⟩

/-- The derivatives of a function of one variable that is `rate` per unit of its argument. -/
def scaled (name : String) (rate : Expr) : Pair :=
  unary name [give (product rate dx)] [addToDx (product rate dy)]

/-- The derivatives of a function of one variable that is one per `rate` of its argument. -/
def divided (name : String) (rate : Expr) : Pair :=
  unary name [give (quotient dx rate)] [addToDx (quotient dy rate)]

/-- The tangent of a cosine is `-sin(x) * _d_x`. -/
def cosPair : Pair :=
  unary "cos" [give (product (.unary .neg (ofX "sin")) dx)] [subFromDx (product (ofX "sin") dy)]

/-- The tangent of a root is `0.5 * _d_x / sqrt(x)`. -/
def sqrtPair : Pair :=
  unary "sqrt" [give (quotient (product (.float 0.5) dx) (ofX "sqrt"))]
    [addToDx (quotient (product (.float 0.5) dy) (ofX "sqrt"))]

/-- The rate `y * pow(x, y - 1.0)`, that of a power in its base. -/
def powBaseRate : Expr := product y (.call "pow" [x, .binary .sub y (.float 1.0)])

/-- The rate `pow(x, y) * log(x)`, that of a power in its exponent. -/
def powExponentRate : Expr := product (.call "pow" [x, y]) (ofX "log")

/-- The rate of a power in its exponent exists only for a positive base. -/
def ifPositiveBase (s : Stmt) : Stmt := .cond (.binary .gt x (.float 0.0)) [s] []

/-- The derivatives of a power in base and exponent. -/
def powPair : Pair where
  pushforward :=
    ⟨derivativeName "pow" "_pushforward",
      [⟨"x", .float⟩, ⟨"y", .float⟩, ⟨"_d_x", .float⟩, ⟨"_d_y", .float⟩], .float,
      some [
        .let_ "d" .float (some (product powBaseRate dx)),
        ifPositiveBase (.update (.var "d") .add (product powExponentRate dy)),
        give (.var "d")],
      ⟨0, 0⟩⟩
  pullback :=
    ⟨derivativeName "pow" "_pullback",
      [⟨"x", .float⟩, ⟨"y", .float⟩, ⟨"_d_ret", .float⟩, ⟨"_d_x", .ref .float⟩,
       ⟨"_d_y", .ref .float⟩],
      .void,
      some [
        addToDx (product powBaseRate dret),
        ifPositiveBase (.update (.var "_d_y") .add (product powExponentRate dret))],
      ⟨0, 0⟩⟩

/-- The absolute value turns the direction of negative numbers. -/
def absPair : Pair :=
  let negative : Expr := .binary .lt x (.float 0.0)
  unary "abs"
    [.cond negative [give (.unary .neg dx)] [], give dx]
    [.cond negative [subFromDx dy] [addToDx dy]]

/-- The square `cos(x) * cos(x)`. -/
def cosSquared : Expr := product (ofX "cos") (ofX "cos")

/-- The rate `1.0 - tanh(x) * tanh(x)`. -/
def tanhRate : Expr := .binary .sub (.float 1.0) (product (ofX "tanh") (ofX "tanh"))

/-- The sum `1.0 + x * x`. -/
def atanRate : Expr := .binary .add (.float 1.0) (product x x)

/-- The derivatives of the functions before powers. -/
def pairsBeforePow : List Pair := [
  scaled "sin" (ofX "cos"), cosPair, divided "tan" cosSquared, scaled "exp" (ofX "exp"),
  divided "log" x, sqrtPair]

/-- The derivatives of powers and the functions after them. -/
def pairsFromPow : List Pair := [
  powPair, absPair, scaled "tanh" tanhRate, scaled "sinh" (ofX "cosh"),
  scaled "cosh" (ofX "sinh"), divided "atan" atanRate, unary "floor" [give (.float 0.0)] []]

/-! ### The library as a text -/

/-- A function in the text of the library. Its range ends after `blank` characters that hold no
code, and the line of the next function begins `skip` characters on. -/
structure Placed where
  func : Func
  depth : Nat
  blank : Nat
  skip : Nat

/-- Gives each function its range in the text, in which the first line begins at `offset`. -/
def place (offset : Nat) : List Placed → Program
  | [] => []
  | p :: rest =>
    let width := (p.func.textAt p.func.baseName p.depth).length
    { p.func with span := ⟨offset + 4 * p.depth, offset + width + p.blank⟩ }
      :: place (offset + width + p.skip) rest

/-- A pair of derivatives with `gap` characters of comment and blank lines after it. -/
def Pair.placed (gap : Nat) (p : Pair) : List Placed :=
  [⟨p.pushforward, 1, 4, 0⟩, ⟨p.pullback, 1, gap + 4, gap⟩]

/-- The line before the derivatives. -/
def spaceLine : String := "namespace " ++ derivativeSpace ++ " \x7b\n"

/-- The line before the derivatives of powers. -/
def powLine : String := "    // d/dy x^y = x^y ln x only exists for x > 0.\n"

/-- All but the last of a list, and the last, changed in their own ways. -/
def mapLast {α β : Type} (f g : α → β) : List α → List β
  | [] => []
  | [a] => [g a]
  | a :: rest => f a :: mapLast f g rest

/-- The natives line by line. An empty line divides them from the derivatives, and pairs of
derivatives from each other. -/
def placed : List Placed :=
  mapLast (fun f => ⟨f, 0, 0, 0⟩) (fun f => ⟨f, 0, 1, 1 + spaceLine.length⟩) natives
    ++ (mapLast (Pair.placed 1) (Pair.placed (1 + powLine.length)) pairsBeforePow).flatten
    ++ (mapLast (Pair.placed 1)
      (fun p => [⟨p.pushforward, 1, 4, 0⟩, ⟨p.pullback, 1, 0, 0⟩]) pairsFromPow).flatten

/-- The library. -/
def prelude : Program := place 1 placed

end Fluxion.Library
