import Fluxion.Eval.Fault
import Fluxion.Eval.Value

/-!
Storage of a run. Scalars live in cells; arrays and tapes are kept whole. A scope gives back on
exit, also by a failure, all that was allocated inside it.
-/

namespace Fluxion

/-- An array or a tape. -/
structure Buffer (K : Type) where
  elem : Ty
  data : Array (Value K)
deriving Repr

/-- The storage of a run. -/
structure Store (K : Type) where
  cells : Array (Value K)
  arrays : Array (Buffer K)
  tapes : Array (Buffer K)
deriving Repr

/-- Where a scalar is stored. -/
inductive Slot where
  | cell (i : Nat)
  | element (array i : Nat)
deriving DecidableEq, Repr

/-- What a variable stands for. -/
inductive Binding where
  | scalar (slot : Slot)
  | array (id : Nat)
  | tape (id : Nat)
deriving DecidableEq, Repr

/-- The variables in scope; of several entries for a name the first counts. -/
abbrev Env := List (String × Binding)

/-- What an expression gives to a call. -/
inductive Operand (K : Type) where
  | value (v : Value K)
  | place (slot : Slot) (v : Value K)
  | array (id : Nat)
  | tape (id : Nat)
deriving Repr

/-- What a parameter is bound to. -/
inductive Bound (K : Type) where
  | value (v : Value K)
  | slot (s : Slot)
  | array (id : Nat)
  | tape (id : Nat)
deriving Repr

namespace Store

variable {K : Type}

/-- Nothing is stored. -/
def empty : Store K := ⟨#[], #[], #[]⟩

/-- What a slot holds. -/
def read (s : Store K) : Slot → Value K
  | .cell i => s.cells[i]?.getD (.bool false)
  | .element a i => (s.arrays[a]?.bind fun b => b.data[i]?).getD (.bool false)

/-- The array of a number. -/
def array (s : Store K) (id : Nat) : Buffer K := s.arrays[id]?.getD ⟨.void, #[]⟩

/-- The tape of a number. -/
def tape (s : Store K) (id : Nat) : Buffer K := s.tapes[id]?.getD ⟨.void, #[]⟩

/-- Puts a value into a slot; it takes on the type of what was there. -/
def write [Scalar K] (s : Store K) (slot : Slot) (v : Value K) : Store K :=
  match slot with
  | .cell i => { s with cells := s.cells.modify i fun old => v.coerce old.ty }
  | .element a i =>
    { s with arrays := s.arrays.modify a fun b =>
        { b with data := b.data.modify i fun old => v.coerce old.ty } }

/-- Adds a value on top of a tape. -/
def push [Scalar K] (s : Store K) (id : Nat) (v : Value K) : Store K :=
  { s with tapes := s.tapes.modify id fun b => { b with data := b.data.push (v.coerce b.elem) } }

/-- Drops the value on top of a tape. -/
def drop (s : Store K) (id : Nat) : Store K :=
  { s with tapes := s.tapes.modify id fun b => { b with data := b.data.pop } }

/-- How much is stored. -/
structure Marks where
  cells : Nat
  arrays : Nat
  tapes : Nat
deriving DecidableEq, Repr

/-- How much is stored. -/
def marks (s : Store K) : Marks := ⟨s.cells.size, s.arrays.size, s.tapes.size⟩

/-- Gives back all that was allocated since the marks were taken. -/
def release (s : Store K) (m : Marks) : Store K :=
  ⟨s.cells.take m.cells, s.arrays.take m.arrays, s.tapes.take m.tapes⟩

end Store

/-- Computations on the storage. It survives a failure. -/
abbrev Exec (K : Type) := EStateM Stop (Store K)

namespace Exec

variable {K : Type}

/-- Fails. -/
def fail {α : Type} (e : RuntimeError) : Exec K α := throw (.fault e)

/-- Fails with a value or binding of the wrong type. -/
def mistyped {α : Type} (f : TypeFault) : Exec K α := fail (.type f)

/-- The value, unless there is none. -/
def require {α : Type} (e : RuntimeError) : Option α → Exec K α
  | some a => pure a
  | none => fail e

/-- Runs with a scope of its own. -/
def inScope {α : Type} (m : Exec K α) : Exec K α := fun s =>
  let marks := s.marks
  match m s with
  | .ok a s => .ok a (s.release marks)
  | .error e s => .error e (s.release marks)

/-- What a slot holds. -/
def read (slot : Slot) : Exec K (Value K) := return (← get).read slot

/-- Puts a value into a slot. -/
def write [Scalar K] (slot : Slot) (v : Value K) : Exec K Unit := modify (·.write slot v)

/-- A new cell. -/
def newCell (v : Value K) : Exec K Slot :=
  modifyGet fun s => (.cell s.cells.size, { s with cells := s.cells.push v })

/-- A new array. -/
def newArray (b : Buffer K) : Exec K Nat :=
  modifyGet fun s => (s.arrays.size, { s with arrays := s.arrays.push b })

/-- A new tape. -/
def newTape (b : Buffer K) : Exec K Nat :=
  modifyGet fun s => (s.tapes.size, { s with tapes := s.tapes.push b })

end Exec

end Fluxion
