import Fluxion.Lang.Func

/-!
A supply of names. It remembers every name that is taken and gives out the first free one of a
series; the names taken bound the search.
-/

namespace Fluxion

/-- The names that are taken. -/
structure NameSupply where
  used : List String
deriving Repr, Inhabited

namespace NameSupply

/-- Nothing is taken. -/
def empty : NameSupply := ⟨[]⟩

/-- The name is taken. -/
def isUsed (s : NameSupply) (name : String) : Bool := s.used.contains name

/-- Takes a name, which may be taken already. -/
def reserve (s : NameSupply) (name : String) : NameSupply :=
  if s.isUsed name then s else ⟨name :: s.used⟩

/-- Takes several names. -/
def reserveAll (s : NameSupply) (names : List String) : NameSupply := names.foldl reserve s

/-- The names of the parameters and of all locals of a function are taken. -/
def ofFunc (f : Func) : NameSupply :=
  empty.reserveAll ((f.params.map (·.name)) ++ (declaredIn f.stmts).map (·.1))

/-- The first free name of a series from `n` on, of which at most `limit` are skipped. -/
def firstFree (s : NameSupply) (series : Nat → String) (n : Nat) : Nat → String
  | 0 => series n
  | limit + 1 => if s.isUsed (series n) then s.firstFree series (n + 1) limit else series n

/-- Takes the first free name of a series. -/
def take (s : NameSupply) (series : Nat → String) : String × NameSupply :=
  let name := s.firstFree series 0 s.used.length
  (name, ⟨name :: s.used⟩)

/-- The series `base`, `base_1`, `base_2`, … -/
def variant (base : String) : Nat → String
  | 0 => base
  | n + 1 => base ++ "_" ++ toString (n + 1)

/-- Takes `base` or else the first free of `base_1`, `base_2`, … -/
def fresh (s : NameSupply) (base : String) : String × NameSupply := s.take (variant base)

/-- Takes the first free of `stem0`, `stem1`, … -/
def numbered (s : NameSupply) (stem : String) : String × NameSupply :=
  s.take fun n => stem ++ toString n

end NameSupply

end Fluxion
