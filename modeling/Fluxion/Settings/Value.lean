/-!
Values of a settings file, in the notation of TOML.
-/

namespace Fluxion.Settings

/-- A value. A table is open while keys of several parts may still add to it. -/
inductive Value where
  | bool (v : Bool)
  | int (v : Int)
  | float (v : Float)
  | text (v : String)
  /-- A date, a time, or both, as written. -/
  | moment (v : String)
  | array (items : List Value)
  | table (isOpen : Bool) (entries : List (String × Value))
deriving Repr

namespace Value

/-- Adds a value to the entries of a table. A key of several parts makes tables on its way, which
stay open; what is there already is not replaced. -/
def insertAt? (v : Value) : List String → List (String × Value) → Option (List (String × Value))
  | [], _ => none
  | [key], entries =>
    if (entries.lookup key).isSome then none else some (entries ++ [(key, v)])
  | key :: path, entries =>
    match entries.lookup key with
    | none => (insertAt? v path []).map fun inner => entries ++ [(key, .table true inner)]
    | some (.table true inner) =>
      (insertAt? v path inner).map fun inner =>
        entries.map fun (k, old) => if k == key then (k, .table true inner) else (k, old)
    | some _ => none

/-- The entries of a table to which several values are added. -/
def insertAll? (entries : List (String × Value)) :
    List (List String × Value) → Option (List (String × Value))
  | [] => some entries
  | (path, v) :: rest => do insertAll? (← v.insertAt? path entries) rest

end Value

end Fluxion.Settings
