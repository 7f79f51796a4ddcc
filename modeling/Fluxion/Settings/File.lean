import Fluxion.Decimal.Layout
import Fluxion.Derive.Options
import Fluxion.Settings.Reader

/-!
The settings file. All settings are in one table, `engine`, which is written under a header, by
keys that begin with its name, or as a value: a table in braces, or an array of the settings in
their order.
-/

namespace Fluxion.Settings

open Derive (Options)

/-- The file that is read when none is named. -/
def defaultFile : String := "adsynth.toml"

/-- The table of the settings. -/
def tableName : String := "engine"

/-- A statement of the file. -/
inductive Statement where
  | header (path : List String)
  | entry (path : List String) (v : Value)

/-- The text after the end of a line, before which blanks and a comment may stand. The file may
end instead. -/
def dropLineEnd? (inComment : Bool) : List Char → Option (List Char)
  | [] => some []
  | '\r' :: '\n' :: rest => some rest
  | c :: rest =>
    if c == '\n' then some rest
    else if inComment then if isPlain c then dropLineEnd? true rest else none
    else if c == '#' then dropLineEnd? true rest
    else if isGap c then dropLineEnd? false rest
    else none

/-- A statement, and what follows on its line. -/
def takeStatement? (text : List Char) : Option (Statement × List Char) :=
  match text with
  | '[' :: rest => do
    let (path, rest) ← takeKey? rest
    return (.header path, ← dropChar? ']' rest)
  | text => do
    let ((path, v), rest) ← takeEntry? takeValue? text
    return (.entry path v, rest)

/-- At most so many statements, each on a line of its own. -/
def statements? : Nat → List Char → Option (List Statement)
  | 0, _ => none
  | limit + 1, text =>
    match text.dropWhile isGap with
    | [] => some []
    | c :: rest =>
      if c == '#' || c == '\n' || c == '\r' then do
        statements? limit (← dropLineEnd? false (c :: rest))
      else do
        let (statement, rest) ← takeStatement? (c :: rest)
        return statement :: (← statements? limit (← dropLineEnd? false rest))

/-- How the table came about. -/
inductive Origin where
  | missing
  | header
  | keys
  | value
deriving DecidableEq, Repr

/-- What a file has given so far. -/
structure Reading where
  origin : Origin
  engine : Value

namespace Reading

/-- Nothing is given. -/
def start : Reading := ⟨.missing, .table false []⟩

/-- Adds a setting to the table. -/
def insert? (r : Reading) (path : List String) (v : Value) : Option Reading :=
  match r.engine with
  | .table isOpen entries =>
    (v.insertAt? path entries).map fun entries => { r with engine := .table isOpen entries }
  | _ => none

/-- Takes a statement. After its header, all entries belong to the table. -/
def add? (r : Reading) : Statement → Option Reading
  | .header path =>
    if path = [tableName] ∧ r.origin = .missing then some { r with origin := .header } else none
  | .entry path v =>
    match r.origin, path with
    | .header, path => r.insert? path v
    | .missing, [t] => if t = tableName then some ⟨.value, v⟩ else none
    | .missing, t :: path =>
      if t = tableName then ({ r with origin := .keys }).insert? path v else none
    | .keys, t :: path => if t = tableName then r.insert? path v else none
    | _, _ => none

/-- Takes all statements. -/
def addAll? (r : Reading) : List Statement → Option Reading
  | [] => some r
  | s :: rest => do (← r.add? s).addAll? rest

end Reading

/-- Changes a setting; an integer will do for a float. -/
def change? (o : Options) (key : String) (v : Value) : Option Options :=
  match key, v with
  | "numerical-fallback", .bool b => some { o with numericalFallback := b }
  | "print-numerical-errors", .bool b => some { o with printNumericalErrors := b }
  | "max-derivation-depth", .int n => if n < 0 then none else some { o with maxDepth := n.toNat }
  | "machine-epsilon", .float x => some { o with machineEpsilon := x }
  | "machine-epsilon", .int n => some { o with machineEpsilon := (Int64.ofInt n).toFloat }
  | _, _ => none

/-- Changes several settings. -/
def changeAll? (o : Options) : List (String × Value) → Option Options
  | [] => some o
  | (key, v) :: rest => do changeAll? (← change? o key v) rest

/-- The settings in their order. -/
def settingNames : List String :=
  ["numerical-fallback", "print-numerical-errors", "max-derivation-depth", "machine-epsilon"]

/-- The settings that a value gives; those that are left out are the standard ones. Of an array,
items after the last setting do not count. -/
def options? : Value → Option Options
  | .table _ entries => changeAll? .standard entries
  | .array items => changeAll? .standard (settingNames.zip items)
  | _ => none

/-- The text without a mark of its byte order. -/
def withoutMark : List Char → List Char
  | '\ufeff' :: rest => rest
  | text => text

/-- Reads the settings from the text of a file. -/
def read? (text : String) : Option Options := do
  let text := withoutMark text.toList
  let r ← Reading.start.addAll? (← statements? (text.length + 1) text)
  options? r.engine

/-- Why settings cannot be had. -/
inductive SettingsError where
  | missing (path : String)
  | malformed (path : String)
  | epsilon (v : Float)
deriving Repr

/-- The complaint about a file that is not there. -/
def noSuchFile : String := "No such file or directory (os error 2)"

/-- What a failure comes from, where its message goes on to say it. -/
def SettingsError.cause? : SettingsError → Option String
  | .missing _ => some noSuchFile
  | .malformed _ => none
  | .epsilon _ => none

/-- The message of a failure. -/
def SettingsError.message : SettingsError → String
  | .missing path => "failed to read " ++ path ++ ": " ++ noSuchFile
  | .malformed path => "invalid configuration in " ++ path
  | .epsilon v =>
    "machine-epsilon must be positive and finite, got " ++ Decimal.render .plain v

/-- Settings have to make sense: an error is positive and finite. -/
def validate (o : Options) : Except SettingsError Options :=
  if 0.0 < o.machineEpsilon && o.machineEpsilon < 1.0 / 0.0 then .ok o
  else .error (.epsilon o.machineEpsilon)

/-- The settings in a file, given what it holds if it is there. -/
def load (path : String) (text : Option String) : Except SettingsError Options :=
  match text with
  | none => .error (.missing path)
  | some text =>
    match read? text with
    | none => .error (.malformed path)
    | some o => validate o

/-- The settings in the default file, or the standard ones if it is not there. -/
def discover (text : Option String) : Except SettingsError Options :=
  match text with
  | none => .ok .standard
  | some text => load defaultFile (some text)

/-- The settings as the text of a file. -/
def text (o : Options) : String :=
  "[" ++ tableName ++ "]\nnumerical-fallback = " ++ toString o.numericalFallback
    ++ "\nprint-numerical-errors = " ++ toString o.printNumericalErrors
    ++ "\nmax-derivation-depth = " ++ toString o.maxDepth
    ++ "\nmachine-epsilon = " ++ Decimal.render .setting o.machineEpsilon ++ "\n"

end Fluxion.Settings
