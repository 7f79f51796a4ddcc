/-!
Command lines as words: files, options with a value, flags, and at most one command, which takes
the words after it.
-/

namespace Fluxion.Command

/-- What a command line may hold. -/
structure Shape where
  /-- Options that take a value. -/
  valued : List String
  /-- Those of them whose value may begin with a dash. -/
  dashed : List String
  flags : List String
  commands : List String
  /-- How many files may be named. -/
  files : Nat

/-- What a command line holds. -/
structure Words where
  files : List String
  values : List (String × String)
  flags : List String
  /-- The command and the words after it. -/
  command : Option (String × List String)
deriving DecidableEq, Repr

namespace Words

/-- Nothing. -/
def empty : Words := ⟨[], [], [], none⟩

/-- The value of an option. -/
def value? (w : Words) (option : String) : Option String := w.values.lookup option

/-- Adds a file, if there is room. -/
def addFile? (w : Words) (s : Shape) (file : String) : Option Words :=
  if w.files.length < s.files then some { w with files := w.files ++ [file] } else none

/-- Adds several files. -/
def addFiles? (w : Words) (s : Shape) : List String → Option Words
  | [] => some w
  | file :: rest => do (← w.addFile? s file).addFiles? s rest

/-- Gives an option its value, which can be done once. -/
def addValue? (w : Words) (option value : String) : Option Words :=
  if (w.value? option).isSome then none else some { w with values := (option, value) :: w.values }

/-- Sets a flag, which can be done once. -/
def addFlag? (w : Words) (flag : String) : Option Words :=
  if w.flags.contains flag then none else some { w with flags := flag :: w.flags }

end Words

/-- A word that is an option by its looks. A dash alone is none. -/
def isDashed (word : String) : Bool := word.startsWith "-" && word != "-"

/-- A word of the form `option=value`, taken apart. -/
def assignment? (word : String) : Option (String × String) :=
  match word.toList.dropWhile (· != '=') with
  | [] => none
  | _ :: value => some (String.ofList (word.toList.takeWhile (· != '=')), String.ofList value)

/-- Reads words. After a `--` all are files. -/
def readWords (s : Shape) (w : Words) : List String → Option Words
  | [] => some w
  | word :: rest =>
    if word = "--" then w.addFiles? s rest
    else if s.flags.contains word then do readWords s (← w.addFlag? word) rest
    else if s.valued.contains word then
      match rest with
      | [] => none
      | value :: rest =>
        if isDashed value && !s.dashed.contains word then none
        else do readWords s (← w.addValue? word value) rest
    else if isDashed word then
      match assignment? word with
      | some (option, value) =>
        if s.valued.contains option then do readWords s (← w.addValue? option value) rest
        else none
      | none => none
    else if s.commands.contains word then some { w with command := some (word, rest) }
    else do readWords s (← w.addFile? s word) rest

end Fluxion.Command
