import Fluxion.Text.Position

/-!
Diagnostics: a message about a range of a source text, its one-line form, and its form with the
offending line and carets below it.
-/

namespace Fluxion

/-- How grave a diagnostic is. -/
inductive Severity where
  | error
  | warning
deriving DecidableEq, Repr

/-- The word for a severity. -/
def Severity.word : Severity → String
  | .error => "error"
  | .warning => "warning"

/-- A message about a byte range of a source text, from one phase of loading it. -/
structure Diagnostic where
  phase : String
  code : String
  severity : Severity
  message : String
  span : Span
  location : Text.Location
deriving DecidableEq, Repr

namespace Diagnostic

/-- An error about a range of `source`. -/
def error (source phase code : String) (span : Span) (message : String) : Diagnostic :=
  ⟨phase, code, .error, message, span, Text.locate source span.start⟩

/-- The one-line form. -/
def text (d : Diagnostic) : String :=
  d.severity.word ++ "[" ++ d.code ++ "] " ++ toString d.location.line ++ ":"
    ++ toString d.location.col ++ ": " ++ d.message

/-- How many carets mark the range: as many bytes as it has on its line, and at least one. -/
def caretCount (lineBytes column length : Nat) : Nat :=
  min (max length 1) (max (lineBytes - column) 1)

/-- The form with the source line and carets; none when the range begins inside a character. -/
def render? (source : String) (d : Diagnostic) : Option String := do
  let (line, begins) ← Text.lineAround? source d.span.start
  let column := d.span.start - begins
  let carets := caretCount line.utf8ByteSize column (d.span.stop - d.span.start)
  return d.severity.word ++ "[" ++ d.code ++ "]: " ++ d.message ++ "\n--> line "
    ++ toString d.location.line ++ ", col " ++ toString d.location.col ++ "\n" ++ line ++ "\n"
    ++ "".pushn ' ' column ++ "".pushn '^' carets

end Diagnostic

end Fluxion
