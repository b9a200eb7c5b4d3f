import CilScope.Source.Position

/-!
# Diagnostics

What a compiler says about a snippet. A diagnostic on the source names its file and position; one
on the command line has neither.
-/

namespace CilScope

/-- How grave a diagnostic is. -/
inductive Severity
  | warning
  | error
  deriving DecidableEq, Repr, Inhabited

/-- The word for a severity. -/
def Severity.text : Severity → String
  | warning => "warning"
  | error => "error"

/-- Where in which file. -/
structure Place where
  file : String
  position : Source.Position
  deriving DecidableEq, Repr, Inhabited

/-- One message of a compiler. -/
structure Diagnostic where
  severity : Severity
  code : String
  message : String
  place : Option Place := none
  deriving DecidableEq, Repr, Inhabited

namespace Diagnostic

/-- Whether the diagnostic stops the compilation. -/
def isError (d : Diagnostic) : Bool := d.severity = .error

/-- Severity, code and message. -/
def headline (d : Diagnostic) : String := d.severity.text ++ " " ++ d.code ++ ": " ++ d.message

/-- The diagnostic as it is shown: behind its position if it names a file. -/
def text (d : Diagnostic) : String :=
  match d.place with
  | some place =>
    if place.file.isEmpty then d.headline
    else s!"Line {place.position.line} (Column {place.position.column}) : " ++ d.headline
  | none => d.headline

end Diagnostic

end CilScope
