import CilScope.Artifact.Basic
import CilScope.BuildError
import CilScope.Diagnostic.Basic

/-!
# Compilers

A compiler gets a job, leaves files in the directory it is given and says what it made: the name
of an artifact, diagnostics, or both. A compiler can also fail or crash.
-/

namespace CilScope

/-- What a file holds. -/
inductive Content
  | text (text : String)
  | artifact (artifact : Artifact)
  deriving DecidableEq, Repr, Inhabited

/-- The files of a directory by name. -/
abbrev Directory := List (String × Content)

/-- The names in a directory, sorted. -/
def Directory.names (d : Directory) : List String := (d.map (·.1)).mergeSort (· ≤ ·)

/-- What a compiler is asked to do. -/
structure Job where
  source : String
  /-- The settings as one string. -/
  options : String
  compilerVersion : String
  references : List String
  deriving DecidableEq, Repr, Inhabited

/-- What a compiler has made. -/
structure Output where
  /-- The files it left. -/
  files : Directory := []
  /-- The name of the artifact, if it made one. -/
  artifact : Option String := none
  diagnostics : List Diagnostic := []
  deriving DecidableEq, Repr, Inhabited

/-- How a compiler ends. -/
inductive Run
  | finished (output : Output)
  | failed (error : BuildError)
  /-- It stopped in the middle, perhaps with a last word. -/
  | crashed (message : Option String)
  deriving DecidableEq, Repr, Inhabited

/-- A compiler for one language. -/
abbrev Compiler := Job → Run

end CilScope
