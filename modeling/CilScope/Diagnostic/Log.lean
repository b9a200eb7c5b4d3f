import CilScope.Diagnostic.Cause

/-!
# Diagnostic logs

The diagnostics of one compilation in the order of their emission.
-/

namespace CilScope

/-- What has been reported on a file so far. -/
structure Log where
  language : Language
  file : String
  diagnostics : Array Diagnostic := #[]
  deriving DecidableEq, Repr, Inhabited

namespace Log

/-- An empty log for a snippet. -/
def forSnippet (language : Language) : Log := { language, file := language.sourceFile }

/-- Reports a problem at a source position. -/
def report (log : Log) (position : Source.Position) (cause : Cause) : Log :=
  { log with diagnostics :=
      log.diagnostics.push (cause.diagnostic log.language (some ⟨log.file, position⟩)) }

/-- Reports a problem that has no position. -/
def reportGlobal (log : Log) (cause : Cause) : Log :=
  { log with diagnostics := log.diagnostics.push (cause.diagnostic log.language none) }

/-- Whether an error has been reported. -/
def hasErrors (log : Log) : Bool := log.diagnostics.any Diagnostic.isError

/-- How many errors have been reported. -/
def errorCount (log : Log) : Nat := log.diagnostics.countP Diagnostic.isError

end Log

end CilScope
