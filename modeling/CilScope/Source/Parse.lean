import CilScope.Source.CSharp
import CilScope.Source.VisualBasic

/-!
# Reading a source text

From characters to the syntax tree, in either language.
-/

namespace CilScope.Source

/-- The parser of a language. -/
def compilationUnit : Language → Parser CompilationUnit
  | .csharp => CSharp.compilationUnit
  | .visualBasic => VisualBasic.compilationUnit

/-- The syntax tree of a source text, if reading did not stop, and the log. -/
def parse (language : Language) (source : String) (log : Log) : Option CompilationUnit × Log :=
  let (lexemes, log) := Lexeme.tokenize language source log
  let (result, cursor) := (compilationUnit language).run.run { rest := lexemes, log }
  (result.toOption, cursor.log)

end CilScope.Source
