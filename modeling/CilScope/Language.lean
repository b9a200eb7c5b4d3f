/-!
# Source languages

The two languages a snippet can be written in. C# uses braces and semicolons and tells upper case
from lower case; Visual Basic ends a statement with its line and does not.
-/

namespace CilScope

/-- A source language. -/
inductive Language
  | csharp
  | visualBasic
  deriving DecidableEq, Repr, Inhabited

namespace Language

/-- The key by which callers choose a language. -/
def key : Language → String
  | csharp => "C#"
  | visualBasic => "VB"

/-- The language with a given key. -/
def ofKey? (key : String) : Option Language := [csharp, visualBasic].find? (·.key == key)

/-- The file a snippet is compiled from. -/
def sourceFile : Language → String
  | csharp => "snippet.cs"
  | visualBasic => "snippet.vb"

/-- A program to start from. -/
def starter : Language → String
  | csharp =>
    "using System;\n\npublic class Program\n\x7b\n    static void Main(string[] args)\n    \x7b\n" ++
    "        Console.WriteLine(\"Hello, MuchDifferent!\");\n    \x7d\n\x7d\n"
  | visualBasic =>
    "Imports System\n\nPublic Module Program\n    Public Sub Main(args() As String)\n" ++
    "        Console.WriteLine(\"Hello, MuchDifferent!\")\n    End Sub\nEnd Module\n"

/-- Whether two names are the same in the language: letter for letter in C#, up to ASCII case in
Visual Basic. -/
def sameName : Language → String → String → Bool
  | csharp, a, b => a == b
  | visualBasic, a, b => a.map Char.toLower == b.map Char.toLower

end Language

end CilScope
