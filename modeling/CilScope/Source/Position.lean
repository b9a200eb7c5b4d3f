/-!
# Source positions

A position is a line and a column, both counted from one in 32 bits; columns count characters.
-/

namespace CilScope.Source

/-- A place in a source text. -/
structure Position where
  line : UInt32 := 1
  column : UInt32 := 1
  deriving DecidableEq, Repr, Inhabited

namespace Position

/-- The position behind a character at this position. -/
def next (p : Position) (c : Char) : Position :=
  if c = '\n' then ⟨p.line + 1, 1⟩ else ⟨p.line, p.column + 1⟩

/-- The position behind a text at this position. -/
def after (p : Position) (text : List Char) : Position := text.foldl next p

end Position

end CilScope.Source
