/-!
# Compilation statistics

Counts kept while a snippet is compiled, with the largest method met so far.
-/

namespace CilScope

/-- What a compilation has produced so far. -/
structure Statistics where
  types : Nat := 0
  methods : Nat := 0
  instructions : Nat := 0
  /-- The bytes of all method bodies together. -/
  codeSize : Nat := 0
  largestSize : Nat := 0
  largestName : String := ""
  deriving DecidableEq, Repr, Inhabited

namespace Statistics

/-- One more type. -/
def countType (s : Statistics) : Statistics := { s with types := s.types + 1 }

/-- One more method. It becomes the largest one only if it is larger than all before it. -/
def countMethod (s : Statistics) (name : String) (codeSize instructions : Nat) : Statistics :=
  let s := { s with
    methods := s.methods + 1
    codeSize := s.codeSize + codeSize
    instructions := s.instructions + instructions }
  if s.largestSize < codeSize then { s with largestSize := codeSize, largestName := name } else s

/-- The report, one count per line; the largest method is named if it has a name. -/
def text (s : Statistics) : String :=
  "Compilation Session Statistics:\n" ++
  s!"  Types compiled: {s.types}\n" ++
  s!"  Methods compiled: {s.methods}\n" ++
  s!"  Instructions emitted: {s.instructions}\n" ++
  s!"  Total code size: {s.codeSize} bytes\n" ++
  if s.largestName.isEmpty then ""
  else s!"  Largest method: {s.largestName} ({s.largestSize} bytes)\n"

end Statistics

end CilScope
