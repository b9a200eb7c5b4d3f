import CilScope.Instruction
import CilScope.Metadata.Basic

/-!
# Modules

A module as it is listed: its metadata and, for every method row, the decoded body if the method
has one.
-/

namespace CilScope

/-- The decoded body of a method. -/
structure Body where
  rva : UInt32
  codeSize : UInt32
  instructions : List Instruction
  deriving DecidableEq, Repr, Inhabited

/-- A compiled module. -/
structure Module where
  metadata : Metadata
  /-- One entry per method row. -/
  bodies : List (Option Body)
  deriving DecidableEq, Repr, Inhabited

namespace Module

/-- The address at which the first body of a module is loaded. -/
def baseAddress : UInt32 := 0x2050

/-- The body of the method in row `row`. -/
def body? (m : Module) (row : Nat) : Option Body := (m.bodies[row]?).join

end Module

end CilScope
