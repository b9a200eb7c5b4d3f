import CilScope.Instruction

/-!
# Failures of a compiler

What goes wrong in a compiler itself, as opposed to in the program it compiles: a body that does
not fit the formats, scratch space that cannot be written, a version nobody knows.
-/

namespace CilScope

/-- Why no code could be generated. -/
inductive GenerationFault
  /-- More locals than an index can count. -/
  | tooManyLocals
  /-- An assignment to an argument that the short store does not reach. -/
  | argumentOutOfRange (index : Nat)
  | unboundLabel (label : Nat)
  | branchOutOfRange (offset : UInt32)
  | tooManyArguments (method : String) (count : Nat)
  /-- A module whose methods and bodies do not match in number. -/
  | bodyCount (methods bodies : Nat)
  /-- A reason that a compiler of another make states. -/
  | stated (reason : String)
  deriving DecidableEq, Repr, Inhabited

/-- The wording of a fault. -/
def GenerationFault.reason : GenerationFault → String
  | tooManyLocals => "more than 65535 locals"
  | argumentOutOfRange index => s!"argument {index} out of starg.s range"
  | unboundLabel label => s!"label {label} never bound"
  | branchOutOfRange offset => "branch at " ++ offsetLabel offset ++ " out of range"
  | tooManyArguments method count => method ++ s!" takes {count} arguments"
  | bodyCount methods bodies => s!"{methods} methods but {bodies} bodies"
  | stated reason => reason

/-- Why a compiler failed. -/
inductive BuildError
  /-- The scratch space cannot be used, for a reason the system gives. -/
  | scratch (reason : String)
  | unknownVersion (version : String)
  | generation (fault : GenerationFault)
  deriving DecidableEq, Repr, Inhabited

namespace BuildError

/-- The wording of an error. -/
def message : BuildError → String
  | scratch reason => "I/O error in compiler scratch space: " ++ reason
  | unknownVersion version => "Unknown compiler version '" ++ version ++ "'"
  | generation fault => "Code generation failed: " ++ fault.reason

/-- The word shown in front of the message. -/
def kind : BuildError → String
  | scratch _ => "IoError"
  | unknownVersion _ => "UnknownCompilerVersion"
  | generation _ => "CodegenError"

end BuildError

end CilScope
