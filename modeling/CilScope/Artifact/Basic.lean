import CilScope.Bytes

/-!
# Artifacts

A compiled module as it is stored: a section with the code of all bodies, a section with the
encoded metadata, and symbols that say where a body lies. The container the sections are kept in
does not matter; an artifact may lack either section.
-/

namespace CilScope

/-- The sections of an artifact. -/
inductive Section
  | code
  | metadata
  deriving DecidableEq, Repr, Inhabited

/-- The name of a section. -/
def Section.name : Section → String
  | code => ".il"
  | metadata => ".ilmeta"

/-- A named range of a section. -/
structure Symbol where
  /-- The bytes of the name, which need not be a text. -/
  name : List UInt8
  section_ : Section := .code
  value : Nat
  size : Nat
  deriving DecidableEq, Repr, Inhabited

/-- A stored module. -/
structure Artifact where
  code : Option (List UInt8)
  metadata : Option (List UInt8)
  symbols : List Symbol
  deriving DecidableEq, Repr, Inhabited

end CilScope
