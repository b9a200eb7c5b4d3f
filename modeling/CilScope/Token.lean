import CilScope.Text.Hex

/-!
# Metadata tokens

A token names a row of a metadata table: the table's tag in the high byte, the one-based row in
the low 24 bits. Row zero is the nil row and names nothing.
-/

namespace CilScope

/-- The tables a token can point into. -/
inductive Table
  | typeRef
  | typeDef
  | field
  | methodDef
  | memberRef
  | assemblyRef
  | userString
  deriving DecidableEq, Repr, Inhabited

namespace Table

/-- The tag in the high byte of the table's tokens. -/
def tag : Table → UInt8
  | typeRef => 0x01
  | typeDef => 0x02
  | field => 0x04
  | methodDef => 0x06
  | memberRef => 0x0A
  | assemblyRef => 0x23
  | userString => 0x70

/-- The table with a given tag. -/
def ofTag? (t : UInt8) : Option Table :=
  [typeRef, typeDef, field, methodDef, memberRef, assemblyRef, userString].find? (·.tag == t)

end Table

/-- A reference to a row of a metadata table. -/
structure Token where
  raw : UInt32
  deriving DecidableEq, Repr, Inhabited, Hashable

namespace Token

/-- The token of the row with zero-based index `i`; the row number keeps its low 24 bits. -/
def ofRow (t : Table) (i : Nat) : Token :=
  ⟨UInt32.ofNat (t.tag.toNat * 0x1000000 + (i + 1) % 0x1000000)⟩

/-- The tag in the high byte. -/
def tag (t : Token) : UInt8 := UInt8.ofNat (t.raw.toNat / 0x1000000)

/-- The table pointed into, if the tag is known. -/
def table? (t : Token) : Option Table := Table.ofTag? t.tag

/-- The zero-based row; `none` for the nil row. -/
def row? (t : Token) : Option Nat :=
  match t.raw.toNat % 0x1000000 with
  | 0 => none
  | r + 1 => some r

/-- The token as text: eight hexadecimal digits. -/
def text (t : Token) : String := "0x" ++ Text.Hex.padded 8 t.raw.toNat

end Token

end CilScope
