/-!
# Little-endian words

The byte forms of 16- and 32-bit words, least significant byte first, and the words read back
from their bytes.
-/

namespace CilScope.Bytes

/-- The two bytes of a 16-bit word. -/
def ofWord16 (w : UInt16) : List UInt8 :=
  [UInt8.ofNat w.toNat, UInt8.ofNat (w.toNat / 0x100)]

/-- The four bytes of a 32-bit word. -/
def ofWord32 (w : UInt32) : List UInt8 :=
  [UInt8.ofNat w.toNat, UInt8.ofNat (w.toNat / 0x100), UInt8.ofNat (w.toNat / 0x10000),
    UInt8.ofNat (w.toNat / 0x1000000)]

/-- The 16-bit word with these bytes. -/
def word16 (b₀ b₁ : UInt8) : UInt16 := UInt16.ofNat (b₀.toNat + 0x100 * b₁.toNat)

/-- The 32-bit word with these bytes. -/
def word32 (b₀ b₁ b₂ b₃ : UInt8) : UInt32 :=
  UInt32.ofNat (b₀.toNat + 0x100 * b₁.toNat + 0x10000 * b₂.toNat + 0x1000000 * b₃.toNat)

/-- The UTF-8 bytes of a text. -/
def ofString (s : String) : List UInt8 := s.toUTF8.data.toList

/-- The text with these UTF-8 bytes, if they are one. -/
def toString? (bs : List UInt8) : Option String := String.fromUTF8? ⟨bs.toArray⟩

end CilScope.Bytes
