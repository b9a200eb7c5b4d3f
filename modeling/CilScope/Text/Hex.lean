/-!
# Hexadecimal text

Numbers in lower-case hexadecimal, padded on the left with zeros to a least width, and byte
strings as pairs of digits.
-/

namespace CilScope.Text.Hex

/-- `n` in hexadecimal with at least `width` digits. -/
def padded (width n : Nat) : String :=
  let digits := Nat.toDigits 16 n
  String.ofList (List.replicate (width - digits.length) '0' ++ digits)

/-- A byte as two lower-case digits. -/
def byte (b : UInt8) : String := padded 2 b.toNat

/-- A byte as two upper-case digits. -/
def upperByte (b : UInt8) : String := (byte b).map Char.toUpper

/-- A byte string as pairs of lower-case digits, without separators. -/
def bytes (bs : List UInt8) : String := String.join (bs.map byte)

end CilScope.Text.Hex
