import CilScope.Listing.Names
import CilScope.Text.Sink

/-!
# Writing a listing

A listing is written into a sink line by line; a name that cannot be resolved ends it.
-/

namespace CilScope.Listing

/-- A part of a listing. -/
abbrev Writer := StateT Text.Sink (Except ListingError)

namespace Writer

/-- Writes a line. -/
def line (text : String) : Writer Unit := modify (·.writeLine text)

/-- Ends the current line. -/
def blank : Writer Unit := modify (·.line)

/-- One step further in from here on. -/
def indent : Writer Unit := modify (·.indent)

/-- One step back out from here on. -/
def unindent : Writer Unit := modify (·.unindent)

/-- Writes a part one step further in. -/
def indented (part : Writer Unit) : Writer Unit := do
  indent
  part
  unindent

/-- A text that needs names. -/
def name (text : Except ListingError String) : Writer String := fun s => text.map (·, s)

/-- At most `n` groups of sixteen bytes. -/
def rows (bs : List UInt8) : (n : Nat) → List (List UInt8)
  | 0 => []
  | n + 1 => if bs.isEmpty then [] else bs.take 16 :: rows (bs.drop 16) n

/-- Bytes as pairs of digits, sixteen per line. -/
def hex (bs : List UInt8) : Writer Unit :=
  (rows bs bs.length).forM fun row => line (" ".intercalate (row.map Text.Hex.byte))

/-- Custom attributes: the constructor, and the arguments in hexadecimal. -/
def attributes (n : Names) (as : List Attribute) : Writer Unit :=
  as.forM fun a => do
    line (".custom " ++ (← name (n.methodToken a.ctor)) ++ " = (")
    indented (hex a.blob)
    line ")"

end Writer

end CilScope.Listing
