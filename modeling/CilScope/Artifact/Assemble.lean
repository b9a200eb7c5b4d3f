import CilScope.Artifact.Basic
import CilScope.Image
import CilScope.Metadata.Encode

/-!
# Storing an image

Bodies are laid one after the other, each on a boundary of four bytes, with a symbol that carries
the name of its type and method. Overloads share a name; their symbols follow the order of the
rows.
-/

namespace CilScope

namespace Artifact

/-- Bodies start at multiples of this number. -/
def alignment : Nat := 4

/-- How many bytes are skipped from `n` on to a boundary. -/
def padding (n : Nat) : Nat := (alignment - n % alignment) % alignment

/-- The code section from `offset` on, and the symbols of its bodies. -/
def layBodies (offset : Nat) : List (String × FinishedBody) → List UInt8 × List Symbol
  | [] => ([], [])
  | (name, body) :: rest =>
    let start := offset + padding offset
    let (code, symbols) := layBodies (start + body.code.length) rest
    (List.replicate (padding offset) 0 ++ body.code ++ code,
      { name := Bytes.ofString name, value := start, size := body.code.length } :: symbols)

end Artifact

namespace Image

/-- The bodies with the names they are stored under. -/
def namedBodies (image : Image) : List (String × FinishedBody) :=
  let m := image.metadata
  List.zipWith (fun (index, method) body => (m.bodySymbol index method, body)) m.methods
    image.bodies

/-- The artifact of an image, which must have a body for every method. -/
def assemble (image : Image) : Except GenerationFault Artifact := do
  let methods := image.metadata.methods
  unless methods.length = image.bodies.length do
    throw (.bodyCount methods.length image.bodies.length)
  let (code, symbols) := Artifact.layBodies 0 image.namedBodies
  return { code := some code, metadata := some image.metadata.encode, symbols }

/-- The text of the debug file: a line for every method and, below it, a line for every statement
with its offset and its position in the source. -/
def debugText (image : Image) : String :=
  String.join <| image.namedBodies.map fun (name, body) =>
    "method " ++ name ++ "\n" ++
      String.join (body.points.map fun (offset, pos) =>
        "  " ++ offsetLabel offset ++ s!" {pos.line}:{pos.column}\n")

end Image

end CilScope
