import CilScope.CommandLine

/-!
# The program

Reads the arguments and the source, and prints the answer.
-/

namespace CilScope.CommandLine

/-- The bytes of a stream up to its end. -/
partial def readAll (stream : IO.FS.Stream) (read : ByteArray) : IO ByteArray := do
  let chunk ← stream.read 65536
  if chunk.isEmpty then return read else readAll stream (read ++ chunk)

/-- The reason the system gives for a failure. -/
def systemReason : IO.Error → String
  | .noFileOrDirectory .. => noSuchFile
  | error => toString error

/-- Reads the source. -/
def readSource : Origin → IO (Except String String)
  | .starter => return .ok ""
  | .standardInput => do return decodeSource (← readAll (← IO.getStdin) .empty).toList
  | .file path => do
    try return decodeSource (← IO.FS.readBinFile path).toList
    catch error => return .error (systemReason error)

end CilScope.CommandLine

open CilScope.CommandLine in
/-- The entry of the program. -/
def main (arguments : List String) : IO UInt32 := do
  match parse arguments with
  | .error usage =>
    IO.eprintln usage.message
    return 2
  | .ok options =>
    let read ← if options.example_ then pure (.ok "") else readSource options.origin
    let response := options.respond CilScope.ScratchRoot.tempDirs (fun _ => .empty) read
    IO.print response.output
    IO.eprint response.errors
    return response.exit.toUInt32
