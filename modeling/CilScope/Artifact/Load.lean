import CilScope.Artifact.Basic
import CilScope.Metadata.Decode
import CilScope.Module

/-!
# Loading an artifact

From the sections and symbols back to a module. Symbols of one name are handed out in the order of
their addresses, to methods in the order of their rows, so overloads get their own bodies back.
-/

namespace CilScope

/-- Why an artifact is no module. -/
inductive LoadError
  /-- The file cannot be read, for a reason the system gives. -/
  | io (reason : String)
  /-- The file is no artifact at all. -/
  | object
  | missingSection (which : Section)
  | missingBody (symbol : String)
  | bodyOutOfRange (symbol : String)
  | metadata (error : Metadata.ReadError)
  | decode (symbol : String) (error : StreamError)
  deriving DecidableEq, Repr, Inhabited

/-- The wording of a load error. -/
def LoadError.message : LoadError → String
  | io reason => "Cannot read artifact: " ++ reason
  | object => "Artifact is not a valid object file"
  | missingSection which => "Artifact has no " ++ which.name ++ " section"
  | missingBody symbol => "No method body for " ++ symbol
  | bodyOutOfRange symbol => "Method body of " ++ symbol ++ " lies outside the code section"
  | metadata error => "Invalid metadata: " ++ error.message
  | decode symbol error => "Invalid instruction stream in " ++ symbol ++ ": " ++ error.message

namespace Artifact

/-- A named range of the code section. -/
structure Span where
  name : String
  start : Nat
  size : Nat
  deriving DecidableEq, Repr, Inhabited

/-- The order of spans: by address, then by size. -/
def Span.precedes (a b : Span) : Bool :=
  a.start < b.start || (a.start = b.start && a.size ≤ b.size)

/-- The span of a symbol of the code section whose name is a text. -/
def Span.ofSymbol? (s : Symbol) : Option Span := do
  guard (s.section_ = .code)
  let name ← Bytes.toString? s.name
  return { name, start := s.value, size := s.size }

/-- The spans of an artifact in order. -/
def spans (a : Artifact) : List Span :=
  (a.symbols.filterMap Span.ofSymbol?).mergeSort Span.precedes

/-- The body in a span of the code. -/
def bodyAt (code : List UInt8) (span : Span) : Except LoadError Body := do
  if code.length < span.start + span.size then throw (.bodyOutOfRange span.name)
  match Instruction.decodeStream ((code.drop span.start).take span.size) with
  | .error e => throw (.decode span.name e)
  | .ok instructions =>
    return {
      rva := Module.baseAddress + UInt32.ofNat span.start
      codeSize := UInt32.ofNat span.size
      instructions }

/-- The bodies of methods with these names; each takes the first span of its name that is left. -/
def bodies (code : List UInt8) : List String → List Span → Except LoadError (List Body)
  | [], _ => return []
  | name :: rest, spans => do
    match spans.find? (·.name = name) with
    | none => throw (.missingBody name)
    | some span =>
      let body ← bodyAt code span
      return body :: (← bodies code rest (spans.eraseP (·.name = name)))

/-- The names under which the bodies of a module are stored. -/
def bodyNames (m : Metadata) : List String :=
  m.methods.map fun (index, method) => m.bodySymbol index method

/-- The module that an artifact holds. -/
def load (a : Artifact) : Except LoadError Module := do
  match a.code, a.metadata with
  | none, _ => throw (.missingSection .code)
  | _, none => throw (.missingSection .metadata)
  | some code, some encoded =>
    match Metadata.decode encoded with
    | .error e => throw (.metadata e)
    | .ok metadata =>
      let bodies ← bodies code (bodyNames metadata) a.spans
      return { metadata, bodies := bodies.map some }

end Artifact

end CilScope
