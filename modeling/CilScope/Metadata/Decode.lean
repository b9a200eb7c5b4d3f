import CilScope.Metadata.Encode
import CilScope.Metadata.Nesting

/-!
# The metadata section, read

A reader step takes what it needs from the front of the remaining bytes and knows how many bytes
are behind it, because errors name the offset at which they were met. Reading is tolerant where
the width of the input does not depend on it: any non-zero byte is true, spare flag bits are
ignored, and bytes behind the last table are left alone.
-/

namespace CilScope.Metadata

/-- The kinds of tag bytes that a section can get wrong. -/
inductive TagKind
  | visibility
  | elementType
  | clause
  deriving DecidableEq, Repr, Inhabited

/-- The word for a kind of tag. -/
def TagKind.text : TagKind → String
  | visibility => "visibility"
  | elementType => "element type"
  | clause => "clause"

/-- What is wrong with a metadata section. -/
inductive ReadError
  | truncated (offset : Nat)
  | badSignature (found : UInt32)
  | unsupportedVersion (found : UInt16)
  | invalidString (offset : Nat)
  | invalidTag (what : TagKind) (tag : UInt8) (offset : Nat)
  | badEnclosingType (index enclosing : Nat)
  deriving DecidableEq, Repr, Inhabited

/-- The wording of a read error. -/
def ReadError.message : ReadError → String
  | truncated offset => s!"Metadata truncated at offset {offset}"
  | badSignature found => "Bad metadata signature 0x" ++ Text.Hex.padded 8 found.toNat
  | unsupportedVersion found => "Unsupported metadata version " ++ toString found.toNat
  | invalidString offset => s!"Invalid UTF-8 string at offset {offset}"
  | invalidTag what tag offset =>
    "Invalid " ++ what.text ++ " tag " ++ toString tag.toNat ++ s!" at offset {offset}"
  | badEnclosingType index enclosing =>
    s!"Type {index} has an invalid enclosing type {enclosing}"

/-- The bytes still to be read, and how many were read before them. -/
structure Input where
  pos : Nat
  rest : List UInt8
  deriving DecidableEq, Repr, Inhabited

/-- A reader step. -/
abbrev Reader := StateT Input (Except ReadError)

namespace Reader

/-- The offset of the next byte. -/
def offset : Reader Nat := return (← get).pos

/-- The next `n` bytes. -/
def take (n : Nat) : Reader (List UInt8) := do
  let input ← get
  if n ≤ input.rest.length then
    set (⟨input.pos + n, input.rest.drop n⟩ : Input)
    return input.rest.take n
  else
    throw (.truncated input.pos)

/-- The next byte. -/
def byte : Reader UInt8 := do
  let input ← get
  match input.rest with
  | b :: rest =>
    set (⟨input.pos + 1, rest⟩ : Input)
    return b
  | [] => throw (.truncated input.pos)

/-- The next 16-bit word. -/
def word16 : Reader UInt16 := do
  let input ← get
  match input.rest with
  | b₀ :: b₁ :: rest =>
    set (⟨input.pos + 2, rest⟩ : Input)
    return Bytes.word16 b₀ b₁
  | _ => throw (.truncated input.pos)

/-- The next 32-bit word. -/
def word32 : Reader UInt32 := do
  let input ← get
  match input.rest with
  | b₀ :: b₁ :: b₂ :: b₃ :: rest =>
    set (⟨input.pos + 4, rest⟩ : Input)
    return Bytes.word32 b₀ b₁ b₂ b₃
  | _ => throw (.truncated input.pos)

/-- Exactly `n` bytes. -/
def vector (n : Nat) : Reader (Vector UInt8 n) := do
  let bs ← take n
  if h : bs.length = n then return ⟨bs.toArray, by simpa using h⟩
  else throw (.truncated (← offset))

/-- A length. -/
def length : Reader Nat := return (← word32).toNat

/-- Raw bytes behind their number. -/
def block : Reader (List UInt8) := do take (← length)

/-- A text behind the number of its bytes. -/
def text : Reader String := do
  let n ← length
  let start ← offset
  match Bytes.toString? (← take n) with
  | some s => return s
  | none => throw (.invalidString start)

/-- `n` entries, one after the other. -/
def times {α : Type} (item : Reader α) : Nat → Reader (List α)
  | 0 => return []
  | n + 1 => do
    let x ← item
    return x :: (← times item n)

/-- The entries of a list behind their number. An entry takes at least one byte, so a number
above that of the remaining bytes is refused at once. -/
def list {α : Type} (item : Reader α) : Reader (List α) := do
  let n ← length
  let input ← get
  if input.rest.length < n then throw (.truncated input.pos)
  times item n

/-- A truth value: any byte but zero is true. -/
def flag : Reader Bool := return (← byte) != 0

/-- Whether bit `i` of a byte is set. -/
def bit (bits : UInt8) (i : Nat) : Bool := bits.toNat.testBit i

/-- A token. -/
def token : Reader Token := return ⟨← word32⟩

/-- A version number. -/
def version : Reader Version := do
  let major ← word16
  let minor ← word16
  let build ← word16
  let revision ← word16
  return { major, minor, build, revision }

/-- A visibility. -/
def visibility : Reader Visibility := do
  let start ← offset
  match ← byte with
  | 0 => return .private_
  | 1 => return .assembly
  | 2 => return .family
  | 3 => return .public_
  | tag => throw (.invalidTag .visibility tag start)

/-- A type in a signature that is no array. -/
def elementSig : Reader TypeSig := do
  let start ← offset
  let tag ← byte
  if tag = ElementCode.void.byte then return .void
  else if tag = ElementCode.bool.byte then return .bool
  else if tag = ElementCode.int32.byte then return .int32
  else if tag = ElementCode.string.byte then return .string
  else if tag = ElementCode.object.byte then return .object
  else if tag = ElementCode.class_.byte then return .class_ (← token)
  else throw (.invalidTag .elementType tag start)

/-- `n` array types around an element type. -/
def arrays (element : TypeSig) : Nat → TypeSig
  | 0 => element
  | n + 1 => .array (arrays element n)

/-- A type in a signature: as many array types as there are leading array codes, around the type
that follows them. -/
def typeSig : Reader TypeSig := do
  let rank := ((← get).rest.takeWhile (· = ElementCode.array.byte)).length
  let _ ← take rank
  return arrays (← elementSig) rank

/-- A method signature. -/
def methodSig : Reader MethodSig := do
  let hasThis ← flag
  let ret ← typeSig
  let params ← list typeSig
  return { hasThis, ret, params }

/-- A custom attribute. -/
def customAttribute : Reader Attribute := do
  let ctor ← token
  let blob ← block
  return { ctor, blob }

/-- The assembly. -/
def assembly : Reader AssemblyDef := do
  let name ← text
  let version ← version
  let hashAlgorithm ← word32
  let attributes ← list customAttribute
  return { name, version, hashAlgorithm, attributes }

/-- An optional value behind a byte that says whether it is there. -/
def optional {α : Type} (item : Reader α) : Reader (Option α) := do
  if ← flag then return some (← item) else return none

/-- A referenced assembly. -/
def assemblyRef : Reader AssemblyRef := do
  let name ← text
  let version ← version
  let publicKeyToken ← optional (vector 8)
  return { name, version, publicKeyToken }

/-- A referenced type. -/
def typeRef : Reader TypeRef := do
  let scope ← token
  let namespace_ ← text
  let name ← text
  return { scope, namespace_, name }

/-- A referenced member. -/
def memberRef : Reader MemberRef := do
  let parent ← token
  let name ← text
  let sig ← methodSig
  return { parent, name, sig }

/-- A field. -/
def field : Reader FieldDef := do
  let name ← text
  let visibility ← visibility
  let isStatic ← flag
  let sig ← typeSig
  return { name, visibility, isStatic, sig }

/-- A local variable. -/
def localVar : Reader LocalVar := do
  let sig ← typeSig
  let name ← optional text
  return { sig, name }

/-- What a handler is for. -/
def clauseKind : Reader ClauseKind := do
  let start ← offset
  match ← byte with
  | 0 => return .catch_ (← token)
  | 2 => return .finally_
  | tag => throw (.invalidTag .clause tag start)

/-- An exception clause. -/
def clause : Reader Clause := do
  let kind ← clauseKind
  let tryOffset ← word32
  let tryLength ← word32
  let handlerOffset ← word32
  let handlerLength ← word32
  return { kind, tryOffset, tryLength, handlerOffset, handlerLength }

/-- A method. -/
def method : Reader MethodDef := do
  let name ← text
  let visibility ← visibility
  let bits ← byte
  let sig ← methodSig
  let paramNames ← list text
  let locals ← list localVar
  let maxStack ← word16
  let clauses ← list clause
  let attributes ← list customAttribute
  return { name, visibility, isStatic := bit bits 0, hideBySig := bit bits 1,
           specialName := bit bits 2, rtSpecialName := bit bits 3, sig, paramNames, locals,
           maxStack, clauses, attributes }

/-- A base type; zero stands for none. -/
def base : Reader (Option Token) := do
  let t ← token
  return if t.raw = 0 then none else some t

/-- An enclosing type by its one-based number; zero stands for none. -/
def enclosing : Reader (Option Nat) := do
  match ← length with
  | 0 => return none
  | i + 1 => return some i

/-- A type. -/
def type : Reader TypeDef := do
  let namespace_ ← text
  let name ← text
  let visibility ← visibility
  let bits ← byte
  let base ← base
  let enclosing ← enclosing
  let attributes ← list customAttribute
  let fields ← list field
  let methods ← list method
  return { namespace_, name, visibility, isAbstract := bit bits 0, isSealed := bit bits 1,
           beforeFieldInit := bit bits 2, base, enclosing, attributes, fields, methods }

/-- The tables of a section, nesting unchecked. -/
def tables : Reader Metadata := do
  let found ← word32
  if found ≠ signature then throw (.badSignature found)
  let version ← word16
  if version ≠ formatVersion then throw (.unsupportedVersion version)
  let assembly ← assembly
  let moduleName ← text
  let mvid ← vector 16
  let assemblyRefs ← list assemblyRef
  let typeRefs ← list typeRef
  let memberRefs ← list memberRef
  let userStrings ← list text
  let types ← list type
  return { assembly, moduleName, mvid, assemblyRefs, typeRefs, memberRefs, userStrings, types }

end Reader

/-- The module described by a metadata section. -/
def decode (section_ : List UInt8) : Except ReadError Metadata := do
  let (m, _) ← Reader.tables.run ⟨0, section_⟩
  match badNesting? m.types with
  | none => return m
  | some (index, enclosing) => throw (.badEnclosingType index enclosing)

end CilScope.Metadata
