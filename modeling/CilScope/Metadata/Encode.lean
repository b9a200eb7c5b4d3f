import CilScope.Bytes
import CilScope.Metadata.Basic

/-!
# The metadata section, written

The section starts with the signature `BSJB` and a format version; the tables follow in a fixed
order. Numbers are little-endian, a list is its length followed by its entries, and a text is
its length in bytes followed by UTF-8.
-/

namespace CilScope.Metadata

/-- The four bytes `BSJB` as a number. -/
def signature : UInt32 := 0x424A5342

/-- The version of the format. -/
def formatVersion : UInt16 := 1

/-- The element type codes of signatures. -/
inductive ElementCode
  | void | bool | int32 | string | class_ | object | array
  deriving DecidableEq, Repr

/-- The byte of an element type. -/
def ElementCode.byte : ElementCode → UInt8
  | void => 0x01
  | bool => 0x02
  | int32 => 0x08
  | string => 0x0E
  | class_ => 0x12
  | object => 0x1C
  | array => 0x1D

/-- Byte forms of the parts of a section. -/
abbrev Writer (α : Type) := α → List UInt8

namespace Writer

/-- A length as a 32-bit word. -/
def length : Writer Nat := fun n => Bytes.ofWord32 (UInt32.ofNat n)

/-- Raw bytes behind their number. -/
def block : Writer (List UInt8) := fun bs => length bs.length ++ bs

/-- A text behind the number of its bytes. -/
def text : Writer String := fun s => block (Bytes.ofString s)

/-- The entries of a list behind their number. -/
def list {α : Type} (item : Writer α) : Writer (List α) := fun xs =>
  length xs.length ++ xs.flatMap item

/-- A truth value as the byte one or zero. -/
def flag : Writer Bool := fun b => [if b then 1 else 0]

/-- Truth values as the bits of one byte, the first one lowest. -/
def bits (flags : List Bool) : UInt8 :=
  flags.foldr (fun b acc => 2 * acc + if b then 1 else 0) 0

/-- A token. -/
def token : Writer Token := fun t => Bytes.ofWord32 t.raw

/-- A version number. -/
def version : Writer Version := fun v =>
  Bytes.ofWord16 v.major ++ Bytes.ofWord16 v.minor ++ Bytes.ofWord16 v.build ++
    Bytes.ofWord16 v.revision

/-- A visibility. -/
def visibility : Writer Visibility
  | .private_ => [0]
  | .assembly => [1]
  | .family => [2]
  | .public_ => [3]

/-- A type in a signature. -/
def typeSig : Writer TypeSig
  | .void => [ElementCode.void.byte]
  | .bool => [ElementCode.bool.byte]
  | .int32 => [ElementCode.int32.byte]
  | .string => [ElementCode.string.byte]
  | .object => [ElementCode.object.byte]
  | .class_ t => ElementCode.class_.byte :: token t
  | .array element => ElementCode.array.byte :: typeSig element

/-- A method signature. -/
def methodSig : Writer MethodSig := fun s =>
  flag s.hasThis ++ typeSig s.ret ++ list typeSig s.params

/-- A custom attribute. -/
def customAttribute : Writer Attribute := fun a => token a.ctor ++ block a.blob

/-- The assembly. -/
def assembly : Writer AssemblyDef := fun a =>
  text a.name ++ version a.version ++ Bytes.ofWord32 a.hashAlgorithm ++
    list customAttribute a.attributes

/-- An optional value behind a byte that says whether it is there. -/
def optional {α : Type} (item : Writer α) : Writer (Option α)
  | none => [0]
  | some x => 1 :: item x

/-- A referenced assembly. -/
def assemblyRef : Writer AssemblyRef := fun r =>
  text r.name ++ version r.version ++ optional Vector.toList r.publicKeyToken

/-- A referenced type. -/
def typeRef : Writer TypeRef := fun r => token r.scope ++ text r.namespace_ ++ text r.name

/-- A referenced member. -/
def memberRef : Writer MemberRef := fun r => token r.parent ++ text r.name ++ methodSig r.sig

/-- A field. -/
def field : Writer FieldDef := fun f =>
  text f.name ++ visibility f.visibility ++ flag f.isStatic ++ typeSig f.sig

/-- A local variable. -/
def localVar : Writer LocalVar := fun l => typeSig l.sig ++ optional text l.name

/-- What a handler is for. -/
def clauseKind : Writer ClauseKind
  | .catch_ t => 0 :: token t
  | .finally_ => [2]

/-- An exception clause. -/
def clause : Writer Clause := fun c =>
  clauseKind c.kind ++ Bytes.ofWord32 c.tryOffset ++ Bytes.ofWord32 c.tryLength ++
    Bytes.ofWord32 c.handlerOffset ++ Bytes.ofWord32 c.handlerLength

/-- A method. -/
def method : Writer MethodDef := fun m =>
  text m.name ++ visibility m.visibility ++
    [bits [m.isStatic, m.hideBySig, m.specialName, m.rtSpecialName]] ++ methodSig m.sig ++
    list text m.paramNames ++ list localVar m.locals ++ Bytes.ofWord16 m.maxStack ++
    list clause m.clauses ++ list customAttribute m.attributes

/-- A base type; zero stands for none. -/
def base : Writer (Option Token)
  | none => Bytes.ofWord32 0
  | some t => token t

/-- An enclosing type by its one-based number; zero stands for none. -/
def enclosing : Writer (Option Nat)
  | none => length 0
  | some i => length (i + 1)

/-- A type. -/
def type : Writer TypeDef := fun t =>
  text t.namespace_ ++ text t.name ++ visibility t.visibility ++
    [bits [t.isAbstract, t.isSealed, t.beforeFieldInit]] ++ base t.base ++
    enclosing t.enclosing ++ list customAttribute t.attributes ++ list field t.fields ++
    list method t.methods

end Writer

/-- The metadata section of a module. -/
def encode (m : Metadata) : List UInt8 :=
  Bytes.ofWord32 signature ++ Bytes.ofWord16 formatVersion ++ Writer.assembly m.assembly ++
    Writer.text m.moduleName ++ m.mvid.toList ++ Writer.list Writer.assemblyRef m.assemblyRefs ++
    Writer.list Writer.typeRef m.typeRefs ++ Writer.list Writer.memberRef m.memberRefs ++
    Writer.list Writer.text m.userStrings ++ Writer.list Writer.type m.types

end CilScope.Metadata
