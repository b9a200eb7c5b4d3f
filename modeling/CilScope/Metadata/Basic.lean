import CilScope.Token

/-!
# Module metadata

What a compiled module says about itself: the assembly, the referenced assemblies, types and
members, the string literals, and the type definitions with their fields and methods. Fields and
methods belong to their type; their rows count through the module, type by type and member by
member.
-/

namespace CilScope

/-- A version number in four parts. -/
structure Version where
  major : UInt16 := 0
  minor : UInt16 := 0
  build : UInt16 := 0
  revision : UInt16 := 0
  deriving DecidableEq, Repr, Inhabited

/-- The four parts, divided by colons. -/
def Version.text (v : Version) : String :=
  ":".intercalate [toString v.major.toNat, toString v.minor.toNat, toString v.build.toNat,
    toString v.revision.toNat]

/-- A type as it stands in signatures. -/
inductive TypeSig
  | void
  | bool
  | int32
  | string
  | object
  /-- A class reached through a type reference or definition. -/
  | class_ (token : Token)
  | array (element : TypeSig)
  deriving DecidableEq, Repr, Inhabited

/-- The signature of a method. -/
structure MethodSig where
  hasThis : Bool := false
  ret : TypeSig := .void
  params : List TypeSig := []
  deriving DecidableEq, Repr, Inhabited

/-- Who may see a type or a member. -/
inductive Visibility
  | private_
  | assembly
  | family
  | public_
  deriving DecidableEq, Repr, Inhabited

/-- A custom attribute: its constructor and its encoded arguments. -/
structure Attribute where
  ctor : Token
  blob : List UInt8
  deriving DecidableEq, Repr, Inhabited

/-- The assembly being compiled. -/
structure AssemblyDef where
  name : String := ""
  version : Version := {}
  hashAlgorithm : UInt32 := 0
  attributes : List Attribute := []
  deriving DecidableEq, Repr, Inhabited

/-- A referenced assembly. -/
structure AssemblyRef where
  name : String
  version : Version := {}
  publicKeyToken : Option (Vector UInt8 8) := none
  deriving DecidableEq, Repr, Inhabited

/-- A type of a referenced assembly. -/
structure TypeRef where
  scope : Token
  namespace_ : String
  name : String
  deriving DecidableEq, Repr, Inhabited

/-- A method of a referenced type. -/
structure MemberRef where
  parent : Token
  name : String
  sig : MethodSig
  deriving DecidableEq, Repr, Inhabited

/-- A field of a type. -/
structure FieldDef where
  name : String
  visibility : Visibility := .private_
  isStatic : Bool := false
  sig : TypeSig := .void
  deriving DecidableEq, Repr, Inhabited

/-- A local variable; its name is kept under debug information only. -/
structure LocalVar where
  sig : TypeSig
  name : Option String := none
  deriving DecidableEq, Repr, Inhabited

/-- What a handler is for. -/
inductive ClauseKind
  /-- Exceptions of the type with this token. -/
  | catch_ (type : Token)
  | finally_
  deriving DecidableEq, Repr, Inhabited

/-- A protected range of a body and its handler. -/
structure Clause where
  kind : ClauseKind
  tryOffset : UInt32
  tryLength : UInt32
  handlerOffset : UInt32
  handlerLength : UInt32
  deriving DecidableEq, Repr, Inhabited

namespace Clause

/-- The offset behind the protected range. -/
def tryEnd (c : Clause) : UInt32 := c.tryOffset + c.tryLength

/-- The offset behind the handler. -/
def handlerEnd (c : Clause) : UInt32 := c.handlerOffset + c.handlerLength

end Clause

/-- A method of a type. -/
structure MethodDef where
  name : String
  visibility : Visibility := .private_
  isStatic : Bool := false
  hideBySig : Bool := false
  specialName : Bool := false
  rtSpecialName : Bool := false
  sig : MethodSig := {}
  paramNames : List String := []
  locals : List LocalVar := []
  maxStack : UInt16 := 8
  clauses : List Clause := []
  attributes : List Attribute := []
  deriving DecidableEq, Repr, Inhabited

/-- A type of the module. -/
structure TypeDef where
  namespace_ : String := ""
  name : String
  visibility : Visibility := .private_
  isAbstract : Bool := false
  isSealed : Bool := false
  beforeFieldInit : Bool := false
  /-- The base type; the placeholder type has none. -/
  base : Option Token := none
  /-- The index of the type this one is nested in. -/
  enclosing : Option Nat := none
  attributes : List Attribute := []
  fields : List FieldDef := []
  methods : List MethodDef := []
  deriving DecidableEq, Repr, Inhabited

/-- The type every module starts with. -/
def TypeDef.placeholder : TypeDef := { name := "<Module>" }

/-- Everything a module says about itself. -/
structure Metadata where
  assembly : AssemblyDef := {}
  moduleName : String := ""
  mvid : Vector UInt8 16 := Vector.replicate 16 0
  assemblyRefs : List AssemblyRef := []
  typeRefs : List TypeRef := []
  memberRefs : List MemberRef := []
  userStrings : List String := []
  types : List TypeDef := []
  deriving DecidableEq, Repr, Inhabited

namespace Metadata

/-- The methods in row order, each with the index of its type. -/
def methods (m : Metadata) : List (Nat × MethodDef) :=
  m.types.zipIdx.flatMap fun (type, i) => type.methods.map (i, ·)

/-- The fields in row order, each with the index of its type. -/
def fields (m : Metadata) : List (Nat × FieldDef) :=
  m.types.zipIdx.flatMap fun (type, i) => type.fields.map (i, ·)

/-- Counting from `row`, the first row of every group when the groups have these sizes. -/
def firstRows (row : Nat) : List Nat → List Nat
  | [] => []
  | n :: sizes => row :: firstRows (row + n) sizes

/-- The row of the first method of every type. -/
def methodRows (m : Metadata) : List Nat := firstRows 0 (m.types.map (·.methods.length))

/-- The row of the first field of every type. -/
def fieldRows (m : Metadata) : List Nat := firstRows 0 (m.types.map (·.fields.length))

/-- The name of a type with its namespace. -/
def qualified (namespace_ name : String) : String :=
  if namespace_.isEmpty then name else namespace_ ++ "." ++ name

/-- The full name of the type at `index`, following at most `depth` enclosing types. -/
def fullNameWithin (types : List TypeDef) : (depth index : Nat) → String
  | depth, index =>
    match types[index]? with
    | none => ""
    | some type =>
      match type.enclosing, depth with
      | some outer, depth + 1 => fullNameWithin types depth outer ++ "/" ++ type.name
      | some _, 0 => type.name
      | none, _ => qualified type.namespace_ type.name

/-- The full name of the type at `index`: the outermost type with its namespace, then the nested
types, divided by slashes. A chain of enclosing types never has more links than there are types. -/
def typeFullName (m : Metadata) (index : Nat) : String :=
  fullNameWithin m.types m.types.length index

/-- The name under which the body of a method is stored. -/
def bodySymbol (m : Metadata) (typeIndex : Nat) (method : MethodDef) : String :=
  m.typeFullName typeIndex ++ "::" ++ method.name

end Metadata

end CilScope
