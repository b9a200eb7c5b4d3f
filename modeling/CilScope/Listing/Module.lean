import CilScope.Listing.Body

/-!
# Module listings

A listing shows the types of a module in definition order, nested types inside the type around
them, optionally behind headers for the referenced assemblies, the assembly and the module. Within
a type the attributes come first, then nested types, fields and methods. Without headers the empty
placeholder type at the start is left out.
-/

namespace CilScope

/-- What a listing shows. -/
structure ListingOptions where
  headers : Bool := false
  structured : Bool := true
  deriving DecidableEq, Repr, Inhabited

namespace Listing

open Writer

/-- Writes the block of a referenced assembly. -/
def writeAssemblyRef (r : AssemblyRef) : Writer Unit := do
  line (".assembly extern " ++ Text.Quoted.name r.name)
  line "\x7b"
  indented do
    match r.publicKeyToken with
    | some key =>
      line ".publickeytoken = ("
      indented (hex key.toList)
      line ")"
    | none => pure ()
    line (".ver " ++ r.version.text)
  line "\x7d"

/-- The hash algorithm that is named in a comment. -/
def sha1 : UInt32 := 0x8004

/-- Writes the block of the assembly. -/
def writeAssembly (m : Metadata) : Writer Unit := do
  let a := m.assembly
  line (".assembly " ++ Text.Quoted.name a.name)
  line "\x7b"
  indented do
    attributes ⟨m, a.name⟩ a.attributes
    line (".hash algorithm 0x" ++ Text.Hex.padded 8 a.hashAlgorithm.toNat ++
      if a.hashAlgorithm = sha1 then " // SHA1" else "")
    line (".ver " ++ a.version.text)
  line "\x7d"

/-- Bytes as upper-case digits. -/
def upper (bs : List UInt8) : String := String.join (bs.map Text.Hex.upperByte)

/-- A module identifier in groups: the first three are numbers stored least byte first. -/
def guidText (id : Vector UInt8 16) : String :=
  let bytes := id.toList
  "-".intercalate [upper (bytes.take 4).reverse, upper ((bytes.drop 4).take 2).reverse,
    upper ((bytes.drop 6).take 2).reverse, upper ((bytes.drop 8).take 2), upper (bytes.drop 10)]

/-- Writes the lines of the module. -/
def writeModuleHeader (m : Metadata) : Writer Unit := do
  line (".module " ++ Text.Quoted.name m.moduleName)
  line ("// MVID: \x7b" ++ guidText m.mvid ++ "\x7d")
  line ".corflags 0x00000001 // ILOnly"

/-- The word for the visibility of a member. -/
def visibilityWord : Visibility → String
  | .private_ => "private"
  | .assembly => "assembly"
  | .family => "family"
  | .public_ => "public"

/-- The words for the visibility of a type: a type that is not nested is public or private. -/
def typeVisibility (t : TypeDef) : String :=
  if t.enclosing.isSome then "nested " ++ visibilityWord t.visibility
  else if t.visibility = .public_ then "public" else "private"

/-- The words whose condition holds, each behind a blank. -/
def flagWords (flags : List (Bool × String)) : String :=
  String.join (flags.map fun (set, word) => if set then " " ++ word else "")

/-- Writes the declaration of a method: the return type and the name, then one parameter per
line. -/
def writeDeclaration (n : Names) (m : MethodDef) : Writer Unit := do
  let ret ← name (n.sig m.sig.ret)
  let head := (if m.sig.hasThis then "instance " else "") ++ ret ++ " " ++
    Text.Quoted.name m.name ++ " ("
  if m.sig.params.isEmpty then
    line (head ++ ") cil managed")
  else
    line head
    indented (writeList m.sig.params.zipIdx fun (p, i) => do
      let sig ← n.sig p
      match m.paramNames[i]? with
      | some name => return sig ++ " " ++ Text.Quoted.name name
      | none => return sig)
    line ") cil managed"

/-- Writes a method of the type at `type`. -/
def writeMethod (structured : Bool) (m : Module) (type : Nat) (method : MethodDef) (row : Nat) :
    Writer Unit := do
  let symbol := m.metadata.bodySymbol type method
  let n : Names := ⟨m.metadata, symbol⟩
  line (".method " ++ visibilityWord method.visibility ++ flagWords
    [(method.hideBySig, "hidebysig"), (method.specialName, "specialname"),
     (method.rtSpecialName, "rtspecialname"), (method.isStatic, "static")])
  indented (writeDeclaration n method)
  line "\x7b"
  indented do
    attributes n method.attributes
    match m.body? row with
    | some body => writeBody structured n method body
    | none => pure ()
  line ("\x7d // end of method " ++ symbol)

/-- The indices of the types nested directly in the type at `index`. -/
def nestedTypes (m : Metadata) (index : Nat) : List Nat :=
  (List.range m.types.length).filter fun i =>
    (m.types[i]?.map (·.enclosing)) == some (some index)

/-- Writes the fields of a type. -/
def writeFields (n : Names) (fields : List FieldDef) : Writer Unit := do
  unless fields.isEmpty do
    line "// Fields"
    fields.forM fun f => do
      let sig ← name (n.sig f.sig)
      line (".field " ++ visibilityWord f.visibility ++ (if f.isStatic then " static" else "") ++
        " " ++ sig ++ " " ++ Text.Quoted.name f.name)
    blank

/-- Writes the type at `index` with all that is nested in it, at most `depth` types deep. -/
def writeType (structured : Bool) (m : Module) : (depth index : Nat) → Writer Unit
  | 0, _ => return
  | depth + 1, index => do
    let some type := m.metadata.types[index]? | return
    let fullName := m.metadata.typeFullName index
    let n : Names := ⟨m.metadata, fullName⟩
    line (".class " ++ typeVisibility type ++ " auto ansi" ++ flagWords
      [(type.isAbstract, "abstract"), (type.isSealed, "sealed"),
       (type.beforeFieldInit, "beforefieldinit")] ++ " " ++ Names.declared type)
    match type.base with
    | some base => indented do line ("extends " ++ (← name (n.typeToken base)))
    | none => pure ()
    line "\x7b"
    indented do
      attributes n type.attributes
      let nested := nestedTypes m.metadata index
      unless nested.isEmpty do
        line "// Nested Types"
        nested.forM fun inner => do
          writeType structured m depth inner
          blank
      writeFields n type.fields
      unless type.methods.isEmpty do
        line "// Methods"
        let first := m.metadata.methodRows.getD index 0
        type.methods.zipIdx.forM fun (method, i) => do
          writeMethod structured m index method (first + i)
          blank
    line ("\x7d // end of class " ++ if type.enclosing.isSome then type.name else fullName)

/-- Writes every type that is not nested, each with a blank line behind it. Types are never nested
deeper than their number. -/
def writeTypes (structured : Bool) (m : Module) : Writer Unit :=
  m.metadata.types.zipIdx.forM fun (type, index) => do
    if type.enclosing.isNone then
      writeType structured m m.metadata.types.length index
      blank

/-- The text of the empty placeholder type. -/
def placeholderText : String :=
  ".class private auto ansi '<Module>'\n\x7b\n\x7d // end of class <Module>\n\n"

/-- Writes the headers and the types. -/
def writeModule (m : Module) (options : ListingOptions) : Writer Unit := do
  if options.headers then
    m.metadata.assemblyRefs.forM writeAssemblyRef
    writeAssembly m.metadata
    blank
    writeModuleHeader m.metadata
    blank
    blank
  writeTypes options.structured m

/-- A text without a given beginning, if it begins so. -/
def dropBeginning (beginning text : List Char) : List Char :=
  if beginning.isPrefixOf text then text.drop beginning.length else text

/-- The listing of a module. -/
def ofModule (m : Module) (options : ListingOptions) : Except ListingError String := do
  let (_, sink) ← (writeModule m options).run {}
  if options.headers then return sink.text
  else return String.ofList (dropBeginning placeholderText.toList sink.text.toList)

end Listing

end CilScope
