import CilScope.Lowering.Method
import CilScope.Program.Declare

/-!
# Compiled images

A compiled module before it is stored: its metadata and the bodies of its methods in the order of
their rows. `Image.generate` makes one from a syntax tree, if the program has no errors.
-/

namespace CilScope

/-- A compiled module. -/
structure Image where
  metadata : Metadata
  /-- One body per method row. -/
  bodies : List FinishedBody
  deriving DecidableEq, Repr, Inhabited

namespace Image

/-- The hash algorithm that assemblies record. -/
def hashAlgorithm : UInt32 := 0x8004

/-- The file name of every compiled module. -/
def moduleName : String := Framework.assemblyName ++ ".dll"

/-- What every module refers to: the core library and the attributes of the assembly. -/
def startReferences (core : Version) : References :=
  ((References.start core).useMethod .compilationRelaxationsCtor).useMethod
    .runtimeCompatibilityCtor

/-- Whether a type is marked as a module of Visual Basic. -/
def isMarked (options : CodeOptions) (head : TypeHead) : Bool :=
  head.kind = .module_ && options.basicRuntime

/-- Refers to what the declaration of a type needs. -/
def useDeclaration (options : CodeOptions) (r : References) (type : TypeHead × Members) :
    References :=
  let (head, members) := type
  let r := if isMarked options head then r.useMethod .standardModuleCtor else r
  let r := members.fields.foldl (fun r f => r.useType f.type) r
  members.methods.foldl (fun r m => (m.params.foldl References.useType r).useType m.ret) r

/-- The definition of a field. -/
def fieldDef (r : References) (f : Field) : FieldDef :=
  { name := f.name, visibility := f.visibility, isStatic := f.isStatic, sig := r.typeSig f.type }

/-- The definition of a method with its body. -/
def methodDef (r : References) (language : Language) (m : Method) (body : FinishedBody) :
    MethodDef where
  name := m.name
  visibility := m.visibility
  isStatic := m.isStatic
  hideBySig := language = .csharp
  specialName := !m.origin.isDeclared
  rtSpecialName := !m.origin.isDeclared
  sig := { hasThis := !m.isStatic, ret := r.typeSig m.ret, params := m.params.map r.typeSig }
  paramNames := m.paramNames
  locals := body.locals
  maxStack := body.maxStack
  clauses := body.clauses

/-- The definition of a type with the bodies of its methods. -/
def typeDef (r : References) (language : Language) (options : CodeOptions) (head : TypeHead)
    (members : Members) (bodies : List FinishedBody) : TypeDef where
  namespace_ := head.namespace_
  name := head.name
  visibility := head.visibility
  isAbstract := head.kind = .staticClass
  isSealed := head.isStatic
  beforeFieldInit := language = .csharp
  base := some (r.classToken .object)
  enclosing := head.enclosing
  attributes :=
    if isMarked options head then [⟨r.methodToken .standardModuleCtor, Library.emptyBlob⟩] else []
  fields := members.fields.map (fieldDef r)
  methods := List.zipWith (methodDef r language) members.methods bodies

/-- The metadata of a program whose bodies are given type by type. -/
def buildMetadata (program : Program) (options : CodeOptions) (mvid : Vector UInt8 16)
    (r : References) (bodies : List (List FinishedBody)) : Metadata :=
  let types := (program.types.toList.zip program.members.toList).tail
  let r := types.foldl (useDeclaration options) (r.useClass .object)
  { assembly := {
      name := Framework.assemblyName
      hashAlgorithm := hashAlgorithm
      attributes := [
        ⟨r.methodToken .compilationRelaxationsCtor, Library.compilationRelaxationsBlob⟩,
        ⟨r.methodToken .runtimeCompatibilityCtor, Library.runtimeCompatibilityBlob⟩] }
    moduleName := moduleName
    mvid
    assemblyRefs := r.assemblyRefs
    typeRefs := r.typeRefs
    memberRefs := r.memberRefs
    userStrings := r.strings
    types := TypeDef.placeholder ::
      List.zipWith (fun (head, members) => typeDef r program.language options head members)
        types bodies }

/-- Compiles a program; there is no image if it has errors. -/
def generate (language : Language) (options : CodeOptions) (mvid : Vector UInt8 16)
    (unit : Source.CompilationUnit) (log : Log) :
    Except GenerationFault (Option Image × Log) := do
  let (program, log) := (Program.declare language unit).run log
  let (bodies, shared) ← Lowering.lowerTypes program options 1 program.members.toList.tail
    { references := startReferences options.core, log }
  if shared.log.hasErrors then return (none, shared.log)
  return (some {
    metadata := buildMetadata program options mvid shared.references bodies
    bodies := bodies.flatten }, shared.log)

end Image

end CilScope
