import CilScope.Library.Method
import CilScope.Metadata.Basic

/-!
# What a program refers to

The assemblies, classes, methods and strings a program uses, each once, in the order of first use.
A token is the place in that order, so it keeps its meaning however many entries follow. The
tables of the metadata are views: the row of a class names its assembly by the assembly's token,
the row of a method its class and the classes of its signature likewise.
-/

namespace CilScope

/-- A list with `x` in it: unchanged if `x` is there, else `x` at its end. -/
def intern {α : Type} [DecidableEq α] (xs : List α) (x : α) : List α :=
  if x ∈ xs then xs else xs ++ [x]

/-- Everything referred to so far. -/
structure References where
  /-- The version of the core library. -/
  core : Version
  assemblies : List Library.Assembly := []
  classes : List Library.Class := []
  methods : List Library.Method := []
  strings : List String := []
  deriving DecidableEq, Repr, Inhabited

namespace References

/-! ### Tokens of what has been referred to -/

/-- The token of an assembly. -/
def assemblyToken (r : References) (a : Library.Assembly) : Token :=
  .ofRow .assemblyRef (r.assemblies.idxOf a)

/-- The token of a class. -/
def classToken (r : References) (c : Library.Class) : Token :=
  .ofRow .typeRef (r.classes.idxOf c)

/-- The token of a method. -/
def methodToken (r : References) (m : Library.Method) : Token :=
  .ofRow .memberRef (r.methods.idxOf m)

/-- The token of a string. -/
def stringToken (r : References) (s : String) : Token := .ofRow .userString (r.strings.idxOf s)

/-- The signature of a type; `user` gives that of a class of the program. -/
def signature (r : References) (user : Nat → TypeSig) : StaticType → TypeSig
  | .void => .void
  | .bool => .bool
  | .int => .int32
  | .string => .string
  | .object | .null | .unknown => .object
  | .lib c => .class_ (r.classToken c)
  | .class_ index => user index
  | .array element => .array (r.signature user element)

/-- The signature of a type of a program, whose classes are its type definitions. -/
def typeSig (r : References) : StaticType → TypeSig :=
  r.signature fun index => .class_ (.ofRow .typeDef index)

/-! ### Referring to something -/

/-- Refers to an assembly. -/
def useAssembly (r : References) (a : Library.Assembly) : References :=
  { r with assemblies := intern r.assemblies a }

/-- Refers to a class, hence to its assembly. -/
def useClass (r : References) (c : Library.Class) : References :=
  let r := r.useAssembly c.assembly
  { r with classes := intern r.classes c }

/-- Refers to the classes of a type. -/
def useType (r : References) : StaticType → References
  | .lib c => r.useClass c
  | .array element => r.useType element
  | _ => r

/-- Refers to a method, hence to its class and the classes of its signature. -/
def useMethod (r : References) (m : Library.Method) : References :=
  let r := (m.params.foldl useType (r.useClass m.class_)).useType m.ret
  { r with methods := intern r.methods m }

/-- Refers to a string. -/
def useString (r : References) (s : String) : References :=
  { r with strings := intern r.strings s }

/-- The core library is referred to first. -/
def start (core : Version) : References := useAssembly { core } .core

/-! ### The tables -/

/-- The assembly references. -/
def assemblyRefs (r : References) : List AssemblyRef :=
  r.assemblies.map fun a =>
    { name := a.name, version := a.version r.core, publicKeyToken := some a.publicKeyToken }

/-- The type references. -/
def typeRefs (r : References) : List TypeRef :=
  r.classes.map fun c =>
    { scope := r.assemblyToken c.assembly, namespace_ := c.namespace_, name := c.name }

/-- The member references. The framework knows no classes of programs. -/
def memberRefs (r : References) : List MemberRef :=
  r.methods.map fun m =>
    let sig := r.signature fun _ => .object
    { parent := r.classToken m.class_
      name := m.name
      sig := { hasThis := m.hasThis, ret := sig m.ret, params := m.params.map sig } }

end References

end CilScope
