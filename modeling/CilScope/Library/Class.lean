import CilScope.Framework
import CilScope.Language

/-!
# The classes of the framework

The part of the base class library that programs can use: a handful of classes programs may name,
and the attributes that compiled modules carry. A name finds a class by its full name, or by its
short name where the namespace is imported.
-/

namespace CilScope.Library

/-- The assemblies the classes live in. -/
inductive Assembly
  | core
  /-- The runtime of Visual Basic. -/
  | visualBasic
  deriving DecidableEq, Repr, Inhabited

namespace Assembly

/-- The name of an assembly. -/
def name : Assembly → String
  | core => "mscorlib"
  | visualBasic => "Microsoft.VisualBasic"

/-- The file of an assembly among the references of a compilation. -/
def file (a : Assembly) : String := a.name ++ ".dll"

/-- The public key token of an assembly. -/
def publicKeyToken : Assembly → Vector UInt8 8
  | core => Framework.corePublicKeyToken
  | visualBasic => #v[0xB0, 0x3F, 0x5F, 0x7F, 0x11, 0xD5, 0x0A, 0x3A]

/-- The version of an assembly that goes with a version of the core library. -/
def version (a : Assembly) (core : Version) : Version :=
  match a with
  | .core => core
  | .visualBasic => if 4 ≤ core.major then { major := 10 } else { major := 8 }

end Assembly

/-- The classes of the framework. -/
inductive Class
  | object
  | string
  | int32
  | boolean
  | console
  | math
  | exception
  | compilationRelaxations
  | runtimeCompatibility
  | standardModule
  deriving DecidableEq, Repr, Inhabited

namespace Class

/-- The classes a program may name. -/
def nameable : List Class := [object, string, int32, boolean, console, math, exception]

/-- Every class. -/
def all : List Class :=
  nameable ++ [compilationRelaxations, runtimeCompatibility, standardModule]

/-- The namespace of a class. -/
def namespace_ : Class → String
  | compilationRelaxations | runtimeCompatibility => "System.Runtime.CompilerServices"
  | standardModule => "Microsoft.VisualBasic.CompilerServices"
  | _ => "System"

/-- The name of a class. -/
def name : Class → String
  | object => "Object"
  | string => "String"
  | int32 => "Int32"
  | boolean => "Boolean"
  | console => "Console"
  | math => "Math"
  | exception => "Exception"
  | compilationRelaxations => "CompilationRelaxationsAttribute"
  | runtimeCompatibility => "RuntimeCompatibilityAttribute"
  | standardModule => "StandardModuleAttribute"

/-- The name of a class with its namespace. -/
def fullName (c : Class) : String := c.namespace_ ++ "." ++ c.name

/-- The assembly of a class. -/
def assembly : Class → Assembly
  | standardModule => .visualBasic
  | _ => .core

/-- Whether `name` means the class where `imports` are imported. -/
def isCalled (c : Class) (language : Language) (imports : List String) (name : String) : Bool :=
  language.sameName name c.fullName ||
    (language.sameName name c.name && imports.any (language.sameName · c.namespace_))

/-- The class a program means by `name` where `imports` are imported. -/
def find? (language : Language) (imports : List String) (name : String) : Option Class :=
  nameable.find? (·.isCalled language imports name)

end Class

end CilScope.Library
