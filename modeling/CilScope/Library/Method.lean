import CilScope.Bytes
import CilScope.StaticType

/-!
# The methods of the framework

The signatures programs can call. Overloads stand in the order of preference. The constructors
that compiled modules refer to without being asked have names of their own.
-/

namespace CilScope.Library

/-- How a method is called. -/
inductive CallKind
  | static
  | instance_
  | ctor
  deriving DecidableEq, Repr, Inhabited

/-- A method of a framework class. -/
structure Method where
  class_ : Class
  name : String
  kind : CallKind
  ret : StaticType
  params : List StaticType
  deriving DecidableEq, Repr, Inhabited

namespace Method

/-- A static method. -/
def shared (class_ : Class) (name : String) (ret : StaticType) (params : List StaticType) :
    Method :=
  { class_, name, kind := .static, ret, params }

/-- An instance method without parameters. -/
def getter (class_ : Class) (name : String) (ret : StaticType) : Method :=
  { class_, name, kind := .instance_, ret, params := [] }

/-- A constructor. -/
def ctor (class_ : Class) (params : List StaticType) : Method :=
  { class_, name := ".ctor", kind := .ctor, ret := .void, params }

/-- The constructor every constructor of a program calls. -/
def objectCtor : Method := ctor .object []

/-- The constructor of the attribute for relaxed compilation. -/
def compilationRelaxationsCtor : Method := ctor .compilationRelaxations [.int]

/-- The constructor of the attribute for runtime compatibility. -/
def runtimeCompatibilityCtor : Method := ctor .runtimeCompatibility []

/-- The constructor of the attribute that marks a module of Visual Basic. -/
def standardModuleCtor : Method := ctor .standardModule []

/-- Concatenation of two strings. -/
def concatStrings : Method := shared .string "Concat" .string [.string, .string]

/-- Concatenation of the texts of two objects. -/
def concatObjects : Method := shared .string "Concat" .string [.object, .object]

/-- Equality of strings. -/
def stringEquality : Method := shared .string "op_Equality" .bool [.string, .string]

/-- Inequality of strings. -/
def stringInequality : Method := shared .string "op_Inequality" .bool [.string, .string]

/-- Every method, overloads in the order of preference. -/
def all : List Method :=
  [shared .console "WriteLine" .void [],
   shared .console "WriteLine" .void [.string],
   shared .console "WriteLine" .void [.int],
   shared .console "WriteLine" .void [.bool],
   shared .console "WriteLine" .void [.object],
   shared .console "Write" .void [.string],
   shared .console "Write" .void [.int],
   shared .console "Write" .void [.bool],
   shared .console "Write" .void [.object],
   shared .console "ReadLine" .string [],
   shared .math "Max" .int [.int, .int],
   shared .math "Min" .int [.int, .int],
   shared .math "Abs" .int [.int],
   concatStrings,
   shared .string "Concat" .string [.string, .string, .string],
   concatObjects,
   shared .string "IsNullOrEmpty" .bool [.string],
   stringEquality,
   stringInequality,
   getter .string "get_Length" .int,
   getter .string "ToUpper" .string,
   getter .string "ToLower" .string,
   shared .int32 "Parse" .int [.string],
   objectCtor,
   getter .object "ToString" .string,
   ctor .exception [],
   ctor .exception [.string],
   getter .exception "get_Message" .string,
   compilationRelaxationsCtor,
   runtimeCompatibilityCtor,
   standardModuleCtor]

/-- The methods of a class with a name and a way of calling them. -/
def own (language : Language) (class_ : Class) (kind : CallKind) (name : String) : List Method :=
  all.filter fun m => m.class_ = class_ && m.kind = kind && language.sameName m.name name

/-- The overloads a call has to choose from: those of the class and, for instance methods, those
every object has. -/
def overloads (language : Language) (class_ : Class) (kind : CallKind) (name : String) :
    List Method :=
  own language class_ kind name ++
    if kind = .instance_ ∧ class_ ≠ .object then own language .object kind name else []

/-- The constructor of a class with these parameters. -/
def ctor? (class_ : Class) (params : List StaticType) : Option Method :=
  all.find? fun m => m.class_ = class_ && m.kind = .ctor && m.params = params

/-- Whether a call takes an object from the stack. -/
def hasThis (m : Method) : Bool := m.kind ≠ .static

end Method

/-! ### The arguments of attributes -/

/-- Compilation relaxations: the value eight. -/
def compilationRelaxationsBlob : List UInt8 := [0x01, 0x00, 0x08, 0x00, 0x00, 0x00, 0x00, 0x00]

/-- Runtime compatibility: exceptions of other kinds are wrapped. -/
def runtimeCompatibilityBlob : List UInt8 :=
  [0x01, 0x00, 0x01, 0x00, 0x54, 0x02, 0x16] ++ Bytes.ofString "WrapNonExceptionThrows" ++ [0x01]

/-- No arguments. -/
def emptyBlob : List UInt8 := [0x01, 0x00, 0x00, 0x00]

end CilScope.Library
