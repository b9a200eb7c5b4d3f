import CilScope.Library.Class

/-!
# Static types

The types the compiler gives to expressions and declarations, how they are called in diagnostics,
and which of them convert to which. An expression that has already been complained about has the
type `unknown`, which converts to and from everything, so one mistake is reported once.
-/

namespace CilScope

/-- The type of an expression or a declaration. -/
inductive StaticType
  | void
  | bool
  | int
  | string
  | object
  /-- The type of the literal for no object. -/
  | null
  /-- A class of the framework that has no type of its own here. -/
  | lib (c : Library.Class)
  /-- A class of the program, by its row. -/
  | class_ (index : Nat)
  | array (element : StaticType)
  /-- The type of what has already been reported as wrong. -/
  | unknown
  deriving DecidableEq, Repr, Inhabited

namespace StaticType

/-- Whether the values of a type are references. -/
def isReference : StaticType → Bool
  | string | object | null | lib _ | class_ _ | array _ => true
  | void | bool | int | unknown => false

/-- What a language writes behind the element type of an array. -/
def arraySuffix : Language → String
  | .csharp => "[]"
  | .visualBasic => "()"

/-- The name of a type in diagnostics; a class of the program goes by its number. -/
def display (language : Language) : StaticType → String
  | array element => element.display language ++ arraySuffix language
  | lib c => c.fullName
  | class_ index => s!"class #{index}"
  | unknown => "?"
  | void => match language with | .csharp => "void" | .visualBasic => "Void"
  | bool => match language with | .csharp => "bool" | .visualBasic => "Boolean"
  | int => match language with | .csharp => "int" | .visualBasic => "Integer"
  | string => match language with | .csharp => "string" | .visualBasic => "String"
  | object => match language with | .csharp => "object" | .visualBasic => "Object"
  | null => match language with | .csharp => "<null>" | .visualBasic => "Nothing"

/-- The type a class of the framework stands for. -/
def ofClass : Library.Class → StaticType
  | .object => object
  | .string => string
  | .int32 => int
  | .boolean => bool
  | c => lib c

/-- The class of the framework that has the members of a type. -/
def class? : StaticType → Option Library.Class
  | string => some .string
  | object => some .object
  | int => some .int32
  | bool => some .boolean
  | lib c => some c
  | _ => none

/-- Whether a value of type `s` may stand where one of type `t` is expected. -/
def convertsTo (s t : StaticType) : Bool :=
  if s = unknown ∨ t = unknown ∨ s = t then true
  else if s = void then false
  else if t = object then true
  else s = null && t.isReference

/-- Whether values of the two types may be compared for equality. -/
def comparable (s t : StaticType) : Bool :=
  (s = int && t = int) || (s = bool && t = bool) ||
    (s.isReference && t.isReference && (s = t || s.convertsTo t || t.convertsTo s))

end StaticType

end CilScope
