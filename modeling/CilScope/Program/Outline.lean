import CilScope.Diagnostic.Log
import CilScope.Source.Tree
import CilScope.StaticType

/-!
# The types of a program by name

The types a program declares, outer types before the types nested in them, and how a name finds
one of them. Seen from inside a type, a simple name means a type nested there or in one of the
enclosing types, then a type of the same, an imported or no namespace; a dotted name is the full
name. What the program does not declare is looked up in the framework.
-/

namespace CilScope

/-- A declared type without its members. -/
structure TypeHead where
  namespace_ : String := ""
  name : String
  kind : Source.TypeKind := .class_
  visibility : Visibility := .private_
  /-- The row of the type this one is nested in. -/
  enclosing : Option Nat := none
  deriving DecidableEq, Repr, Inhabited

namespace TypeHead

/-- Whether the type has no instances. -/
def isStatic (t : TypeHead) : Bool := t.kind ≠ .class_

/-- The head of the type every module starts with. -/
def placeholder : TypeHead := { name := TypeDef.placeholder.name }

end TypeHead

/-- The types of a program, by row; row zero is the placeholder. -/
structure Outline where
  language : Language
  /-- The imported namespaces. -/
  imports : List String
  types : Array TypeHead
  deriving DecidableEq, Repr, Inhabited

namespace Outline

/-- Whether two names are the same in the language of the program. -/
def sameName (o : Outline) (a b : String) : Bool := o.language.sameName a b

/-- The rows of declared types. -/
def rows (o : Outline) : List Nat := (List.range o.types.size).drop 1

/-- The first declared type with a property. -/
def findRow? (o : Outline) (p : TypeHead → Bool) : Option Nat :=
  o.rows.find? fun i => (o.types[i]?).any p

/-- The type at `index` and the types around it, from the inside out, following at most `depth`
links. -/
def chainWithin (types : Array TypeHead) : (depth index : Nat) → List Nat
  | 0, index => [index]
  | depth + 1, index =>
    match types[index]?.bind (·.enclosing) with
    | some outer => index :: chainWithin types depth outer
    | none => [index]

/-- The type at `index` and the types around it, from the inside out. -/
def chain (o : Outline) (index : Nat) : List Nat := chainWithin o.types o.types.size index

/-- The namespace of the outermost type around `index`. -/
def namespaceAt (o : Outline) (index : Nat) : String :=
  (((o.chain index).getLast?.bind (o.types[·]?)).map (·.namespace_)).getD ""

/-- The type with a simple name that is nested in `outer`. -/
def nested? (o : Outline) (name : String) (outer : Nat) : Option Nat :=
  o.findRow? fun t => t.enclosing = some outer && o.sameName t.name name

/-- The type with a simple name that is nested in no other, as seen from a namespace. -/
def topLevel? (o : Outline) (name namespace_ : String) : Option Nat :=
  o.findRow? fun t => t.enclosing.isNone && o.sameName t.name name &&
    (t.namespace_.isEmpty || o.sameName t.namespace_ namespace_ ||
      o.imports.any (o.sameName · t.namespace_))

/-- The name of a type as programs write it: a dot behind the namespace and behind every enclosing
type. -/
def dottedName (o : Outline) (index : Nat) : String :=
  match o.chain index with
  | [] => ""
  | inner :: outer =>
    let name (i : Nat) : String := ((o.types[i]?).map (·.name)).getD ""
    Metadata.qualified (o.namespaceAt index)
      (outer.foldl (fun text i => name i ++ "." ++ text) (name inner))

/-- The type of the program that `name` means inside the type at `index`. -/
def find? (o : Outline) (index : Nat) (name : String) : Option Nat :=
  if name.contains '.' then o.rows.find? fun i => o.sameName (o.dottedName i) name
  else ((o.chain index).findSome? (o.nested? name)).or (o.topLevel? name (o.namespaceAt index))

/-- The type that `name` means inside the type at `index`. -/
def lookup? (o : Outline) (index : Nat) (name : String) : Option StaticType :=
  match o.find? index name with
  | some i => some (.class_ i)
  | none => (Library.Class.find? o.language o.imports name).map .ofClass

/-- The type a written type means inside the type at `index`; a class nobody declares is
reported. -/
def resolve (o : Outline) (index : Nat) (pos : Source.Position) :
    Source.TypeName → StateM Log StaticType
  | .void => return .void
  | .int => return .int
  | .bool => return .bool
  | .string => return .string
  | .object => return .object
  | .array element => do
    match ← o.resolve index pos element with
    | .unknown => return .unknown
    | t => return .array t
  | .named name => do
    match o.lookup? index name with
    | some t => return t
    | none =>
      modify (·.report pos (.typeNotFound name))
      return .unknown

/-- The name of a type in diagnostics. -/
def typeName (o : Outline) : StaticType → String
  | .class_ index => o.dottedName index
  | .array (.class_ index) => o.dottedName index ++ StaticType.arraySuffix o.language
  | t => t.display o.language

end Outline

end CilScope
