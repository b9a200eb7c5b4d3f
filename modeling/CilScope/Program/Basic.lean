import CilScope.Program.Outline

/-!
# Declared programs

The fields and methods of every type, with the rows they take in the compiled module, and how a
name inside a type finds one of them: in the type itself, then in the types around it. Visual
Basic also finds the members of its modules everywhere.
-/

namespace CilScope

/-- A declared field. -/
structure Field where
  decl : Source.FieldDecl
  type : StaticType
  isStatic : Bool
  visibility : Visibility
  row : Nat := 0
  deriving Repr, Inhabited

namespace Field

/-- The name of the field. -/
def name (f : Field) : String := f.decl.name

/-- The token of the field. -/
def token (f : Field) : Token := .ofRow .field f.row

end Field

/-- Where the code of a method comes from. -/
inductive MethodOrigin
  | declared (decl : Source.MethodDecl)
  /-- The constructor every class has. -/
  | ctor
  /-- The initializer of the static fields. -/
  | cctor
  deriving Repr, Inhabited

/-- Whether a method stands in the source. -/
def MethodOrigin.isDeclared : MethodOrigin → Bool
  | declared _ => true
  | _ => false

/-- A method of a program. -/
structure Method where
  name : String
  ret : StaticType := .void
  params : List StaticType := []
  paramNames : List String := []
  isStatic : Bool
  visibility : Visibility
  origin : MethodOrigin
  row : Nat := 0
  deriving Repr, Inhabited

namespace Method

/-- The token of the method. -/
def token (m : Method) : Token := .ofRow .methodDef m.row

/-- How many arguments a call takes, the object included. -/
def arity (m : Method) : Nat := m.params.length + if m.isStatic then 0 else 1

/-- The constructor every class has. -/
def ctor : Method := { name := ".ctor", isStatic := false, visibility := .public_, origin := .ctor }

/-- The initializer of the static fields. -/
def cctor : Method :=
  { name := ".cctor", isStatic := true, visibility := .private_, origin := .cctor }

end Method

/-- The members of a type. -/
structure Members where
  fields : List Field := []
  methods : List Method := []
  deriving Repr, Inhabited

/-- Everything declared by a program. -/
structure Program extends Outline where
  /-- The members of the type in every row. -/
  members : Array Members
  deriving Repr, Inhabited

namespace Program

/-- The members of the type at `index`. -/
def membersOf (p : Program) (index : Nat) : Members := (p.members[index]?).getD {}

/-- The field of a type with a name. -/
def fieldOf? (p : Program) (index : Nat) (name : String) : Option Field :=
  (p.membersOf index).fields.find? (p.sameName ·.name name)

/-- The methods of a type with a name that stand in the source. -/
def methodsOf (p : Program) (index : Nat) (name : String) : List Method :=
  (p.membersOf index).methods.filter fun m => m.origin.isDeclared && p.sameName m.name name

/-- Whether the source has a method of a type with a name. -/
def hasMethod (p : Program) (index : Nat) (name : String) : Bool :=
  !(p.methodsOf index name).isEmpty

/-- The constructor of a type. -/
def ctorOf? (p : Program) (index : Nat) : Option Method :=
  (p.membersOf index).methods.find? fun m => m.origin matches .ctor

/-- The rows whose members are found without naming the type: the modules of Visual Basic. -/
def moduleRows (p : Program) : List Nat :=
  if p.language = .visualBasic then
    (List.range p.types.size).filter fun i => (p.types[i]?).any (·.kind = .module_)
  else []

/-- The field a name means inside the type at `index`, with the type it belongs to. -/
def findField? (p : Program) (index : Nat) (name : String) : Option (Nat × Field) :=
  (p.chain index ++ p.moduleRows).findSome? fun i => (p.fieldOf? i name).map (i, ·)

/-- The type whose methods a name means inside the type at `index`. -/
def methodOwner? (p : Program) (index : Nat) (name : String) : Option Nat :=
  ((p.chain index).find? (p.hasMethod · name)).or
    (p.moduleRows.find? fun i => (p.membersOf i).methods.any (p.sameName ·.name name))

end Program

end CilScope
