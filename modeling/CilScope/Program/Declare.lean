import CilScope.Program.Basic

/-!
# Declaring a program

From the syntax tree to the declared types and members. All types are declared before any member,
so members may name types that stand below them. A class gets a constructor, and a type with
initialized static fields gets an initializer.
-/

namespace CilScope.Program

open Source

/-- The visibility of a declared access. -/
def visibilityOf : Access → Visibility
  | .public_ => .public_
  | .private_ => .private_
  | .internal => .assembly
  | .protected_ => .family

/-- The access of a type that declares none. -/
def defaultTypeAccess (language : Language) (enclosing : Option Nat) : Access :=
  match language, enclosing with
  | .csharp, some _ => .private_
  | .visualBasic, some _ => .public_
  | _, none => .internal

/-- The access of a method that declares none. -/
def defaultMethodAccess : Language → Access
  | .csharp => .private_
  | .visualBasic => .public_

/-- What a type is declared in, for diagnostics. -/
def containerName (o : Outline) (namespace_ : String) : Option Nat → String
  | some outer => ((o.types[outer]?).map (·.name)).getD ""
  | none => if namespace_.isEmpty then "<global namespace>" else namespace_

mutual

/-- Declares a type and the types nested in it. A second type of the same name in the same place
is reported. -/
def declareType (enclosing : Option Nat) : TypeDecl → Outline → StateM Log Outline
  | ⟨namespace_, name, kind, access, _, _, nested, pos⟩, o => do
    let clashes (t : TypeHead) : Bool :=
      t.enclosing = enclosing && o.sameName t.namespace_ namespace_ && o.sameName t.name name
    if o.types.any clashes then
      modify (·.report pos (.duplicateMember (containerName o namespace_ enclosing) name))
    let visibility := visibilityOf (access.getD (defaultTypeAccess o.language enclosing))
    let head : TypeHead := { namespace_, name, kind, visibility, enclosing }
    declareTypes (some o.types.size) nested { o with types := o.types.push head }

/-- Declares types and the types nested in them. -/
def declareTypes (enclosing : Option Nat) : List TypeDecl → Outline → StateM Log Outline
  | [], o => return o
  | d :: rest, o => do declareTypes enclosing rest (← declareType enclosing d o)

end

mutual

/-- A type declaration and those nested in it, in the order of their rows. -/
def flatten : TypeDecl → List TypeDecl
  | ⟨namespace_, name, kind, access, fields, methods, nested, pos⟩ =>
    ⟨namespace_, name, kind, access, fields, methods, nested, pos⟩ :: flattenAll nested

/-- Type declarations and those nested in them, in the order of their rows. -/
def flattenAll : List TypeDecl → List TypeDecl
  | [] => []
  | d :: rest => flatten d ++ flattenAll rest

end

/-- Declares the fields of the type at `index`, behind the fields `before`. -/
def declareFields (o : Outline) (index : Nat) (d : TypeDecl) (before : List Field) :
    List FieldDecl → StateM Log (List Field)
  | [] => return before
  | f :: rest => do
    if before.any (o.sameName ·.name f.name) then
      modify (·.report f.pos (.duplicateMember d.name f.name))
    if d.kind = .staticClass ∧ !f.isStatic then
      modify (·.report f.pos (.instanceMemberInStaticClass f.name))
    let type ← o.resolve index f.type.pos f.type.name
    let field : Field :=
      { decl := f, type, isStatic := f.isStatic || d.kind = .module_
        visibility := visibilityOf (f.access.getD .private_) }
    declareFields o index d (before ++ [field]) rest

/-- Declares the methods of the type at `index`, behind the methods `before`. -/
def declareMethods (o : Outline) (index : Nat) (d : TypeDecl) (before : List Method) :
    List MethodDecl → StateM Log (List Method)
  | [] => return before
  | m :: rest => do
    if d.kind = .staticClass ∧ !m.isStatic then
      modify (·.report m.pos (.instanceMemberInStaticClass m.name))
    let ret ← o.resolve index m.ret.pos m.ret.name
    let params ← m.params.mapM fun p => o.resolve index p.type.pos p.type.name
    if before.any fun b => o.sameName b.name m.name && b.params = params then
      modify (·.report m.pos (.duplicateMember d.name m.name))
    let method : Method :=
      { name := m.name, ret, params, paramNames := m.params.map (·.name)
        isStatic := m.isStatic || d.kind = .module_
        visibility := visibilityOf (m.access.getD (defaultMethodAccess o.language))
        origin := .declared m }
    declareMethods o index d (before ++ [method]) rest

/-- Declares the members of the type at `index`. -/
def declareMembers (o : Outline) (index : Nat) (d : TypeDecl) : StateM Log Members := do
  let fields ← declareFields o index d [] d.fields
  let methods ← declareMethods o index d [] d.methods
  let methods := if d.kind = .class_ then methods ++ [.ctor] else methods
  let methods :=
    if fields.any fun f => f.isStatic && f.decl.init.isSome then methods ++ [.cctor] else methods
  return { fields, methods }

/-- Declares the members of the types from row `index` on. -/
def declareAllMembers (o : Outline) (index : Nat) : List TypeDecl → StateM Log (List Members)
  | [] => return []
  | d :: rest => do
    let members ← declareMembers o index d
    return members :: (← declareAllMembers o (index + 1) rest)

/-- Gives the members their rows: one after the other, type by type. -/
def numberRows (fieldRow methodRow : Nat) : List Members → List Members
  | [] => []
  | m :: rest =>
    { fields := m.fields.mapIdx fun i f => { f with row := fieldRow + i }
      methods := m.methods.mapIdx fun i x => { x with row := methodRow + i } } ::
      numberRows (fieldRow + m.fields.length) (methodRow + m.methods.length) rest

/-- Declares a program. -/
def declare (language : Language) (unit : CompilationUnit) : StateM Log Program := do
  let start : Outline :=
    { language, imports := unit.imports.map (·.namespace_), types := #[.placeholder] }
  let outline ← declareTypes none unit.types start
  let members ← declareAllMembers outline 1 (flattenAll unit.types)
  return { outline with members := (numberRows 0 0 ({} :: members)).toArray }

end CilScope.Program
