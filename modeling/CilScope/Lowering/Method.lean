import CilScope.Lowering.Statement

/-!
# Methods

The bodies of declared methods, of constructors and of initializers of static fields.
-/

namespace CilScope.Lowering

/-- The end of a declared method: a return if the end can be reached, and the exit of returns
inside protected regions if there are any. A missing value is reported. -/
def endOfMethod (decl : Source.MethodDecl) : Gen Unit := do
  let method := (← read).method
  if ← isReachable then
    point decl.endPos
    if method.ret = .void then blockMark
    else
      report decl.pos (.notAllPathsReturn method.name)
      loadDefault method.ret
    emit .ret
  if let some (label, slot) := (← get).exit then
    mark label
    if let some slot := slot then edit (·.loadLocal slot)
    emit .ret

/-- The body of a declared method. -/
def declaredBody (decl : Source.MethodDecl) : Gen Unit := do
  point decl.pos
  blockMark
  inScope (statements decl.body)
  endOfMethod decl

/-- Stores the initial value of a field, if it has one. -/
def initializeField (f : Field) : Gen Unit := do
  if let some init := f.decl.init then
    point f.decl.pos
    unless f.isStatic do edit (·.loadArg 0)
    coerce (← evaluate init) f.type init.pos
    edit (·.emitToken (if f.isStatic then .stsfld else .stfld) f.token)

/-- Stores the initial values of the static or of the other fields of the type. -/
def initializeFields (static_ : Bool) : Gen Unit := do
  let context ← read
  ((context.program.membersOf context.owner).fields.filter (·.isStatic = static_)).forM
    initializeField

/-- The body of a constructor. C# stores the initial values before it calls the constructor of the
base class, Visual Basic after. -/
def ctorBody : Gen Unit := do
  let callBase : Gen Unit := do
    edit (·.loadArg 0)
    let token ← methodToken .objectCtor
    edit (·.emitCall .call token 1 0)
  match ← language with
  | .csharp =>
    initializeFields false
    callBase
  | .visualBasic =>
    callBase
    initializeFields false
  blockMark
  emit .ret

/-- The body of an initializer of static fields. -/
def cctorBody : Gen Unit := do
  initializeFields true
  emit .ret

/-- The body of a method. -/
def methodBody : Gen Unit := do
  match (← read).method.origin with
  | .declared decl => declaredBody decl
  | .ctor => ctorBody
  | .cctor => cctorBody

/-- What the bodies of a program share. -/
structure Shared where
  references : References
  log : Log

/-- Lowers a method. -/
def lowerMethod (program : Program) (options : CodeOptions) (owner : Nat) (method : Method)
    (shared : Shared) : Except GenerationFault (FinishedBody × Shared) := do
  if 0x10000 ≤ method.arity then throw (.tooManyArguments method.name method.arity)
  let start : State :=
    { references := shared.references, log := shared.log }
  let (_, state) := methodBody { program, options, owner, method } start
  let body ← state.draft.finish
  return (body, { references := state.references, log := state.log })

/-- Lowers the methods of a type. -/
def lowerMethods (program : Program) (options : CodeOptions) (owner : Nat) :
    List Method → Shared → Except GenerationFault (List FinishedBody × Shared)
  | [], shared => return ([], shared)
  | m :: rest, shared => do
    let (body, shared) ← lowerMethod program options owner m shared
    let (bodies, shared) ← lowerMethods program options owner rest shared
    return (body :: bodies, shared)

/-- Lowers the types from row `row` on. -/
def lowerTypes (program : Program) (options : CodeOptions) (row : Nat) :
    List Members → Shared → Except GenerationFault (List (List FinishedBody) × Shared)
  | [], shared => return ([], shared)
  | members :: rest, shared => do
    let (bodies, shared) ← lowerMethods program options row members.methods shared
    let (others, shared) ← lowerTypes program options (row + 1) rest shared
    return (bodies :: others, shared)

end CilScope.Lowering
