import CilScope.Draft.Layout
import CilScope.Program.Basic
import CilScope.References

/-!
# The state of lowering a method

A method body is checked and turned into instructions in one walk. The walk knows where it is (the
program, the method, the loops and protected regions around it) and carries what it changes: the
references, the log, the draft of the body and the local variables in scope. `probe` finds the
type of an expression by walking it aside, without code and without diagnostics.
-/

namespace CilScope

/-- Choices that change the generated code. -/
structure CodeOptions where
  optimize : Bool
  debug : Bool
  /-- A local without a type takes that of its initial value. -/
  inferLocals : Bool
  /-- The version of the core library. -/
  core : Version
  /-- The runtime of Visual Basic is among the references. -/
  basicRuntime : Bool
  deriving DecidableEq, Repr, Inhabited

namespace Lowering

/-- A local variable in scope. -/
structure Local where
  name : String
  slot : UInt16
  type : StaticType
  pos : Source.Position
  read : Bool := false
  assigned : Bool := false
  /-- Every assignment stored a literal. -/
  constantOnly : Bool := true
  deriving DecidableEq, Repr, Inhabited

/-- A loop around the current statement. -/
structure LoopFrame where
  kind : Source.LoopKind
  /-- Where `break` goes. -/
  exit : Label
  /-- Where `continue` goes. -/
  next : Label
  /-- How many protected regions are around the loop. -/
  tryDepth : Nat
  deriving DecidableEq, Repr, Inhabited

/-- Where the walk is. -/
structure Context where
  program : Program
  options : CodeOptions
  /-- The type the method belongs to. -/
  owner : Nat
  method : Method
  /-- The loops around, from the inside out. -/
  loops : List LoopFrame := []
  /-- How many protected regions are around. -/
  tryDepth : Nat := 0
  /-- How many catching handlers are around. -/
  catchDepth : Nat := 0
  /-- Nothing is reported while the type of an expression is probed. -/
  muted : Bool := false

/-- What the walk changes. -/
structure State where
  references : References
  log : Log
  draft : Draft := {}
  /-- The locals in scope, from the inside out, each scope in the order of declaration. -/
  scopes : List (List Local) := []
  /-- The common exit of returns inside protected regions, and the local that holds the value. -/
  exit : Option (Label × Option UInt16) := none

/-- Steps of the walk. -/
abbrev Gen := ReaderT Context (StateM State)

/-! ### Diagnostics -/

/-- The language of the program. -/
def language : Gen Language := return (← read).program.language

/-- Reports a problem. -/
def report (pos : Source.Position) (cause : Cause) : Gen Unit := do
  unless (← read).muted do
    modify fun s => { s with log := s.log.report pos cause }

/-- Reports a problem with an expression, which then has no type. -/
def refuse (pos : Source.Position) (cause : Cause) : Gen StaticType := do
  report pos cause
  return .unknown

/-- The name of a type in diagnostics. -/
def typeName (t : StaticType) : Gen String := return (← read).program.typeName t

/-! ### Code -/

/-- Changes the draft. -/
def edit (f : Draft → Draft) : Gen Unit := modify fun s => { s with draft := f s.draft }

/-- Changes the draft and takes what that yields. -/
def make {α : Type} (f : Draft → Draft × α) : Gen α :=
  modifyGet fun s =>
    let (draft, a) := f s.draft
    (a, { s with draft })

/-- Appends an instruction without operand. -/
def emit (op : Opcode) : Gen Unit := edit (·.emit op)

/-- Appends a branch. -/
def branch (op : Opcode) (target : Label) : Gen Unit := edit (·.branch op target)

/-- Binds a label to the next instruction. -/
def mark (l : Label) : Gen Unit := edit (·.mark l)

/-- A fresh label. -/
def newLabel : Gen Label := make Draft.newLabel

/-- Whether the next instruction can be reached. -/
def isReachable : Gen Bool := return (← get).draft.isReachable

/-- Notes the start of a statement, under debug information only. -/
def point (pos : Source.Position) : Gen Unit := do
  if (← read).options.debug then edit (·.point pos)

/-- The instruction that marks a block in code that is not optimized. -/
def blockMark : Gen Unit := do
  unless (← read).options.optimize do emit .nop

/-- Loads the value a variable of a type starts with. -/
def loadDefault (t : StaticType) : Gen Unit :=
  if t = .int ∨ t = .bool then edit (·.loadInt 0) else emit .ldnull

/-! ### References -/

/-- Refers to a class and gives its token. -/
def classToken (c : Library.Class) : Gen Token :=
  modifyGet fun s =>
    let references := s.references.useClass c
    (references.classToken c, { s with references })

/-- Refers to a method and gives its token. -/
def methodToken (m : Library.Method) : Gen Token :=
  modifyGet fun s =>
    let references := s.references.useMethod m
    (references.methodToken m, { s with references })

/-- Refers to a string and gives its token. -/
def stringToken (text : String) : Gen Token :=
  modifyGet fun s =>
    let references := s.references.useString text
    (references.stringToken text, { s with references })

/-- Refers to the classes of a type and gives its signature. -/
def typeSig (t : StaticType) : Gen TypeSig :=
  modifyGet fun s =>
    let references := s.references.useType t
    (references.typeSig t, { s with references })

/-- The type a written type means here. -/
def resolveType (t : Source.TypeUse) : Gen StaticType := do
  let context ← read
  let (type, log) := (context.program.resolve context.owner t.pos t.name).run (← get).log
  unless context.muted do modify fun s => { s with log }
  return type

/-! ### Probing -/

/-- Does a step aside: its code is thrown away and its diagnostics are not reported. -/
def probe {α : Type} (step : Gen α) : Gen α := fun context s =>
  let (a, s') := step { context with muted := true } { s with draft := {} }
  (a, { s' with draft := s.draft })

/-! ### Locals -/

/-- The local that a name means. -/
def findLocal? (language : Language) (scopes : List (List Local)) (name : String) : Option Local :=
  scopes.findSome? (·.find? (language.sameName ·.name name))

/-- Declares a local in the innermost scope; a name that is taken is reported. -/
def declareLocal (name : String) (type : StaticType) (pos : Source.Position) :
    Gen (Option Local) := do
  if (findLocal? (← language) (← get).scopes name).isSome then
    report pos (.duplicateLocal name)
    return none
  let sig ← typeSig type
  let debugName := if (← read).options.debug then some name else none
  let slot ← make (·.declareLocal sig debugName)
  let new : Local := { name, slot, type, pos }
  modify fun s => { s with scopes := match s.scopes with
    | [] => []
    | scope :: outer => (scope ++ [new]) :: outer }
  return some new

/-- Changes the local in a slot. -/
def updateLocal (slot : UInt16) (f : Local → Local) : Gen Unit :=
  modify fun s => { s with
    scopes := s.scopes.map fun scope => scope.map fun l => if l.slot = slot then f l else l }

/-- Notes that a local is read. -/
def markRead (slot : UInt16) : Gen Unit := updateLocal slot fun l => { l with read := true }

/-- Notes that a local is assigned, and whether it was a literal. -/
def markAssigned (slot : UInt16) (literal : Bool) : Gen Unit :=
  updateLocal slot fun l =>
    { l with assigned := true, constantOnly := l.constantOnly && literal }

/-- The complaint about a local at the end of its scope, if there is one. -/
def Local.complaint? (l : Local) (language : Language) : Option Cause :=
  if l.read then none
  else if !l.assigned then some (.unusedVariable l.name)
  else if language = .csharp ∧ l.constantOnly then some (.assignedNeverUsed l.name)
  else none

/-- Does a step in a scope of its own. -/
def inScope (step : Gen Unit) : Gen Unit := do
  modify fun s => { s with scopes := [] :: s.scopes }
  step
  let closed := (← get).scopes.headD []
  modify fun s => { s with scopes := s.scopes.tail }
  let language ← language
  for l in closed do
    if let some cause := l.complaint? language then report l.pos cause

/-- Does the body of a compound statement, in a scope of its own. -/
def nested (body : Gen Unit) : Gen Unit :=
  inScope do
    blockMark
    body

end Lowering

end CilScope
