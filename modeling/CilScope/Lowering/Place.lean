import CilScope.Lowering.State

/-!
# Names and places

What a simple name means inside a method: a local, a parameter, a field, a group of methods or a
type, in this order. The first three are places, which can be loaded and stored.
-/

namespace CilScope.Lowering

/-- The code of an expression: a step that leaves its value on the stack and gives its type, and a
step that jumps when it has a given truth value. -/
structure ExprCode where
  source : Source.Expr
  value : Gen StaticType
  jump : Label → Bool → Gen Unit

/-- The position of the expression. -/
def ExprCode.pos (c : ExprCode) : Source.Position := c.source.pos

/-- The object a member is used on. -/
inductive Receiver
  | none
  | this
  | expr (code : ExprCode)

/-- Something that can be assigned to. -/
inductive Place
  | local_ (slot : UInt16) (type : StaticType)
  | arg (index : UInt16) (type : StaticType)
  | field (field : Field) (receiver : Receiver)

/-- What a simple name means. -/
inductive Meaning
  | place (place : Place)
  /-- Methods of the type in this row. -/
  | methods (owner : Nat)
  | type (type : StaticType)
  | nothing

namespace Context

/-- The parameter that a name means. -/
def findParam? (c : Context) (name : String) : Option Place := do
  let i ← c.method.paramNames.findIdx? (c.program.sameName · name)
  let type ← c.method.params[i]?
  return .arg (UInt16.ofNat (i + if c.method.isStatic then 0 else 1)) type

/-- What a simple name means where `scopes` are the locals. -/
def resolve (c : Context) (scopes : List (List Local)) (name : String) : Meaning :=
  match findLocal? c.program.language scopes name with
  | some l => .place (.local_ l.slot l.type)
  | none =>
    match c.findParam? name with
    | some place => .place place
    | none =>
      match c.program.findField? c.owner name with
      | some (_, f) => .place (.field f (if f.isStatic then .none else .this))
      | none =>
        match c.program.methodOwner? c.owner name with
        | some owner => .methods owner
        | none =>
          match c.program.lookup? c.owner name with
          | some t => .type t
          | none => .nothing

/-- The type of a type keyword. -/
def keywordType? : Source.TypeName → Option StaticType
  | .int => some .int
  | .bool => some .bool
  | .string => some .string
  | .object => some .object
  | _ => none

/-- The name a chain of members starts with. -/
def rootName? : Source.Expr → Option String
  | .name _ n => some n
  | .member _ target _ => rootName? target
  | _ => none

/-- The type an expression names, if it names one. A place at the start of a chain of members
makes the chain a value. -/
def asType? (c : Context) (scopes : List (List Local)) (e : Source.Expr) : Option StaticType :=
  match e with
  | .typeKeyword _ t => keywordType? t
  | .name _ n =>
    match c.resolve scopes n with
    | .type t => some t
    | _ => none
  | .member _ target _ =>
    match (rootName? target).map (c.resolve scopes) with
    | some (.place _) => none
    | _ => e.dottedName?.bind (c.program.lookup? c.owner)
  | _ => none

end Context

/-- What a simple name means here. -/
def resolveName (name : String) : Gen Meaning :=
  return (← read).resolve (← get).scopes name

/-- The type an expression names here. -/
def asType? (e : Source.Expr) : Gen (Option StaticType) :=
  return (← read).asType? (← get).scopes e

/-- Whether an expression is a name that means nothing here. -/
def isUnknownName (e : Source.Expr) : Gen Bool := do
  match e with
  | .name _ n => return ((← resolveName n) matches .nothing)
  | _ => return false

namespace Place

/-- The type of a place. -/
def type : Place → StaticType
  | local_ _ t | arg _ t => t
  | field f _ => f.type

/-- Whether a place needs an object on the stack. -/
def hasReceiver : Place → Bool
  | field _ .this | field _ (.expr _) => true
  | _ => false

/-- Reports the use of a field of the current object where there is none. -/
def checkInstance (p : Place) (name : String) (pos : Source.Position) : Gen Unit := do
  if p matches .field _ .this then
    if (← read).method.isStatic then report pos (.instanceRequired name)

/-- Loads the object a place needs. -/
def loadReceiver : Place → Gen Unit
  | field _ .this => edit (·.loadArg 0)
  | field _ (.expr code) => discard code.value
  | _ => return

/-- Loads the value of a place whose object is on the stack. -/
def load : Place → Gen Unit
  | local_ slot _ => do
    markRead slot
    edit (·.loadLocal slot)
  | arg index _ => edit (·.loadArg index)
  | field f _ => edit (·.emitToken (if f.isStatic then .ldsfld else .ldfld) f.token)

/-- Stores a value into a place whose object is below the value. -/
def store : Place → Gen Unit
  | local_ slot _ => edit (·.storeLocal slot)
  | arg index _ => edit (·.storeArg index)
  | field f _ => edit (·.emitToken (if f.isStatic then .stsfld else .stfld) f.token)

/-- Notes an assignment to a place. -/
def noteAssigned (p : Place) (literal : Bool) : Gen Unit :=
  match p with
  | local_ slot _ => markAssigned slot literal
  | _ => return

end Place

end CilScope.Lowering
