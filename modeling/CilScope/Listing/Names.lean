import CilScope.Flow.Graph
import CilScope.Module
import CilScope.Text.Quoted

/-!
# Names in listings

Tokens and signatures as text. Every lookup is made on behalf of a site, the member or type being
written, because a token that leads nowhere is reported together with the place it was found at.
-/

namespace CilScope

/-- Why a module cannot be listed. -/
inductive ListingError
  | body (method : String) (error : Flow.GraphError)
  | unknownToken (site : String) (token : Token)
  deriving DecidableEq, Repr, Inhabited

/-- The wording of a listing error. -/
def ListingError.message : ListingError → String
  | body method error => error.message method
  | unknownToken site token => "Unknown token " ++ token.text ++ " in " ++ site

namespace Listing

/-- The tables names are looked up in, and the site they are looked up for. -/
structure Names where
  metadata : Metadata
  site : String

namespace Names

/-- The error for a token that leads nowhere. -/
def unknown {α : Type} (n : Names) (t : Token) : Except ListingError α :=
  .error (.unknownToken n.site t)

/-- The row a token of this table points at. -/
def row {α : Type} (n : Names) (table : Table) (rows : List α) (t : Token) :
    Except ListingError α :=
  if t.table? = some table then
    match t.row?.bind (rows[·]?) with
    | some x => return x
    | none => n.unknown t
  else n.unknown t

/-- The name of a type in its `.class` line: with its namespace unless it is nested. -/
def declared (type : TypeDef) : String :=
  if type.enclosing.isSome then Text.Quoted.name type.name
  else Text.Quoted.name (Metadata.qualified type.namespace_ type.name)

/-- The name of the type at `index`, following at most `depth` enclosing types. -/
def typeDefWithin (types : List TypeDef) : (depth index : Nat) → String
  | depth, index =>
    match types[index]? with
    | none => ""
    | some type =>
      match type.enclosing, depth with
      | some outer, depth + 1 =>
        typeDefWithin types depth outer ++ "/" ++ Text.Quoted.name type.name
      | some _, 0 => Text.Quoted.name type.name
      | none, _ => declared type

/-- The name of the type at `index`, behind those of the types it is nested in. -/
def typeDef (n : Names) (index : Nat) : String :=
  typeDefWithin n.metadata.types n.metadata.types.length index

/-- The name of a type: a referenced one behind its assembly, a defined one in full. -/
def typeToken (n : Names) (t : Token) : Except ListingError String :=
  match t.table? with
  | some .typeRef => do
    let type ← n.row .typeRef n.metadata.typeRefs t
    let scope ← n.row .assemblyRef n.metadata.assemblyRefs type.scope
    return "[" ++ Text.Quoted.name scope.name ++ "]" ++
      Text.Quoted.name (Metadata.qualified type.namespace_ type.name)
  | some .typeDef =>
    match t.row? with
    | some i => if i < n.metadata.types.length then return n.typeDef i else n.unknown t
    | none => n.unknown t
  | _ => n.unknown t

/-- A type of a signature. -/
def sig (n : Names) : TypeSig → Except ListingError String
  | .void => return "void"
  | .bool => return "bool"
  | .int32 => return "int32"
  | .string => return "string"
  | .object => return "object"
  | .class_ t => return "class " ++ (← n.typeToken t)
  | .array element => return (← n.sig element) ++ "[]"

/-- A method with its signature, the parameters in parentheses. -/
def method (n : Names) (s : MethodSig) (parent name : String) : Except ListingError String := do
  let params ← s.params.mapM n.sig
  let ret ← n.sig s.ret
  return (if s.hasThis then "instance " else "") ++ ret ++ " " ++ parent ++ "::" ++
    Text.Quoted.name name ++ "(" ++ ", ".intercalate params ++ ")"

/-- A referenced or defined method. -/
def methodToken (n : Names) (t : Token) : Except ListingError String :=
  match t.table? with
  | some .memberRef => do
    let member ← n.row .memberRef n.metadata.memberRefs t
    n.method member.sig (← n.typeToken member.parent) member.name
  | some .methodDef =>
    match t.row?.bind (n.metadata.methods[·]?) with
    | some (type, def_) => n.method def_.sig (n.typeDef type) def_.name
    | none => n.unknown t
  | _ => n.unknown t

/-- A field with its type. -/
def fieldToken (n : Names) (t : Token) : Except ListingError String := do
  match t.row?.bind (n.metadata.fields[·]?) with
  | some (type, field) =>
    return (← n.sig field.sig) ++ " " ++ n.typeDef type ++ "::" ++ Text.Quoted.name field.name
  | none => n.unknown t

/-- The text of a token operand, by its table. -/
def token (n : Names) (t : Token) : Except ListingError String := do
  match t.table? with
  | some .userString => return Text.Quoted.literal (← n.row .userString n.metadata.userStrings t)
  | some .memberRef | some .methodDef => n.methodToken t
  | some .field => n.fieldToken t
  | some .typeRef | some .typeDef => n.typeToken t
  | _ => n.unknown t

end Names

/-- The name of the argument at `index`; the receiver of an instance method comes first. -/
def argumentName (m : MethodDef) (index : Nat) : String :=
  let named (position : Nat) := match m.paramNames[position]? with
    | some name => Text.Quoted.name name
    | none => s!"A_{index}"
  if m.sig.hasThis then
    match index with
    | 0 => "this"
    | position + 1 => named position
  else named index

/-- The name of the local variable at `index`. -/
def localName (m : MethodDef) (index : Nat) : String :=
  match m.locals[index]?.bind (·.name) with
  | some name => Text.Quoted.name name
  | none => s!"V_{index}"

/-- The text of an operand, where `jump` replaces a branch target. -/
def operandText (n : Names) (m : MethodDef) (i : Instruction) (jump : Option String) :
    Except ListingError (Option String) := do
  match i.operand with
  | .none => return none
  | .int v => return some (toString v.toInt)
  | .var index =>
    match i.opcode with
    | .ldarg | .ldargS | .stargS => return some (argumentName m index.toNat)
    | _ => return some (localName m index.toNat)
  | .target t => return some (jump.getD (offsetLabel t))
  | .token t => return some (← n.token t)

/-- The line of an instruction: its offset, its mnemonic and its operand. -/
def instructionLine (n : Names) (m : MethodDef) (i : Instruction) (jump : Option String) :
    Except ListingError String := do
  let head := offsetLabel i.offset ++ ": " ++ i.opcode.mnemonic
  match ← operandText n m i jump with
  | some operand => return head ++ " " ++ operand
  | none => return head

end Listing

end CilScope
