import CilScope.Lowering.Call

/-!
# Operators

Which operators apply to which types, and their code. `operatorCode?` says what is done with two
operands that are on the stack; concatenation converts its operands first and so is apart.
-/

namespace CilScope.Lowering

open Source (UnaryOp BinaryOp)

/-- The spelling of an operator with two operands. -/
def binarySymbol (language : Language) : BinaryOp → String
  | .add => "+"
  | .sub => "-"
  | .mul => "*"
  | .div => "/"
  | .intDiv => "\\"
  | .rem => match language with | .csharp => "%" | .visualBasic => "Mod"
  | .concat => "&"
  | .lt => "<"
  | .gt => ">"
  | .le => "<="
  | .ge => ">="
  | .eq => match language with | .csharp => "==" | .visualBasic => "="
  | .ne => match language with | .csharp => "!=" | .visualBasic => "<>"
  | .andAlso => match language with | .csharp => "&&" | .visualBasic => "AndAlso"
  | .orElse => match language with | .csharp => "||" | .visualBasic => "OrElse"
  | .and => match language with | .csharp => "&" | .visualBasic => "And"
  | .or => match language with | .csharp => "|" | .visualBasic => "Or"

/-- The spelling of an operator with one operand. -/
def unarySymbol (language : Language) : UnaryOp → String
  | .neg => "-"
  | .not => match language with | .csharp => "!" | .visualBasic => "Not"

/-- What an operator does with its operands. -/
inductive OperatorCode
  | opcodes (ops : List Opcode) (result : StaticType)
  | call (method : Library.Method)
  deriving DecidableEq, Repr, Inhabited

/-- The code of an operator on operands of two types, if it applies to them. -/
def operatorCode? (op : BinaryOp) (lt rt : StaticType) : Option OperatorCode :=
  let onInts (ops : List Opcode) (result : StaticType) : Option OperatorCode :=
    if lt = .int ∧ rt = .int then some (.opcodes ops result) else none
  let onBits (op : Opcode) : Option OperatorCode :=
    if lt = rt ∧ (lt = .int ∨ lt = .bool) then some (.opcodes [op] lt) else none
  let onEqual (method : Library.Method) (ops : List Opcode) : Option OperatorCode :=
    if lt = .string ∧ rt = .string then some (.call method)
    else if lt.comparable rt then some (.opcodes ops .bool)
    else none
  match op with
  | .add => onInts [.add] .int
  | .sub => onInts [.sub] .int
  | .mul => onInts [.mul] .int
  | .div | .intDiv => onInts [.div] .int
  | .rem => onInts [.rem] .int
  | .lt => onInts [.clt] .bool
  | .gt => onInts [.cgt] .bool
  | .le => onInts [.cgt, .ldcI40, .ceq] .bool
  | .ge => onInts [.clt, .ldcI40, .ceq] .bool
  | .and => onBits .and
  | .or => onBits .or
  | .eq => onEqual .stringEquality [.ceq]
  | .ne => onEqual .stringInequality [.ceq, .ldcI40, .ceq]
  | .concat | .andAlso | .orElse => none

/-- The code of an operator with one operand, if it applies to the type. -/
def unaryCode? (language : Language) (op : UnaryOp) (t : StaticType) : Option (List Opcode) :=
  match op with
  | .neg => if t = .int then some [.neg] else none
  | .not =>
    if t = .bool then some [.ldcI40, .ceq]
    else if t = .int ∧ language = .visualBasic then some [.not]
    else none

/-- Reports operands that an operator does not apply to. -/
def badOperands (op : BinaryOp) (lt rt : StaticType) (pos : Source.Position) :
    Gen StaticType := do
  refuse pos (.badBinaryOperands (binarySymbol (← language) op) (← typeName lt) (← typeName rt))

/-- Applies an operator to the operand on the stack. -/
def unary (op : UnaryOp) (operand : ExprCode) (pos : Source.Position) : Gen StaticType := do
  let t ← operand.value
  if t = .unknown then return .unknown
  match unaryCode? (← language) op t with
  | some ops =>
    ops.forM emit
    return t
  | none => refuse pos (.badUnaryOperand (unarySymbol (← language) op) (← typeName t))

/-- Whether a value of the type is concatenated as a string. -/
def isText (t : StaticType) : Bool := t = .string || t = .null

/-- Concatenates the value on the stack with another; what is no string is made an object. -/
def concat (op : BinaryOp) (lt : StaticType) (rhs : ExprCode) (pos : Source.Position) :
    Gen StaticType := do
  let rt ← probe rhs.value
  if lt = .unknown ∨ rt = .unknown then
    discard rhs.value
    return .unknown
  else if lt = .void ∨ rt = .void then
    discard rhs.value
    badOperands op lt rt pos
  else if isText lt && isText rt then
    discard rhs.value
    emitLibraryCall .concatStrings
  else
    box lt
    box (← rhs.value)
    emitLibraryCall .concatObjects

/-- Whether an operator concatenates, given the type of its left operand. -/
def concatenates (op : BinaryOp) (lt : StaticType) (rhs : ExprCode) : Gen Bool := do
  match op with
  | .concat => return true
  | .add =>
    if lt = .string then return true
    else if lt = .unknown then return false
    else return (← probe rhs.value) = .string
  | _ => return false

/-- Applies an operator to the value on the stack and a right operand. -/
def applyTo (op : BinaryOp) (lt : StaticType) (rhs : ExprCode) (pos : Source.Position) :
    Gen StaticType := do
  if ← concatenates op lt rhs then concat op lt rhs pos
  else
    let rt ← rhs.value
    if lt = .unknown ∨ rt = .unknown then return .unknown
    match operatorCode? op lt rt with
    | some (.opcodes ops result) =>
      ops.forM emit
      return result
    | some (.call m) => emitLibraryCall m
    | none => badOperands op lt rt pos

/-! ### Jumps -/

/-- Jumps by the truth value on the stack. -/
def branchOnTruth (when_ : Bool) (target : Label) : Gen Unit :=
  branch (if when_ then .brtrue else .brfalse) target

/-- Jumps to `target` when a value is `when_`. -/
def jumpOnValue (value : Gen StaticType) (pos : Source.Position) (target : Label) (when_ : Bool) :
    Gen Unit := do
  coerce (← value) .bool pos
  branchOnTruth when_ target

/-- The branch that is taken when a comparison holds, or when it fails. -/
def comparisonBranch : BinaryOp → Bool → Opcode
  | .lt, true | .ge, false => .blt
  | .gt, true | .le, false => .bgt
  | .le, true | .gt, false => .ble
  | .ge, true | .lt, false => .bge
  | .eq, true | .ne, false => .beq
  | _, _ => .bneUn

/-- Whether a comparison of these types has a branch of its own. -/
def hasBranch (op : BinaryOp) (lt rt : StaticType) : Bool :=
  match op with
  | .eq | .ne => lt.comparable rt && !(lt = .string && rt = .string)
  | _ => lt = .int && rt = .int

/-- Jumps to `target` when a comparison is `when_`, by the branch of the comparison if it has
one. -/
def jumpOnComparison (op : BinaryOp) (lhs rhs : ExprCode) (pos : Source.Position) (target : Label)
    (when_ : Bool) : Gen Unit := do
  let lt ← lhs.value
  let rt ← probe rhs.value
  if hasBranch op lt rt then
    discard rhs.value
    branch (comparisonBranch op when_) target
  else
    coerce (← applyTo op lt rhs pos) .bool pos
    branchOnTruth when_ target

/-- Jumps to `target` when a conjunction (or a disjunction, if `isOr`) is `when_`; the right
operand is evaluated only if the left one does not decide. -/
def jumpOnBoth (isOr : Bool) (lhs rhs : ExprCode) (target : Label) (when_ : Bool) : Gen Unit := do
  if isOr = when_ then
    lhs.jump target when_
    rhs.jump target when_
  else
    let skip ← newLabel
    lhs.jump skip (!when_)
    rhs.jump target when_
    mark skip

/-- The value of a conjunction (or a disjunction, if `isOr`). -/
def shortCircuit (isOr : Bool) (lhs rhs : ExprCode) : Gen StaticType := do
  let shortcut ← newLabel
  let stop ← newLabel
  lhs.jump shortcut isOr
  coerce (← rhs.value) .bool rhs.pos
  branch .br stop
  mark shortcut
  edit (·.loadInt (if isOr then 1 else 0))
  mark stop
  return .bool

end CilScope.Lowering
