import CilScope.Lowering.Operator

/-!
# Expressions

`compile` gives the code of an expression, built from the codes of its parts by recursion on the
expression. An expression leaves its value on the stack; one that is wrong is reported once and
has the type `unknown`.
-/

namespace CilScope.Lowering

open Source (Expr)

/-! ### Names, members and elements -/

/-- The value of a simple name. Visual Basic calls a method by its name alone. -/
def nameValue (name : String) (pos : Source.Position) : Gen StaticType := do
  match ← resolveName name with
  | .place place =>
    place.checkInstance name pos
    place.loadReceiver
    place.load
    return place.type
  | .methods owner =>
    if (← language) = .visualBasic then programCall owner name .none [] pos
    else refuse pos (.notInvocable name)
  | .type _ | .nothing => refuse pos (.nameNotFound name)

/-- The method of a framework class that is the value of a member: the getter of a property or, in
Visual Basic, a method without parameters. -/
def libraryMember? (language : Language) (class_ : Library.Class) (name : String) :
    Option Library.Method :=
  let methods := Library.Method.overloads language class_ .instance_
  (methods ("get_" ++ name)).head?.or
    (if language = .visualBasic then (methods name).find? (·.params.isEmpty) else none)

/-- The value of a member of a type. -/
def staticMember (t : StaticType) (name : String) (pos : Source.Position) : Gen StaticType := do
  let program := (← read).program
  match t with
  | .class_ index =>
    match program.fieldOf? index name with
    | some f =>
      if f.isStatic then
        edit (·.emitToken .ldsfld f.token)
        return f.type
      else refuse pos (.instanceRequired name)
    | none =>
      if program.hasMethod index name ∧ program.language = .visualBasic then
        programCall index name .none [] pos
      else noMember t name pos
  | _ => noMember t name pos

/-- The value of a member of the object on the stack, which `target` has left there. -/
def instanceMember (target : ExprCode) (t : StaticType) (name : String) (pos : Source.Position) :
    Gen StaticType := do
  let program := (← read).program
  let ofLibrary : Gen StaticType := do
    match t.class?.bind (libraryMember? program.language · name) with
    | some m => emitLibraryCall m
    | none => noMember t name pos
  match t with
  | .unknown => return .unknown
  | .array _ =>
    if program.sameName name "Length" then
      emit .ldlen
      emit .convI4
      return .int
    else ofLibrary
  | .class_ index =>
    match program.fieldOf? index name with
    | some f =>
      if f.isStatic then refuse pos (.instanceRequired name)
      else
        edit (·.emitToken .ldfld f.token)
        return f.type
    | none =>
      if program.hasMethod index name ∧ program.language = .visualBasic then
        programCall index name (.expr target) [] pos
      else noMember t name pos
  | _ => ofLibrary

/-- Reports a name in front of a member that means nothing. -/
def refuseUnknownName (target : Expr) : Gen StaticType :=
  match target with
  | .name pos name => refuse pos (.nameNotFound name)
  | _ => return .unknown

/-- The value of a member. -/
def memberValue (target : ExprCode) (name : String) (pos : Source.Position) :
    Gen StaticType := do
  match ← asType? target.source with
  | some t => staticMember t name pos
  | none =>
    if ← isUnknownName target.source then refuseUnknownName target.source
    else
      let t ← target.value
      instanceMember target t name pos

/-- The element of the array on the stack. -/
def element (t : StaticType) (index : ExprCode) (pos : Source.Position) : Gen StaticType := do
  match t with
  | .unknown =>
    discard index.value
    return .unknown
  | .array e =>
    if e.isReference then
      coerce (← index.value) .int index.pos
      emit .ldelemRef
      return e
    else refuse pos (.notIndexable (← typeName t))
  | _ => refuse pos (.notIndexable (← typeName t))

/-! ### Calls -/

/-- A call by a simple name. In Visual Basic this may be the access to an element. -/
def nameCall (name : String) (namePos : Source.Position) (args : List ExprCode)
    (pos : Source.Position) : Gen StaticType := do
  match ← resolveName name with
  | .methods owner => programCall owner name .none args pos
  | .place _ =>
    match ← language, args with
    | .visualBasic, [index] =>
      let t ← nameValue name namePos
      element t index pos
    | _, _ => refuse namePos (.notInvocable name)
  | .type _ | .nothing => refuse namePos (.nameNotFound name)

/-- A call of a member. -/
def memberCall (target : ExprCode) (name : String) (args : List ExprCode)
    (pos : Source.Position) : Gen StaticType := do
  let overloads := Library.Method.overloads (← language)
  match ← asType? target.source with
  | some (.class_ index) => programCall index name .none args pos
  | some t =>
    match t.class? with
    | some class_ => libraryCall (overloads class_ .static name) t name args pos
    | none => noMember t name pos
  | none =>
    if ← isUnknownName target.source then refuseUnknownName target.source
    else
      match ← probe target.value with
      | .class_ index => programCall index name (.expr target) args pos
      | .unknown => target.value
      | t =>
        match t.class? with
        | some class_ =>
          discard target.value
          libraryCall (overloads class_ .instance_ name) t name args pos
        | none => noMember t name pos

/-- A call of something that is neither a name nor a member: in Visual Basic the access to an
element. -/
def valueCall (callee : ExprCode) (args : List ExprCode) (pos : Source.Position) :
    Gen StaticType := do
  match ← language, args with
  | .visualBasic, [index] =>
    let t ← callee.value
    element t index pos
  | _, _ => refuse callee.pos (.notInvocable "")

/-! ### Compilation -/

/-- The code of an expression that jumps by its value. -/
def plain (source : Expr) (value : Gen StaticType) : ExprCode :=
  { source, value, jump := jumpOnValue value source.pos }

/-- The code of a truth value. Optimized code jumps or does not. -/
def truthCode (pos : Source.Position) (b : Bool) : ExprCode :=
  let value : Gen StaticType := do
    edit (·.loadInt (if b then 1 else 0))
    return .bool
  { source := .bool pos b
    value
    jump := fun target when_ => do
      if (← read).options.optimize then
        if b = when_ then branch .br target
      else jumpOnValue value pos target when_ }

/-- The code of the current object. -/
def thisValue (pos : Source.Position) : Gen StaticType := do
  let context ← read
  if context.method.isStatic then refuse pos (.instanceRequired "this")
  else
    edit (·.loadArg 0)
    return .class_ context.owner

/-- The code of an operator with one operand. A jump on a negation is a jump on the operand. -/
def unaryCode (source : Expr) (op : Source.UnaryOp) (operand : ExprCode) : ExprCode :=
  let value := unary op operand source.pos
  { source
    value
    jump := fun target when_ => do
      if op = .not then
        if (← probe operand.value) = .bool then operand.jump target (!when_)
        else jumpOnValue value source.pos target when_
      else jumpOnValue value source.pos target when_ }

/-- The code of an operator with two operands. Optimized code jumps on a comparison by a branch
that compares. -/
def binaryCode (source : Expr) (op : Source.BinaryOp) (lhs rhs : ExprCode) : ExprCode :=
  match op with
  | .andAlso => { source, value := shortCircuit false lhs rhs, jump := jumpOnBoth false lhs rhs }
  | .orElse => { source, value := shortCircuit true lhs rhs, jump := jumpOnBoth true lhs rhs }
  | op =>
    let value : Gen StaticType := do
      let lt ← lhs.value
      applyTo op lt rhs source.pos
    { source
      value
      jump := fun target when_ => do
        if op.isComparison && (← read).options.optimize then
          jumpOnComparison op lhs rhs source.pos target when_
        else jumpOnValue value source.pos target when_ }

mutual

/-- The code of an expression. -/
def compile : Expr → ExprCode
  | .int pos v => plain (.int pos v) do
    edit (·.loadInt v)
    return .int
  | .str pos text => plain (.str pos text) do
    let token ← stringToken text
    edit (·.emitToken .ldstr token)
    return .string
  | .bool pos b => truthCode pos b
  | .null pos => plain (.null pos) do
    emit .ldnull
    return .null
  | .this pos => plain (.this pos) (thisValue pos)
  | .name pos n => plain (.name pos n) (nameValue n pos)
  | .typeKeyword pos t => plain (.typeKeyword pos t) do
    match Context.keywordType? t with
    | some t => refuse pos (.invalidExpressionTerm (← typeName t))
    | none => refuse pos (.invalidExpressionTerm "")
  | .member pos target n => plain (.member pos target n) (memberValue (compile target) n pos)
  | .call pos (.name namePos n) args =>
    plain (.call pos (.name namePos n) args) (nameCall n namePos (compileAll args) pos)
  | .call pos (.member memberPos target n) args =>
    plain (.call pos (.member memberPos target n) args)
      (memberCall (compile target) n (compileAll args) pos)
  | .call pos callee args =>
    plain (.call pos callee args) (valueCall (compile callee) (compileAll args) pos)
  | .new pos type args => plain (.new pos type args) (newObject type (compileAll args) pos)
  | .index pos target index =>
    plain (.index pos target index) do
      let t ← (compile target).value
      element t (compile index) pos
  | .unary pos op operand => unaryCode (.unary pos op operand) op (compile operand)
  | .binary pos op lhs rhs => binaryCode (.binary pos op lhs rhs) op (compile lhs) (compile rhs)

/-- The codes of several expressions. -/
def compileAll : List Expr → List ExprCode
  | [] => []
  | e :: rest => compile e :: compileAll rest

end

/-- Evaluates an expression. -/
def evaluate (e : Expr) : Gen StaticType := (compile e).value

end CilScope.Lowering
