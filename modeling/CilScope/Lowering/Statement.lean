import CilScope.Lowering.Expression

/-!
# Statements

Statements become labels and branches. A jump out of a protected region leaves it, and a return
inside one goes to an exit that all such returns of the method share.
-/

namespace CilScope.Lowering

open Source (Expr Stmt)

/-! ### Assignments -/

/-- Whether an expression is a literal. -/
def isLiteral : Expr → Bool
  | .int .. | .str .. | .bool .. | .null _ => true
  | _ => false

/-- The field of a class that is assigned through the name of the class. -/
def staticTarget (t : StaticType) (name : String) (pos : Source.Position) :
    Gen (Option Place) := do
  match t with
  | .class_ index =>
    match (← read).program.fieldOf? index name with
    | some f =>
      if f.isStatic then return some (.field f .none)
      report pos (.instanceRequired name)
    | none => discard (noMember t name pos)
  | _ => report pos .leftHandSideNotVariable
  return none

/-- The field of an object that is assigned. -/
def instanceTarget (receiver : ExprCode) (name : String) (pos : Source.Position) :
    Gen (Option Place) := do
  match ← probe receiver.value with
  | .class_ index =>
    match (← read).program.fieldOf? index name with
    | some f => return some (.field f (if f.isStatic then .none else .expr receiver))
    | none => discard (noMember (.class_ index) name pos)
  | .unknown => discard receiver.value
  | _ => report pos .leftHandSideNotVariable
  return none

/-- The place that an expression assigns to; what cannot be assigned to is reported. -/
def target : Expr → Gen (Option Place)
  | .name pos name => do
    match ← resolveName name with
    | .place place =>
      place.checkInstance name pos
      return some place
    | .nothing => report pos (.nameNotFound name)
    | _ => report pos .leftHandSideNotVariable
    return none
  | .member pos receiver name => do
    match ← asType? receiver with
    | some t => staticTarget t name pos
    | none => instanceTarget (compile receiver) name pos
  | e => do
    report e.pos .leftHandSideNotVariable
    return none

/-- The operator of a compound assignment. -/
def compoundOperator? : Source.AssignOp → Option Source.BinaryOp
  | .set => none
  | .add => some .add
  | .sub => some .sub
  | .mul => some .mul
  | .div => some .div
  | .rem => some .rem
  | .concat => some .concat

/-- Loads the value of a place, leaving its object below for the store to come. -/
def loadForUpdate (place : Place) : Gen Unit := do
  place.loadReceiver
  if place.hasReceiver then emit .dup
  place.load

/-- An assignment. Where there is nothing to assign to, the value is still checked. -/
def assign (to_ : Expr) (op : Source.AssignOp) (value : Expr) : Gen Unit := do
  match ← target to_ with
  | none => discard (evaluate value)
  | some place =>
    match compoundOperator? op with
    | none =>
      place.loadReceiver
      coerce (← evaluate value) place.type value.pos
      place.noteAssigned (isLiteral value)
    | some op =>
      loadForUpdate place
      coerce (← applyTo op place.type (compile value) value.pos) place.type value.pos
      place.noteAssigned false
    place.store

/-- An increment or, with a negative `delta`, a decrement. -/
def increment (to_ : Expr) (delta : Int32) : Gen Unit := do
  if let some place ← target to_ then
    if place.type = .int ∨ place.type = .unknown then
      loadForUpdate place
      edit (·.loadInt 1)
      emit (if 0 < delta then .add else .sub)
      place.noteAssigned false
      place.store
    else
      let symbol := if 0 < delta then "++" else "--"
      report to_.pos (.badUnaryOperand symbol (← typeName place.type))

/-! ### Local variables -/

/-- The type of a local that declares none. -/
def inferredType (init : Option Expr) (pos : Source.Position) : Gen StaticType := do
  let infer := (← read).options.inferLocals
  match ← language, init with
  | .csharp, some init =>
    if infer then
      match ← probe (evaluate init) with
      | .null | .void => refuse init.pos (.cannotConvert "<null>" "var")
      | t => return t
    else refuse pos (.typeNotFound "var")
  | .csharp, none => if infer then return .object else refuse pos (.typeNotFound "var")
  | .visualBasic, some init =>
    if infer then
      match ← probe (evaluate init) with
      | .null | .void | .unknown => return .object
      | t => return t
    else return .object
  | .visualBasic, none => return .object

/-- A declaration of a local. -/
def localStatement (name : String) (type : Option Source.TypeUse) (init : Option Expr)
    (pos : Source.Position) : Gen Unit := do
  let type ← match type with
    | some type => resolveType type
    | none => inferredType init pos
  if let some new ← declareLocal name type pos then
    if let some init := init then
      coerce (← evaluate init) type init.pos
      edit (·.storeLocal new.slot)
      markAssigned new.slot (isLiteral init)

/-! ### Jumps -/

/-- A jump out of a loop or to its next round. Without a kind the innermost loop is meant. -/
def jump (kind : Option Source.LoopKind) (exit : Bool) (pos : Source.Position) : Gen Unit := do
  let context ← read
  match context.loops.find? fun frame => kind.all (· = frame.kind) with
  | some frame =>
    branch (if frame.tryDepth < context.tryDepth then .leave else .br)
      (if exit then frame.exit else frame.next)
  | none => report pos (.noEnclosingLoop exit ((kind.map (·.word)).getD ""))

/-- The exit of returns inside protected regions, with the local for the value if there is one. -/
def sharedExit (ret : StaticType) : Gen (Label × Option UInt16) := do
  match (← get).exit with
  | some exit => return exit
  | none =>
    let label ← newLabel
    let slot ← if ret = .void then pure none else do
      let sig ← typeSig ret
      some <$> make (·.declareLocal sig none)
    modify fun s => { s with exit := some (label, slot) }
    return (label, slot)

/-- Returns, with the value on the stack if there is one. -/
def leaveMethod (ret : StaticType) : Gen Unit := do
  if (← read).tryDepth = 0 then emit .ret
  else
    let (label, slot) ← sharedExit ret
    if let some slot := slot then edit (·.storeLocal slot)
    branch .leave label

/-- A return. -/
def returnStatement (value : Option Expr) (pos : Source.Position) : Gen Unit := do
  let method := (← read).method
  match value with
  | some value =>
    if method.ret = .void then
      report pos (.returnValueInVoid method.name)
      discard (evaluate value)
    else
      coerce (← evaluate value) method.ret value.pos
      leaveMethod method.ret
  | none =>
    if method.ret = .void then leaveMethod method.ret
    else report pos (.returnValueRequired (← typeName method.ret))

/-- A throw; without a value the exception that is being handled is thrown again. -/
def throwStatement (value : Option Expr) (pos : Source.Position) : Gen Unit := do
  match value with
  | some value =>
    let t ← evaluate value
    unless t = .lib .exception ∨ t = .null ∨ t = .unknown do
      report value.pos .notAnException
    emit .throw
  | none =>
    if 0 < (← read).catchDepth then emit .rethrow else report pos .notAnException

/-! ### Compound statements -/

/-- A choice between two bodies. -/
def ifStatement (cond : ExprCode) (then_ : Gen Unit) (else_ : Option (Gen Unit)) : Gen Unit := do
  let otherwise ← newLabel
  cond.jump otherwise false
  nested then_
  match else_ with
  | none => mark otherwise
  | some else_ =>
    let stop ← newLabel
    if ← isReachable then branch .br stop
    mark otherwise
    nested else_
    mark stop

/-- Does a step inside a loop. -/
def inLoop (kind : Source.LoopKind) (exit next : Label) (step : Gen Unit) : Gen Unit :=
  withReader
    (fun c => { c with loops := { kind, exit, next, tryDepth := c.tryDepth } :: c.loops }) step

/-- A loop tested at its top. A test that is always true is left out. -/
def whileLoop (kind : Source.LoopKind) (cond : Option Expr) (body : Gen Unit)
    (step : Option (Gen Unit)) : Gen Unit := do
  let head ← newLabel
  let exit ← newLabel
  let next ← match step with
    | some _ => newLabel
    | none => pure head
  mark head
  match cond with
  | none | some (.bool _ true) => pure ()
  | some cond => (compile cond).jump exit false
  inLoop kind exit next (nested body)
  if let some step := step then
    mark next
    step
  branch .br head
  mark exit

/-- A loop tested at its bottom. -/
def doLoop (body : Gen Unit) (cond : Expr) (until_ : Bool) : Gen Unit := do
  let head ← newLabel
  let exit ← newLabel
  let next ← newLabel
  mark head
  inLoop .do_ exit next (nested body)
  mark next
  (compile cond).jump head (!until_)
  mark exit

/-- Leaves a protected region or a handler for `stop`, if its end can be reached. -/
def leaveTo (stop : Label) : Gen Unit := do
  if ← isReachable then branch .leave stop

/-- The type of the exceptions a handler catches. Without a type C# catches all objects, Visual
Basic all exceptions. -/
def caughtType (head : Source.CatchHead) : Gen StaticType := do
  match head.type with
  | some t =>
    let t ← resolveType t
    unless t = .lib .exception ∨ t = .object ∨ t = .unknown do
      report head.pos .notAnException
    return t
  | none => return if (← language) = .csharp then .object else .lib .exception

/-- A handler that catches, behind the region that starts at `region`. -/
def catchHandler (region : Nat) (head : Source.CatchHead) (body : Gen Unit) (stop : Label) :
    Gen Unit := do
  let caught ← caughtType head
  let token ← classToken (if caught = .object then .object else .exception)
  let handler ← make (·.beginHandler region (.catch_ token))
  withReader (fun c => { c with catchDepth := c.catchDepth + 1 }) <| inScope do
    let var ← match head.var with
      | some name => declareLocal name caught head.pos
      | none => pure none
    match var with
    | some var => edit (·.storeLocal var.slot)
    | none => emit .pop
    blockMark
    body
  leaveTo stop
  edit (·.endHandler handler)

/-- A protected body with the handlers around it: the one that catches inside the one that always
runs. -/
def tryStatement (body : Gen Unit) (handler : Option (Source.CatchHead × Gen Unit))
    (finally_ : Option (Gen Unit)) : Gen Unit := do
  let stop ← newLabel
  withReader (fun c => { c with tryDepth := c.tryDepth + 1 }) do
    let outer ← match finally_ with
      | some _ => some <$> make Draft.beginTry
      | none => pure none
    match handler with
    | some (head, handlerBody) =>
      let region ← make Draft.beginTry
      nested body
      leaveTo stop
      catchHandler region head handlerBody stop
    | none =>
      nested body
      leaveTo stop
    if let (some region, some finally_) := (outer, finally_) then
      let handler ← make (·.beginHandler region .finally_)
      nested finally_
      emit .endfinally
      edit (·.endHandler handler)
  mark stop

mutual

/-- The code of a statement. -/
def statement : Stmt → Gen Unit
  | .local_ pos name type init => do
    point pos
    localStatement name type init pos
  | .assign pos to_ op value => do
    point pos
    assign to_ op value
  | .increment pos to_ delta => do
    point pos
    increment to_ delta
  | .expr pos e => do
    point pos
    if (← evaluate e) ≠ .void then emit .pop
  | .if_ pos cond then_ none => do
    point pos
    ifStatement (compile cond) (statements then_) none
  | .if_ pos cond then_ (some else_) => do
    point pos
    ifStatement (compile cond) (statements then_) (some (statements else_))
  | .while_ pos kind cond body none => do
    point pos
    whileLoop kind cond (statements body) none
  | .while_ pos kind cond body (some step) => do
    point pos
    whileLoop kind cond (statements body) (some (statement step))
  | .doWhile pos body cond until_ => do
    point pos
    doLoop (statements body) cond until_
  | .break_ pos kind => do
    point pos
    jump kind true pos
  | .continue_ pos kind => do
    point pos
    jump kind false pos
  | .return_ pos value => do
    point pos
    returnStatement value pos
  | .throw_ pos value => do
    point pos
    throwStatement value pos
  | .try_ pos body handler finally_ => do
    point pos
    tryStatement (statements body)
      (match handler with
        | some (head, body) => some (head, statements body)
        | none => none)
      (match finally_ with
        | some body => some (statements body)
        | none => none)
  | .block _ body => inScope (statements body)

/-- The code of a list of statements. -/
def statements : List Stmt → Gen Unit
  | [] => return
  | s :: rest => do
    statement s
    statements rest

end

end CilScope.Lowering
