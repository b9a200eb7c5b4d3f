import CilScope.Lowering.Place

/-!
# Conversions and calls

A value converts to a type that is expected by being left alone or boxed. A call chooses among the
overloads by the types of its arguments: an overload whose parameters are exactly these types
wins, else the first one that all arguments convert to.
-/

namespace CilScope.Lowering

/-! ### Conversions -/

/-- Makes an object of the value on the stack, if it is not one. -/
def box (t : StaticType) : Gen Unit := do
  if t = .int then
    let token ← classToken .int32
    edit (·.emitToken .box token)
  else if t = .bool then
    let token ← classToken .boolean
    edit (·.emitToken .box token)

/-- Converts the value on the stack from `source` to `target`; what does not convert is
reported. -/
def coerce (source target : StaticType) (pos : Source.Position) : Gen Unit := do
  if !source.convertsTo target then
    report pos (.cannotConvert (← typeName source) (← typeName target))
  else if target = .object then box source

/-- Reports a member that a type does not have. -/
def noMember (t : StaticType) (name : String) (pos : Source.Position) : Gen StaticType := do
  unless t = .unknown do
    report pos (.noMember (← typeName t) name)
  return .unknown

/-! ### Overloads -/

/-- Whether a parameter takes an argument as it is. -/
def matchesExactly (param arg : StaticType) : Bool :=
  param = arg || (arg = .null && param.isReference)

/-- The overload chosen for arguments of these types among those with as many parameters. -/
def bestOverload? {α : Type} (params : α → List StaticType) (candidates : List α)
    (args : List StaticType) : Option α :=
  (candidates.find? fun c => (List.zipWith matchesExactly (params c) args).all id).or
    (candidates.find? fun c => (List.zipWith StaticType.convertsTo args (params c)).all id)

/-- Chooses an overload. Where none fits, the first argument that does not convert is reported, or
the number of arguments if that is wrong for all. An argument that is wrong itself is reported
alone. -/
def choose {α : Type} (params : α → List StaticType) (candidates : List α) (name : String)
    (args : List ExprCode) (pos : Source.Position) : Gen (Option α) := do
  let types ← args.mapM fun a => probe a.value
  if .unknown ∈ types then
    for a in args do discard a.value
    return none
  let candidates := candidates.filter fun c => (params c).length = args.length
  match bestOverload? params candidates types with
  | some c => return some c
  | none =>
    match candidates with
    | [] => report pos (.wrongArgCount name args.length)
    | c :: _ =>
      let pairs := types.zip (params c)
      if let some i := pairs.findIdx? fun (s, t) => !s.convertsTo t then
        if let (some (s, t), some a) := (pairs[i]?, args[i]?) then
          report a.pos (.badArgument (i + 1) (← typeName s) (← typeName t))
    return none

/-- Evaluates the arguments of a call and converts them to the parameters. -/
def arguments (params : List StaticType) (args : List ExprCode) : Gen Unit :=
  (args.zip params).forM fun (a, t) => do coerce (← a.value) t a.pos

/-! ### Calls -/

/-- How many values a call leaves on the stack. -/
def pushes (ret : StaticType) : UInt32 := if ret = .void then 0 else 1

/-- Calls a method of the framework whose arguments are on the stack. -/
def emitLibraryCall (m : Library.Method) : Gen StaticType := do
  let token ← methodToken m
  if m.kind = .instance_ then
    edit (·.emitCall .callvirt token (.ofNat (m.params.length + 1)) (pushes m.ret))
  else
    edit (·.emitCall .call token (.ofNat m.params.length) (pushes m.ret))
  return m.ret

/-- Calls one of several methods of the framework; the object is already on the stack. -/
def libraryCall (candidates : List Library.Method) (owner : StaticType) (name : String)
    (args : List ExprCode) (pos : Source.Position) : Gen StaticType := do
  if candidates.isEmpty then noMember owner name pos
  else
    match ← choose (·.params) candidates name args pos with
    | none => return .unknown
    | some m =>
      arguments m.params args
      emitLibraryCall m

/-- Calls a method of the program whose arguments are on the stack. -/
def emitCall (m : Method) (virtual_ : Bool) : Gen StaticType := do
  edit (·.emitCall (if virtual_ then .callvirt else .call) m.token (.ofNat m.arity) (pushes m.ret))
  return m.ret

/-- Calls a method of a type of the program. The object, if one is needed, is the receiver or the
current object. -/
def programCall (owner : Nat) (name : String) (receiver : Receiver) (args : List ExprCode)
    (pos : Source.Position) : Gen StaticType := do
  let candidates := (← read).program.methodsOf owner name
  if candidates.isEmpty then noMember (.class_ owner) name pos
  else
    match ← choose (·.params) candidates name args pos with
    | none => return .unknown
    | some m =>
      match m.isStatic, receiver with
      | true, .expr code =>
        if (← language) = .csharp then refuse code.pos (.instanceRequired name)
        else
          arguments m.params args
          emitCall m false
      | true, _ =>
        arguments m.params args
        emitCall m false
      | false, .expr code =>
        discard code.value
        arguments m.params args
        emitCall m (!(code.source matches .this _))
      | false, _ =>
        if (← read).method.isStatic then refuse pos (.instanceRequired name)
        else
          edit (·.loadArg 0)
          arguments m.params args
          emitCall m false

/-- Creates an object of the framework. -/
def newLibraryObject (class_ : Library.Class) (type : StaticType) (args : List ExprCode)
    (pos : Source.Position) : Gen StaticType := do
  let candidates := Library.Method.overloads (← language) class_ .ctor ".ctor"
  match ← choose (·.params) candidates class_.name args pos with
  | none => return .unknown
  | some m =>
    arguments m.params args
    let token ← methodToken m
    edit (·.emitCall .newobj token (.ofNat m.params.length) 1)
    return type

/-- Creates an object. Classes of the program have one constructor, without parameters. -/
def newObject (type : Source.TypeUse) (args : List ExprCode) (pos : Source.Position) :
    Gen StaticType := do
  let program := (← read).program
  match ← resolveType type with
  | .unknown => return .unknown
  | .class_ index =>
    if ((program.types[index]?).map (·.isStatic)).getD false then
      refuse pos (.staticClassInstance (← typeName (.class_ index)))
    else
      match program.ctorOf? index with
      | none => return .unknown
      | some ctor =>
        if args.isEmpty then
          edit (·.emitCall .newobj ctor.token 0 1)
          return .class_ index
        else
          let name := ((program.types[index]?).map (·.name)).getD ""
          refuse pos (.wrongArgCount name args.length)
  | .object => newLibraryObject .object .object args pos
  | .lib .exception => newLibraryObject .exception (.lib .exception) args pos
  | other => refuse pos (.staticClassInstance (← typeName other))

end CilScope.Lowering
