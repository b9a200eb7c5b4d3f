import CilScope.Source.Expression

/-!
# Visual Basic programs

A statement ends with its line. `For … To … Step`, `Do … Loop` and chains of `ElseIf` are brought to
the loops and conditionals of the tree. Errors end the reading; a block without its end is reported
where it starts.
-/

namespace CilScope.Source.VisualBasic

open CilScope.Source.Parser

/-- Reads line ends, at most `n` of them. -/
def skipNewlinesFrom : (n : Nat) → Parser Unit
  | 0 => return
  | n + 1 => do
    if (← lexeme) = .newline then
      let _ ← advance
      skipNewlinesFrom n

/-- Reads line ends as long as there are any. -/
def skipNewlines : Parser Unit := do skipNewlinesFrom (← remaining)

/-- Reads the end of a statement, which is that of its line or of the file. -/
def endOfStatement : Parser Unit := do
  match ← lexeme with
  | .newline =>
    let _ ← advance
    return
  | .eof => return
  | _ => fail (← position) .endOfStatementExpected

/-- Whether the line ends here. -/
def atLineEnd : Parser Bool := do
  match ← lexeme with
  | .newline | .eof => return true
  | _ => return false

/-- Whether a value is missing here: the line ends, or the other part of a conditional follows. -/
def atStatementEnd : Parser Bool := return (← atLineEnd) || (← isWord "else")

/-- Reads this keyword or stops. -/
def expectWord (keyword : String) : Parser Unit := do
  unless ← eatWord keyword do unexpected

/-- Reads `End` and the name of a construct that was opened at `opened`. -/
def expectEnd (construct : String) (opened : Position) : Parser Unit := do
  if (← isWord "end") && (← isWordAt 1 construct) then
    let _ ← advance
    let _ ← advance
  else fail opened (.missingEnd construct)

/-- The accessibility a keyword declares. -/
def accessOf : List (String × Access) :=
  [("public", .public_), ("private", .private_), ("friend", .internal),
   ("protected", .protected_)]

/-- Reads modifiers, at most `n` of them; the last accessibility counts. -/
def modifiersFrom : (n : Nat) → Option Access → Bool → Parser (Option Access × Bool)
  | 0, access, shared => return (access, shared)
  | n + 1, access, shared => do
    if ← eatWord "shared" then modifiersFrom n access true
    else
      match ← lexeme with
      | .word w =>
        match accessOf.find? fun (keyword, _) => Language.visualBasic.sameName w keyword with
        | some (_, a) =>
          let _ ← advance
          modifiersFrom n (some a) shared
        | none => return (access, shared)
      | _ => return (access, shared)

/-- Reads modifiers: an accessibility, and whether `Shared` is among them. -/
def modifiers : Parser (Option Access × Bool) := do modifiersFrom (← remaining) none false

/-- What a declarator declares. -/
structure Declarator where
  name : String
  type : Option TypeUse
  init : Option Expr
  deriving Repr, Inhabited

/-- Reads a name, brackets if it is an array, a type and an initial value. -/
def declarator : Parser Declarator := do
  let name ← identifier
  let isArray := (← isPunct "(") && (← isPunctAt 1 ")")
  if isArray then
    let _ ← advance
    let _ ← advance
  let type ← if ← eatWord "as" then some <$> typeUse else pure none
  let pos ← position
  let type := if isArray then
      let element := type.getD ⟨.object, pos⟩
      some ⟨.array element.name, element.pos⟩
    else type
  let init ← if ← eatPunct "=" then some <$> expression else pure none
  return { name, type, init }

/-- Reads declarators of local variables with commas between them, at most `n` of them. -/
def locals : (n : Nat) → Parser (List Stmt)
  | 0 => throw .abort
  | n + 1 => do
    let pos ← position
    let d ← declarator
    let declared := Stmt.local_ pos d.name d.type d.init
    if ← eatPunct "," then return declared :: (← locals n)
    return [declared]

/-- Reads the kind of loop that is named. -/
def loopKind? : Parser (Option LoopKind) := do
  if ← eatWord "for" then return some .for_
  if ← eatWord "while" then return some .while_
  if ← eatWord "do" then return some .do_
  return none

/-- Reads a test of a `Do` loop if there is one; it is true for `Until`. -/
def loopTest : Parser (Option (Expr × Bool)) := do
  if ← eatWord "while" then return some (← expression, false)
  if ← eatWord "until" then return some (← expression, true)
  return none

/-- The assignment operators. -/
def assignments : List (String × AssignOp) :=
  [("=", .set), ("+=", .add), ("-=", .sub), ("*=", .mul), ("&=", .concat)]

/-- A name in the place of a statement calls the method of that name without arguments. -/
def asCall : Expr → Expr
  | e@(.name ..) | e@(.member ..) => .call e.pos e []
  | e => e

/-- Whether an expression can be a statement. -/
def isInvocation : Expr → Bool
  | .call .. | .name .. | .member .. => true
  | _ => false

/-- Reads an assignment or a call. -/
def simpleStatement : Parser Stmt := do
  let pos ← position
  let target ← operandExpression
  let op? := match ← lexeme with
    | .punct p => assignments.lookup p
    | _ => none
  match op? with
  | some op =>
    let _ ← advance
    return .assign pos target op (← expression)
  | none =>
    unless isInvocation target do report target.pos .notAStatement
    return .expr pos (asCall target)

/-- Reads the value of a `Return` or `Throw` if there is one. -/
def optionalValue : Parser (Option Expr) := do
  if ← atStatementEnd then return none else return some (← expression)

/-- The head of a `For` loop. -/
structure ForHead where
  opened : Position
  varPos : Position
  var : String
  type : Option TypeUse
  from_ : Expr
  limit : Expr
  step : Option Expr
  deriving Repr, Inhabited

namespace ForHead

/-- Whether the step is a negative literal. -/
def descending (h : ForHead) : Bool :=
  match h.step with
  | some (.int _ v) => v < 0
  | _ => false

/-- The loop in the forms of the tree: the variable gets its first value, is compared with the
last one before every turn, and the step is added behind it. -/
def loop (h : ForHead) (body : List Stmt) : Stmt :=
  let target := Expr.name h.varPos h.var
  let init := match h.type with
    | some type => Stmt.local_ h.varPos h.var (some type) (some h.from_)
    | none => Stmt.assign h.varPos target .set h.from_
  let test := Expr.binary h.opened (if h.descending then .ge else .le) target h.limit
  let step := Stmt.assign h.opened target .add (h.step.getD (.int h.opened 1))
  .block h.opened [init, .while_ h.opened .for_ (some test) body (some step)]

end ForHead

/-- Reads the head of a `For` loop behind its keyword. -/
def forHead (opened : Position) : Parser ForHead := do
  let varPos ← position
  let var ← identifier
  let type ← if ← eatWord "as" then some <$> typeUse else pure none
  expectPunct "="
  let from_ ← expression
  expectWord "to"
  let limit ← expression
  let step ← if ← eatWord "step" then some <$> expression else pure none
  endOfStatement
  return { opened, varPos, var, type, from_, limit, step }

/-- Reads the loop variable behind `Next` if it is named. -/
def eatLoopVariable (var : String) : Parser Unit := do
  match ← lexeme with
  | .word w =>
    if Language.visualBasic.sameName w var then
      let _ ← advance
  | _ => return

/-- Reads the variable of a handler and its type, if they are named. -/
def catchHead (pos : Position) : Parser CatchHead := do
  if ← isIdentifierAt 0 then
    let var ← identifier
    let type ← if ← eatWord "as" then some <$> typeUse else pure none
    return ⟨pos, type, some var⟩
  return ⟨pos, none, none⟩

/-- The words that end a list of statements. -/
def blockEnds : List String := ["end", "else", "elseif", "loop", "next", "catch", "finally"]

/-- Whether a list of statements ends here. -/
def atBlockEnd : Parser Bool := do
  match ← lexeme with
  | .word w => return blockEnds.any (Language.visualBasic.sameName w)
  | .eof => return true
  | _ => return false

mutual

/-- Reads statements up to a word that ends them. -/
def statements : (depth : Nat) → Parser (List Stmt)
  | 0 => throw .exhausted
  | depth + 1 => do
    skipNewlines
    if ← atBlockEnd then return []
    let first ← statement depth
    endOfStatement
    return first ++ (← statements depth)

/-- Reads a statement; a declaration gives one for every variable. -/
def statement : (depth : Nat) → Parser (List Stmt)
  | 0 => throw .exhausted
  | depth + 1 => do
    let pos ← position
    if ← eatWord "dim" then locals (← remaining)
    else if ← eatWord "if" then return [← conditional depth pos]
    else if ← eatWord "while" then
      let cond ← expression
      endOfStatement
      let body ← statements depth
      expectEnd "While" pos
      return [.while_ pos .while_ (some cond) body none]
    else if ← eatWord "do" then return [← doLoop depth pos]
    else if ← eatWord "for" then
      let head ← forHead pos
      let body ← statements depth
      unless ← eatWord "next" do fail pos (.missingEnd "For")
      eatLoopVariable head.var
      return [head.loop body]
    else if ← eatWord "exit" then
      match ← loopKind? with
      | some kind => return [.break_ pos (some kind)]
      | none =>
        if ← eatWord "sub" then return [.return_ pos none]
        if ← eatWord "function" then return [.return_ pos none]
        unexpected
    else if ← eatWord "continue" then
      match ← loopKind? with
      | some kind => return [.continue_ pos (some kind)]
      | none => unexpected
    else if ← eatWord "return" then return [.return_ pos (← optionalValue)]
    else if ← eatWord "throw" then return [.throw_ pos (← optionalValue)]
    else if ← eatWord "try" then return [← tryBlock depth pos]
    else if ← eatWord "call" then return [.expr pos (asCall (← operandExpression))]
    else return [← simpleStatement]

/-- Reads a conditional behind `If` or `ElseIf`, on one line or as a block. -/
def conditional : (depth : Nat) → (opened : Position) → Parser Stmt
  | 0, _ => throw .exhausted
  | depth + 1, opened => do
    let cond ← expression
    expectWord "then"
    if !(← atLineEnd) then
      let then_ ← statement depth
      let else_ ← if ← eatWord "else" then some <$> statement depth else pure none
      return .if_ opened cond then_ else_
    endOfStatement
    let then_ ← statements depth
    let pos ← position
    if ← eatWord "elseif" then
      let inner ← conditional depth pos
      return .if_ opened cond then_ (some [inner])
    if ← eatWord "else" then
      endOfStatement
      let else_ ← statements depth
      expectEnd "If" opened
      return .if_ opened cond then_ (some else_)
    expectEnd "If" opened
    return .if_ opened cond then_ none

/-- Reads a `Do` loop behind its keyword, with a test at its top or at its bottom. -/
def doLoop : (depth : Nat) → (opened : Position) → Parser Stmt
  | 0, _ => throw .exhausted
  | depth + 1, opened => do
    let top ← loopTest
    endOfStatement
    let body ← statements depth
    unless ← eatWord "loop" do fail opened (.missingEnd "Do")
    let bottom ← loopTest
    match top, bottom with
    | some (cond, until_), none =>
      let cond := if until_ then .unary cond.pos .not cond else cond
      return .while_ opened .do_ (some cond) body none
    | none, some (cond, until_) => return .doWhile opened body cond until_
    | none, none => return .while_ opened .do_ none body none
    | some _, some _ => fail (← position) .endOfStatementExpected

/-- Reads a `Try` block behind its keyword. -/
def tryBlock : (depth : Nat) → (opened : Position) → Parser Stmt
  | 0, _ => throw .exhausted
  | depth + 1, opened => do
    endOfStatement
    let body ← statements depth
    let catchPos ← position
    let handler ← if ← eatWord "catch" then do
        let head ← catchHead catchPos
        endOfStatement
        pure (some (head, ← statements depth))
      else pure none
    let finally_ ← if ← eatWord "finally" then do
        endOfStatement
        pure (some (← statements depth))
      else pure none
    expectEnd "Try" opened
    return .try_ opened body handler finally_

end

/-- Reads parameters with commas between them, at most `n` of them. -/
def parameters : (n : Nat) → Parser (List Param)
  | 0 => throw .abort
  | n + 1 => do
    let _ ← eatWord "byval"
    let pos ← position
    let d ← declarator
    let declared : Param := ⟨d.name, d.type.getD ⟨.object, pos⟩, pos⟩
    if ← eatPunct "," then return declared :: (← parameters n)
    return [declared]

/-- Reads parameters in parentheses, which may be left out. -/
def parameterList : Parser (List Param) := do
  if ← eatPunct "(" then
    let params ← if ← isPunct ")" then pure [] else do parameters (← remaining)
    expectPunct ")"
    return params
  return []

/-- Reads the return type of a method that starts at `pos`. -/
def returnType (isFunction : Bool) (pos : Position) : Parser TypeUse := do
  if isFunction then
    let here ← position
    if ← eatWord "as" then typeUse else return ⟨.object, here⟩
  else return ⟨.void, pos⟩

/-- Reads a method from its keyword on; `pos` is where its modifiers start. -/
def method (access : Option Access) (isStatic : Bool) (pos : Position) : Parser MethodDecl := do
  let isFunction ← isWord "function"
  let _ ← advance
  let name ← identifier
  let params ← parameterList
  let ret ← returnType isFunction pos
  endOfStatement
  let body ← statements (← depthBound)
  let endPos ← position
  expectEnd (if isFunction then "Function" else "Sub") pos
  endOfStatement
  return { name, ret, params, access, isStatic, body, pos, endPos }

/-- Reads fields with commas between them, at most `n` of them. -/
def fields (access : Option Access) (isStatic : Bool) : (n : Nat) → Parser (List FieldDecl)
  | 0 => throw .abort
  | n + 1 => do
    let pos ← position
    let d ← declarator
    let declared : FieldDecl :=
      { name := d.name, type := d.type.getD ⟨.object, pos⟩, access, isStatic, init := d.init, pos }
    if ← eatPunct "," then return declared :: (← fields access isStatic n)
    return [declared]

/-- The members of a type read so far. -/
structure Members where
  fields : List FieldDecl := []
  methods : List MethodDecl := []
  nested : List TypeDecl := []
  deriving Repr, Inhabited

mutual

/-- Reads a module or a class from its keyword on; `pos` is where its modifiers start. -/
def typeDeclaration (namespace_ : String) (access : Option Access) (pos : Position) :
    (depth : Nat) → Parser TypeDecl
  | 0 => throw .exhausted
  | depth + 1 => do
    let isModule ← isWord "module"
    let _ ← advance
    let name ← identifier
    endOfStatement
    let ms ← members isModule depth {}
    expectEnd (if isModule then "Module" else "Class") pos
    endOfStatement
    return { namespace_, name, kind := if isModule then .module_ else .class_, access,
             fields := ms.fields, methods := ms.methods, nested := ms.nested, pos }

/-- Reads members up to the end of the type. -/
def members (isModule : Bool) : (depth : Nat) → Members → Parser Members
  | 0, _ => throw .exhausted
  | depth + 1, ms => do
    skipNewlines
    if (← atEof) || (← isWord "end") then return ms
    let pos ← position
    let (access, shared) ← modifiers
    let isStatic := shared || isModule
    if ← isWord "class" then
      let inner ← typeDeclaration "" access pos depth
      members isModule depth { ms with nested := ms.nested ++ [inner] }
    else if (← isWord "sub") || (← isWord "function") then
      let declared ← method access isStatic pos
      members isModule depth { ms with methods := ms.methods ++ [declared] }
    else
      let _ ← eatWord "dim"
      let declared ← fields access isStatic (← remaining)
      endOfStatement
      members isModule depth { ms with fields := ms.fields ++ declared }

end

/-- Reads the imports at the top, at most `n` of them. -/
def importStatements : (n : Nat) → Parser (List Import)
  | 0 => return []
  | n + 1 => do
    let pos ← position
    if ← eatWord "imports" then
      let namespace_ ← qualifiedName
      endOfStatement
      skipNewlines
      return ⟨namespace_, pos⟩ :: (← importStatements n)
    return []

/-- Reads declarations up to the end of the file or, inside a namespace that starts at `opened`, up
to its end. -/
def declarations : (depth : Nat) → (namespace_ : String) → (opened : Option Position) →
    List TypeDecl → Parser (List TypeDecl)
  | 0, _, _, _ => throw .exhausted
  | depth + 1, namespace_, opened, types => do
    skipNewlines
    if ← atEof then
      match opened with
      | some pos => fail pos (.missingEnd "Namespace")
      | none => return types
    if let some pos := opened then
      if ← isWord "end" then
        expectEnd "Namespace" pos
        endOfStatement
        return types
    let pos ← position
    if ← eatWord "namespace" then
      let name ← qualifiedName
      endOfStatement
      let full := if namespace_.isEmpty then name else namespace_ ++ "." ++ name
      let types ← declarations depth full (some pos) types
      declarations depth namespace_ opened types
    else
      let (access, _) ← modifiers
      unless (← isWord "module") || (← isWord "class") do fail pos .topLevelExpected
      let declared ← typeDeclaration namespace_ access pos (← depthBound)
      declarations depth namespace_ opened (types ++ [declared])

/-- Reads a whole source text. -/
def compilationUnit : Parser CompilationUnit := do
  skipNewlines
  let imports ← importStatements (← remaining)
  let types ← declarations (← depthBound) "" none []
  return { imports, types }

end CilScope.Source.VisualBasic
