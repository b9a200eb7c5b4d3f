import CilScope.Source.Expression

/-!
# C# programs

A missing semicolon is reported at the end of the lexeme before it, and reading goes on as if it
had been there. Any other error ends the reading. A `for` loop becomes a block with a loop that has
a step.
-/

namespace CilScope.Source.CSharp

open CilScope.Source.Parser

/-- Reads a semicolon or reports that it is missing. -/
def expectSemicolon : Parser Unit := do
  unless ← eatPunct ";" do report (← previousStop) .missingSemicolon

/-- The accessibility a keyword declares. -/
def accessOf : List (String × Access) :=
  [("public", .public_), ("private", .private_), ("internal", .internal),
   ("protected", .protected_)]

/-- Reads modifiers, at most `n` of them; the last accessibility counts. -/
def modifiersFrom : (n : Nat) → Option Access → Bool → Parser (Option Access × Bool)
  | 0, access, isStatic => return (access, isStatic)
  | n + 1, access, isStatic => do
    match ← lexeme with
    | .word w =>
      if w = "static" then
        let _ ← advance
        modifiersFrom n access true
      else
        match accessOf.lookup w with
        | some a =>
          let _ ← advance
          modifiersFrom n (some a) isStatic
        | none => return (access, isStatic)
    | _ => return (access, isStatic)

/-- Reads modifiers: an accessibility, and whether `static` is among them. -/
def modifiers : Parser (Option Access × Bool) := do modifiersFrom (← remaining) none false

/-- How many lexemes from the `n`th on are members or brackets of a type name, trying at most
`steps` times. -/
def typeNameEnd : (steps n : Nat) → Parser Nat
  | 0, n => return n
  | steps + 1, n => do
    if (← isPunctAt n ".") && (← isAnyWordAt (n + 1)) then typeNameEnd steps (n + 2)
    else if (← isPunctAt n "[") && (← isPunctAt (n + 1) "]") then typeNameEnd steps (n + 2)
    else return n

/-- Whether a declaration of local variables is next: a predefined type, or a type name and an
identifier. -/
def startsLocal : Parser Bool := do
  match ← typeKeyword? with
  | some type => return type ≠ .void
  | none =>
    if ← isIdentifierAt 0 then isIdentifierAt (← typeNameEnd (← remaining) 1)
    else return false

/-- Reads an initial value if there is one. -/
def initializer : Parser (Option Expr) := do
  if ← eatPunct "=" then return some (← expression) else return none

/-- Reads declarators of a type with commas between them, at most `n` of them. -/
def declarators (type : Option TypeUse) : (n : Nat) → Parser (List Stmt)
  | 0 => throw .abort
  | n + 1 => do
    let pos ← position
    let name ← identifier
    let init ← initializer
    let declared := Stmt.local_ pos name type init
    if ← eatPunct "," then return declared :: (← declarators type n)
    return [declared]

/-- Reads a declaration of local variables. -/
def localDeclaration : Parser (List Stmt) := do
  let inferred := (← isWord "var") && (← isAnyWordAt 1)
  let type ← if inferred then do
      let _ ← advance
      pure none
    else some <$> typeUse
  declarators type (← remaining)

/-- The assignment operators. -/
def assignments : List (String × AssignOp) :=
  [("=", .set), ("+=", .add), ("-=", .sub), ("*=", .mul), ("/=", .div), ("%=", .rem)]

/-- Whether an expression does something: it is a call or creates an object. -/
def isEffect : Expr → Bool
  | .call .. | .new .. => true
  | _ => false

/-- Reads an assignment, an increment or a call, without its semicolon. -/
def simpleStatement : Parser Stmt := do
  let pos ← position
  if ← eatPunct "++" then return .increment pos (← unaryExpression) 1
  if ← eatPunct "--" then return .increment pos (← unaryExpression) (-1)
  let target ← expression
  if ← eatPunct "++" then return .increment pos target 1
  if ← eatPunct "--" then return .increment pos target (-1)
  let op? := match ← lexeme with
    | .punct p => assignments.lookup p
    | _ => none
  match op? with
  | some op =>
    let _ ← advance
    return .assign pos target op (← expression)
  | none =>
    unless isEffect target do report target.pos .notAStatement
    return .expr pos target

/-- Reads an expression in parentheses. -/
def parenthesized : Parser Expr := do
  expectPunct "("
  let e ← expression
  expectPunct ")"
  return e

/-- Reads the value of a `return` or `throw`, if there is one, and the semicolon. -/
def valueAndSemicolon : Parser (Option Expr) := do
  let value ← if ← isPunct ";" then pure none else some <$> expression
  expectSemicolon
  return value

/-- Reads what stands in the parentheses of a handler. -/
def catchHead (pos : Position) : Parser CatchHead := do
  if ← eatPunct "(" then
    let type ← typeUse
    let var ← if ← isPunct ")" then pure none else some <$> identifier
    expectPunct ")"
    return ⟨pos, some type, var⟩
  return ⟨pos, none, none⟩

/-- Reads what initialises a `for` loop. -/
def forInit : Parser (List Stmt) := do
  if ← isPunct ";" then return []
  if ← startsLocal then localDeclaration
  else return [← simpleStatement]

mutual

/-- Reads a block; its end is the position of the closing brace. -/
def block : (depth : Nat) → Parser (List Stmt × Position)
  | 0 => throw .exhausted
  | depth + 1 => do
    expectPunct "\x7b"
    statements depth

/-- Reads statements up to the closing brace. -/
def statements : (depth : Nat) → Parser (List Stmt × Position)
  | 0 => throw .exhausted
  | depth + 1 => do
    let pos ← position
    if ← eatPunct "\x7d" then return ([], pos)
    if ← atEof then fail pos .expectedCloseBrace
    let first ← statement depth
    let (rest, stop) ← statements depth
    return (first ++ rest, stop)

/-- Reads the body of a conditional or a loop: a block or a single statement. -/
def embedded : (depth : Nat) → Parser (List Stmt)
  | 0 => throw .exhausted
  | depth + 1 => do
    if ← isPunct "\x7b" then
      let pos ← position
      let (body, _) ← block depth
      return [.block pos body]
    statement depth

/-- Reads a statement; a declaration gives one for every variable. -/
def statement : (depth : Nat) → Parser (List Stmt)
  | 0 => throw .exhausted
  | depth + 1 => do
    let pos ← position
    match ← lexeme with
    | .punct "\x7b" => return [.block pos (← block depth).1]
    | .punct ";" =>
      let _ ← advance
      return [.block pos []]
    | .word "if" =>
      let _ ← advance
      let cond ← parenthesized
      let then_ ← embedded depth
      let else_ ← if ← eatWord "else" then some <$> embedded depth else pure none
      return [.if_ pos cond then_ else_]
    | .word "while" =>
      let _ ← advance
      let cond ← parenthesized
      return [.while_ pos .while_ (some cond) (← embedded depth) none]
    | .word "do" =>
      let _ ← advance
      let body ← embedded depth
      unless ← eatWord "while" do unexpected
      let cond ← parenthesized
      expectSemicolon
      return [.doWhile pos body cond false]
    | .word "for" =>
      let _ ← advance
      expectPunct "("
      let init ← forInit
      expectPunct ";"
      let cond ← if ← isPunct ";" then pure none else some <$> expression
      expectPunct ";"
      let step ← if ← isPunct ")" then pure none else some <$> simpleStatement
      expectPunct ")"
      let body ← embedded depth
      return [.block pos (init ++ [.while_ pos .for_ cond body step])]
    | .word "break" =>
      let _ ← advance
      expectSemicolon
      return [.break_ pos none]
    | .word "continue" =>
      let _ ← advance
      expectSemicolon
      return [.continue_ pos none]
    | .word "return" =>
      let _ ← advance
      return [.return_ pos (← valueAndSemicolon)]
    | .word "throw" =>
      let _ ← advance
      return [.throw_ pos (← valueAndSemicolon)]
    | .word "try" =>
      let _ ← advance
      let (body, _) ← block depth
      let catchPos ← position
      let handler ← if ← eatWord "catch" then do
          let head ← catchHead catchPos
          pure (some (head, (← block depth).1))
        else pure none
      let finally_ ← if ← eatWord "finally" then do pure (some (← block depth).1) else pure none
      if handler.isNone && finally_.isNone then fail (← position) .expectedOpenBrace
      return [.try_ pos body handler finally_]
    | _ =>
      let declared ← if ← startsLocal then localDeclaration else do pure [← simpleStatement]
      expectSemicolon
      return declared

end

/-- Reads parameters with commas between them, at most `n` of them. -/
def parameters : (n : Nat) → Parser (List Param)
  | 0 => throw .abort
  | n + 1 => do
    let type ← typeUse
    let pos ← position
    let name ← identifier
    if ← eatPunct "," then return ⟨name, type, pos⟩ :: (← parameters n)
    return [⟨name, type, pos⟩]

/-- Reads a method behind its name. -/
def method (name : String) (ret : TypeUse) (access : Option Access) (isStatic : Bool)
    (pos : Position) : Parser MethodDecl := do
  expectPunct "("
  let params ← if ← isPunct ")" then pure [] else do parameters (← remaining)
  expectPunct ")"
  let (body, endPos) ← block (← depthBound)
  return { name, ret, params, access, isStatic, body, pos, endPos }

/-- Reads fields of a type behind the first name, at most `n` of them. -/
def fields (type : TypeUse) (access : Option Access) (isStatic : Bool) :
    (n : Nat) → (name : String) → (pos : Position) → Parser (List FieldDecl)
  | 0, _, _ => throw .abort
  | n + 1, name, pos => do
    let init ← initializer
    let declared : FieldDecl := { name, type, access, isStatic, init, pos }
    if ← eatPunct "," then
      let pos ← position
      let name ← identifier
      return declared :: (← fields type access isStatic n name pos)
    return [declared]

/-- The members of a type read so far. -/
structure Members where
  fields : List FieldDecl := []
  methods : List MethodDecl := []
  nested : List TypeDecl := []
  deriving Repr, Inhabited

/-- Reads a field or a method behind its modifiers, which start at `pos`. -/
def member (access : Option Access) (isStatic : Bool) (pos : Position) (ms : Members) :
    Parser Members := do
  unless (← typeKeyword?).isSome || (← isIdentifierAt 0) do
    fail pos (.syntaxError (← describe))
  let type ← typeUse
  let namePos ← position
  let name ← identifier
  if ← isPunct "(" then
    let declared ← method name type access isStatic namePos
    return { ms with methods := ms.methods ++ [declared] }
  else
    let declared ← fields type access isStatic (← remaining) name namePos
    expectSemicolon
    return { ms with fields := ms.fields ++ declared }

mutual

/-- Reads a class from its keyword on. -/
def typeDeclaration (namespace_ : String) (access : Option Access) (isStatic : Bool)
    (pos : Position) : (depth : Nat) → Parser TypeDecl
  | 0 => throw .exhausted
  | depth + 1 => do
    let _ ← advance
    let name ← identifier
    expectPunct "\x7b"
    let ms ← members depth {}
    return { namespace_, name, kind := if isStatic then .staticClass else .class_, access,
             fields := ms.fields, methods := ms.methods, nested := ms.nested, pos }

/-- Reads members up to the closing brace. -/
def members : (depth : Nat) → Members → Parser Members
  | 0, _ => throw .exhausted
  | depth + 1, ms => do
    if ← eatPunct "\x7d" then return ms
    let pos ← position
    if ← atEof then fail pos .expectedCloseBrace
    let (access, isStatic) ← modifiers
    if ← isWord "class" then
      let inner ← typeDeclaration "" access isStatic pos depth
      members depth { ms with nested := ms.nested ++ [inner] }
    else
      members depth (← member access isStatic pos ms)

end

/-- Reads a `using` directive behind its keyword. -/
def usingDirective (pos : Position) : Parser Import := do
  let namespace_ ← qualifiedName
  expectSemicolon
  return ⟨namespace_, pos⟩

/-- Reads the directives at the top, at most `n` of them. -/
def usingDirectives : (n : Nat) → Parser (List Import)
  | 0 => return []
  | n + 1 => do
    let pos ← position
    if ← eatWord "using" then
      let first ← usingDirective pos
      return first :: (← usingDirectives n)
    return []

/-- Reads declarations up to the end of the file or, inside a namespace, up to its closing
brace. -/
def declarations : (depth : Nat) → (namespace_ : String) → (nested : Bool) → CompilationUnit →
    Parser CompilationUnit
  | 0, _, _, _ => throw .exhausted
  | depth + 1, namespace_, nested, unit => do
    if nested then
      if ← isPunct "\x7d" then return unit
    let pos ← position
    if ← atEof then
      if nested then fail pos .expectedCloseBrace
      return unit
    if nested then
      if ← eatWord "using" then
        let directive ← usingDirective pos
        return ← declarations depth namespace_ nested
          { unit with imports := unit.imports ++ [directive] }
    if ← eatWord "namespace" then
      let name ← qualifiedName
      let full := if namespace_.isEmpty then name else namespace_ ++ "." ++ name
      expectPunct "\x7b"
      let unit ← declarations depth full true unit
      expectPunct "\x7d"
      declarations depth namespace_ nested unit
    else
      let (access, isStatic) ← modifiers
      unless ← isWord "class" do fail pos .topLevelExpected
      let declared ← typeDeclaration namespace_ access isStatic pos (← depthBound)
      declarations depth namespace_ nested { unit with types := unit.types ++ [declared] }

/-- Reads a whole source text. -/
def compilationUnit : Parser CompilationUnit := do
  let imports ← usingDirectives (← remaining)
  declarations (← depthBound) "" false { imports, types := [] }

end CilScope.Source.CSharp
