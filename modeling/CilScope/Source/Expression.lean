import CilScope.Source.Cursor

/-!
# Expressions

Binary operators are read level by level, from the loosest to the tightest; operators of one level
group to the left. Visual Basic's `Not` stands in front of comparisons, C#'s `!` in front of operands.
Only C# has elements in brackets; in Visual Basic they are read as calls.
Every nesting of calls reads a lexeme or goes down a level, so a depth in proportion to the number
of lexemes is enough.
-/

namespace CilScope.Source

/-- The spelling of an operator. -/
inductive Spelling
  | punct (text : String)
  | word (text : String)
  deriving DecidableEq, Repr, Inhabited

/-- A level of binary operators. -/
structure Level where
  operators : List (Spelling × BinaryOp)
  /-- Whether `Not` may stand in front of this level. -/
  negatable : Bool := false
  deriving DecidableEq, Repr, Inhabited

/-- The levels of binary operators, the loosest first. -/
def levels : Language → List Level
  | .csharp => [
      { operators := [(.punct "||", .orElse)] },
      { operators := [(.punct "&&", .andAlso)] },
      { operators := [(.punct "==", .eq), (.punct "!=", .ne)] },
      { operators := [(.punct "<", .lt), (.punct ">", .gt), (.punct "<=", .le),
          (.punct ">=", .ge)] },
      { operators := [(.punct "+", .add), (.punct "-", .sub)] },
      { operators := [(.punct "*", .mul), (.punct "/", .div), (.punct "%", .rem)] }]
  | .visualBasic => [
      { operators := [(.word "orelse", .orElse), (.word "or", .or)] },
      { operators := [(.word "andalso", .andAlso), (.word "and", .and)] },
      { operators := [(.punct "=", .eq), (.punct "<>", .ne), (.punct "<", .lt), (.punct ">", .gt),
          (.punct "<=", .le), (.punct ">=", .ge)], negatable := true },
      { operators := [(.punct "&", .concat)] },
      { operators := [(.punct "+", .add), (.punct "-", .sub)] },
      { operators := [(.word "mod", .rem)] },
      { operators := [(.punct "\\", .intDiv)] },
      { operators := [(.punct "*", .mul), (.punct "/", .div)] }]

namespace Parser

/-- Whether a lexeme spells an operator. -/
def spells (language : Language) : Lexeme → Spelling → Bool
  | .punct p, .punct q => p == q
  | .word w, .word v => language.sameName w v
  | _, _ => false

/-- The operator of a level that is next. -/
def operator? (level : Level) : Parser (Option BinaryOp) := do
  let language ← language
  let lexeme ← lexeme
  return (level.operators.find? fun (spelling, _) => spells language lexeme spelling).map (·.2)

/-- The literals and the receiver that are words. -/
def constants : Language → List (String × (Position → Expr))
  | .csharp => [("true", (.bool · true)), ("false", (.bool · false)), ("null", .null),
      ("this", .this)]
  | .visualBasic => [("true", (.bool · true)), ("false", (.bool · false)), ("nothing", .null),
      ("me", .this)]

/-- The constant that is next. -/
def constant? : Parser (Option (Position → Expr)) := do
  let language ← language
  match ← lexeme with
  | .word w => return ((constants language).find? (language.sameName w ·.1)).map (·.2)
  | _ => return none

/-- The name of a member: in Visual Basic it may be a keyword. -/
def memberName : Parser String := do
  match ← language, ← lexeme with
  | .visualBasic, .word w => do
    let _ ← advance
    return w
  | _, _ => identifier

/-- The value of a literal, which has to fit a signed word. -/
def literal (pos : Position) (value : Nat) : Parser Expr := do
  let _ ← advance
  if 0x80000000 ≤ value then report pos .integerTooLarge
  return .int pos (Int32.ofNat value)

mutual

/-- Reads operands and operators of these levels. -/
def binary : (depth : Nat) → List Level → Parser Expr
  | 0, _ => throw .exhausted
  | depth + 1, [] => unary depth
  | depth + 1, level :: tighter => do
    let pos ← position
    if level.negatable then
      if ← eatWord "not" then
        return .unary pos .not (← binary depth (level :: tighter))
    let lhs ← binary depth tighter
    binaryRest depth level tighter lhs

/-- Reads the operators of a level behind the operand `lhs`. -/
def binaryRest : (depth : Nat) → Level → List Level → Expr → Parser Expr
  | 0, _, _, _ => throw .exhausted
  | depth + 1, level, tighter, lhs => do
    match ← operator? level with
    | none => return lhs
    | some op =>
      let pos := (← advance).start
      let rhs ← binary depth tighter
      binaryRest depth level tighter (.binary pos op lhs rhs)

/-- Reads an operand with the signs in front of it. A minus sign belongs to the literal behind
it. -/
def unary : (depth : Nat) → Parser Expr
  | 0 => throw .exhausted
  | depth + 1 => do
    let pos ← position
    if ← eatPunct "-" then
      match ← lexeme with
      | .int v =>
        let _ ← advance
        postfixRest depth (.int pos (Int32.ofInt (-v)))
      | _ => return .unary pos .neg (← unary depth)
    else if ← eatCSharpPunct "!" then
      return .unary pos .not (← unary depth)
    else operand depth

/-- Reads a primary expression and what is applied to it. -/
def operand : (depth : Nat) → Parser Expr
  | 0 => throw .exhausted
  | depth + 1 => do postfixRest depth (← primary depth)

/-- Reads members, calls and elements behind the expression `e`. -/
def postfixRest : (depth : Nat) → Expr → Parser Expr
  | 0, _ => throw .exhausted
  | depth + 1, e => do
    let pos ← position
    if ← eatPunct "." then
      let name ← memberName
      postfixRest depth (.member pos e name)
    else if ← isPunct "(" then
      let args ← arguments depth
      postfixRest depth (.call e.pos e args)
    else if ← eatCSharpPunct "[" then
      let index ← binary depth (levels (← language))
      expectPunct "]"
      postfixRest depth (.index pos e index)
    else return e

/-- Reads arguments in parentheses. -/
def arguments : (depth : Nat) → Parser (List Expr)
  | 0 => throw .exhausted
  | depth + 1 => do
    expectPunct "("
    let args ← if ← isPunct ")" then pure [] else argumentList depth
    expectPunct ")"
    return args

/-- Reads arguments with commas between them. -/
def argumentList : (depth : Nat) → Parser (List Expr)
  | 0 => throw .exhausted
  | depth + 1 => do
    let arg ← binary depth (levels (← language))
    if ← eatPunct "," then return arg :: (← argumentList depth)
    return [arg]

/-- Reads a literal, a name, a type in front of a member, an object creation or an expression in
parentheses. -/
def primary : (depth : Nat) → Parser Expr
  | 0 => throw .exhausted
  | depth + 1 => do
    let pos ← position
    let language ← language
    match ← lexeme with
    | .int v => literal pos v
    | .str s =>
      let _ ← advance
      return .str pos s
    | .punct "(" =>
      let _ ← advance
      let inner ← binary depth (levels language)
      expectPunct ")"
      return inner
    | .word w =>
      if let some constant ← constant? then
        let _ ← advance
        return constant pos
      if let some type ← typeKeyword? then
        if type ≠ .void then return .typeKeyword pos (← typeUse).name
      if ← eatWord "new" then
        let type ← typeUse
        let args ← if language = .csharp || (← isPunct "(") then arguments depth else pure []
        return .new pos type args
      if isReserved language w then fail pos (.invalidExpressionTerm w)
      let _ ← advance
      return .name pos w
    | _ => fail pos (.invalidExpressionTerm (← describe))

end

/-- The nesting of calls that any expression of the remaining lexemes stays below. -/
def depthBound : Parser Nat := return 16 * (← remaining) + 16

/-- Reads an expression. -/
def expression : Parser Expr := do binary (← depthBound) (levels (← language))

/-- Reads an operand with the signs in front of it. -/
def unaryExpression : Parser Expr := do unary (← depthBound)

/-- Reads an operand without signs. -/
def operandExpression : Parser Expr := do operand (← depthBound)

end Parser

end CilScope.Source
