import CilScope.Source.Lexeme
import CilScope.Source.Tree

/-!
# Reading lexemes

A parser reads lexemes from a cursor and reports what it cannot read. After an error it cannot
recover from it stops; what has been reported stays. The end of the file is never passed.
-/

namespace CilScope.Source

/-- The lexemes still to be read, the end of the one read last, and the log. The lexemes end with
the end of the file. -/
structure Cursor where
  rest : List Located
  previousStop : Position := {}
  log : Log
  deriving Repr, Inhabited

/-- Why parsing has stopped. -/
inductive Abort
  /-- Behind a reported error. -/
  | abort
  /-- With calls nested so deep that no depth is left. -/
  | exhausted
  deriving DecidableEq, Repr, Inhabited

/-- A parser. The cursor outlives a stop, and with it the log. -/
abbrev Parser := ExceptT Abort (StateM Cursor)

/-- The words that are no identifiers. -/
def reserved : Language → List String
  | .csharp => ["class", "static", "public", "private", "internal", "protected", "void", "int",
      "bool", "string", "object", "if", "else", "while", "do", "for", "break", "continue",
      "return", "throw", "try", "catch", "finally", "new", "null", "true", "false", "this",
      "using", "namespace"]
  | .visualBasic => ["addhandler", "and", "andalso", "as", "boolean", "byval", "call", "catch",
      "class", "dim", "do", "else", "elseif", "end", "exit", "false", "finally", "for", "friend",
      "function", "if", "imports", "integer", "loop", "me", "mod", "module", "namespace", "new",
      "next", "not", "nothing", "object", "or", "orelse", "private", "protected", "public",
      "return", "shared", "step", "string", "sub", "then", "throw", "to", "true", "try", "until",
      "while", "continue"]

/-- Whether a word is no identifier. -/
def isReserved (language : Language) (word : String) : Bool :=
  (reserved language).any (language.sameName · word)

/-- The predefined types. -/
def typeKeywords : Language → List (String × TypeName)
  | .csharp => [("void", .void), ("int", .int), ("bool", .bool), ("string", .string),
      ("object", .object)]
  | .visualBasic => [("integer", .int), ("boolean", .bool), ("string", .string),
      ("object", .object)]

namespace Parser

/-- The language being read. -/
def language : Parser Language := return (← get).log.language

/-- The number of lexemes still to be read. -/
def remaining : Parser Nat := return (← get).rest.length

/-- The next lexeme with its position. -/
def peek : Parser Located := return (← get).rest.headD ⟨.eof, {}, {}⟩

/-- The lexeme `n` places ahead; behind the last one there is the end of the file only. -/
def lexemeAt (n : Nat) : Parser Lexeme :=
  return ((← get).rest[n]?.map (·.lexeme)).getD .eof

/-- The next lexeme. -/
def lexeme : Parser Lexeme := lexemeAt 0

/-- The position of the next lexeme. -/
def position : Parser Position := return (← peek).start

/-- The end of the lexeme read last. -/
def previousStop : Parser Position := return (← get).previousStop

/-- Reads a lexeme; the end of the file stays where it is. -/
def advance : Parser Located := do
  let cursor ← get
  match cursor.rest with
  | [] => peek
  | t :: rest =>
    if t.lexeme ≠ .eof then set { cursor with rest, previousStop := t.stop }
    return t

/-- Reports a problem and goes on. -/
def report (pos : Position) (cause : Cause) : Parser Unit :=
  modify fun cursor => { cursor with log := cursor.log.report pos cause }

/-- Reports a problem and stops. -/
def fail {α : Type} (pos : Position) (cause : Cause) : Parser α := do
  report pos cause
  throw .abort

/-- Whether the next lexeme is the end of the file. -/
def atEof : Parser Bool := return (← lexeme) = .eof

/-- Whether the lexeme `n` places ahead is this punctuation. -/
def isPunctAt (n : Nat) (p : String) : Parser Bool := return (← lexemeAt n) = .punct p

/-- Whether the next lexeme is this punctuation. -/
def isPunct (p : String) : Parser Bool := isPunctAt 0 p

/-- Whether the lexeme `n` places ahead is this keyword. -/
def isWordAt (n : Nat) (keyword : String) : Parser Bool := do
  match ← lexemeAt n with
  | .word w => return (← language).sameName w keyword
  | _ => return false

/-- Whether the next lexeme is this keyword. -/
def isWord (keyword : String) : Parser Bool := isWordAt 0 keyword

/-- Reads this punctuation if it is next. -/
def eatPunct (p : String) : Parser Bool := do
  if ← isPunct p then
    let _ ← advance
    return true
  return false

/-- Reads this punctuation of C# if it is next. -/
def eatCSharpPunct (p : String) : Parser Bool := do
  match ← language with
  | .csharp => eatPunct p
  | .visualBasic => return false

/-- Reads this keyword if it is next. -/
def eatWord (keyword : String) : Parser Bool := do
  if ← isWord keyword then
    let _ ← advance
    return true
  return false

/-- The next lexeme as it is shown in messages. -/
def describe : Parser String := do
  match ← lexeme with
  | .word w => return w
  | .int v => return toString v
  | .str s => return "\"" ++ s ++ "\""
  | .punct p => return p
  | .newline | .eof => return ""

/-- What is missing if this punctuation is not found. -/
def expectation (language : Language) (p found : String) : Cause :=
  match language, p with
  | .csharp, "\x7b" => .expectedOpenBrace
  | .csharp, "\x7d" => .expectedCloseBrace
  | .csharp, ";" => .missingSemicolon
  | _, ")" => .expectedCloseParen
  | _, _ => .syntaxError found

/-- Reads this punctuation or stops. C# reports all but braces behind the lexeme read last. -/
def expectPunct (p : String) : Parser Unit := do
  unless ← eatPunct p do
    let language ← language
    let cause := expectation language p (← describe)
    let here := language = .visualBasic || p = "\x7b" || p = "\x7d"
    fail (← if here then position else previousStop) cause

/-- Stops at a lexeme that does not belong here. -/
def unexpected {α : Type} : Parser α := do fail (← position) (.syntaxError (← describe))

/-- Whether the lexeme `n` places ahead is an identifier. -/
def isIdentifierAt (n : Nat) : Parser Bool := do
  match ← lexemeAt n with
  | .word w => return !isReserved (← language) w
  | _ => return false

/-- Whether the lexeme `n` places ahead is a word. -/
def isAnyWordAt (n : Nat) : Parser Bool := do
  match ← lexemeAt n with
  | .word _ => return true
  | _ => return false

/-- Reads an identifier. -/
def identifier : Parser String := do
  match ← lexeme with
  | .word w =>
    if isReserved (← language) w then fail (← position) .identifierExpected
    let _ ← advance
    return w
  | _ => fail (← position) .identifierExpected

/-- Reads the parts of a dotted name behind `name`, at most `n` of them. -/
def dottedRest : (n : Nat) → (name : String) → Parser String
  | 0, name => return name
  | n + 1, name => do
    if (← isPunct ".") && (← isAnyWordAt 1) then
      let _ ← advance
      let part ← identifier
      dottedRest n (name ++ "." ++ part)
    else return name

/-- Reads a dotted name. -/
def qualifiedName : Parser String := do dottedRest (← remaining) (← identifier)

/-- The brackets of array types. -/
def arrayBrackets : Language → String × String
  | .csharp => ("[", "]")
  | .visualBasic => ("(", ")")

/-- Reads the brackets behind an element type, at most `n` pairs. -/
def arrayRest : (n : Nat) → (name : TypeName) → Parser TypeName
  | 0, name => return name
  | n + 1, name => do
    let (opening, closing) := arrayBrackets (← language)
    if (← isPunct opening) && (← isPunctAt 1 closing) then
      let _ ← advance
      let _ ← advance
      arrayRest n (.array name)
    else return name

/-- The predefined type that is next. -/
def typeKeyword? : Parser (Option TypeName) := do
  let language ← language
  match ← lexeme with
  | .word w => return ((typeKeywords language).find? (language.sameName w ·.1)).map (·.2)
  | _ => return none

/-- Reads a type. -/
def typeUse : Parser TypeUse := do
  let pos ← position
  let element ← match ← typeKeyword? with
    | some type => do
      let _ ← advance
      pure type
    | none => TypeName.named <$> qualifiedName
  return ⟨← arrayRest (← remaining) element, pos⟩

end Parser

end CilScope.Source
