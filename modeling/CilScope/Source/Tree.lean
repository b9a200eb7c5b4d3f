import CilScope.Source.Position

/-!
# Syntax trees

The tree both languages are parsed into. Visual Basic's `For` and `Do` forms are brought to the loops
that C# has, so everything behind the parsers sees one form per construct.
-/

namespace CilScope.Source

/-- A declared accessibility. -/
inductive Access
  | public_
  | private_
  | internal
  | protected_
  deriving DecidableEq, Repr, Inhabited

/-- The kinds of type declarations. -/
inductive TypeKind
  | class_
  /-- A C# class that cannot be instantiated. -/
  | staticClass
  /-- A Visual Basic module: sealed, all members shared. -/
  | module_
  deriving DecidableEq, Repr, Inhabited

/-- A type as it is written. -/
inductive TypeName
  | void
  | int
  | bool
  | string
  | object
  /-- A class by its dotted name. -/
  | named (name : String)
  | array (element : TypeName)
  deriving DecidableEq, Repr, Inhabited

/-- A type name with its position. -/
structure TypeUse where
  name : TypeName
  pos : Position
  deriving DecidableEq, Repr, Inhabited

/-- What an assignment does with the old value. -/
inductive AssignOp
  | set
  | add
  | sub
  | mul
  | div
  | rem
  | concat
  deriving DecidableEq, Repr, Inhabited

/-- The loops that `Exit` and `Continue` can name. -/
inductive LoopKind
  | for_
  | while_
  | do_
  deriving DecidableEq, Repr, Inhabited

/-- The word for a loop. -/
def LoopKind.word : LoopKind → String
  | for_ => "For"
  | while_ => "While"
  | do_ => "Do"

/-- The operators in front of an operand. -/
inductive UnaryOp
  | neg
  | not
  deriving DecidableEq, Repr, Inhabited

/-- The operators between two operands. -/
inductive BinaryOp
  | add
  | sub
  | mul
  | div
  /-- Division of integers in Visual Basic. -/
  | intDiv
  | rem
  | concat
  | lt
  | gt
  | le
  | ge
  | eq
  | ne
  | andAlso
  | orElse
  /-- Conjunction that evaluates both operands. -/
  | and
  /-- Disjunction that evaluates both operands. -/
  | or
  deriving DecidableEq, Repr, Inhabited

/-- Whether an operator compares its operands. -/
def BinaryOp.isComparison : BinaryOp → Bool
  | lt | gt | le | ge | eq | ne => true
  | _ => false

/-- An expression. -/
inductive Expr
  | int (pos : Position) (value : Int32)
  | str (pos : Position) (text : String)
  | bool (pos : Position) (value : Bool)
  | null (pos : Position)
  | this (pos : Position)
  | name (pos : Position) (name : String)
  /-- A predefined type in front of a member. -/
  | typeKeyword (pos : Position) (type : TypeName)
  | member (pos : Position) (target : Expr) (name : String)
  /-- A call, or the access to an element in Visual Basic. -/
  | call (pos : Position) (callee : Expr) (args : List Expr)
  | new (pos : Position) (type : TypeUse) (args : List Expr)
  | index (pos : Position) (target index : Expr)
  | unary (pos : Position) (op : UnaryOp) (operand : Expr)
  | binary (pos : Position) (op : BinaryOp) (lhs rhs : Expr)
  deriving Repr, Inhabited

namespace Expr

/-- The position of an expression. -/
def pos : Expr → Position
  | int p _ | str p _ | bool p _ | null p | this p | name p _ | typeKeyword p _ | member p _ _
  | call p _ _ | new p _ _ | index p _ _ | unary p _ _ | binary p _ _ _ => p

/-- The dotted name of a chain of members that starts with a name. -/
def dottedName? : Expr → Option String
  | name _ n => some n
  | member _ target n => target.dottedName?.map (· ++ "." ++ n)
  | _ => none

end Expr

/-- The head of a handler: what it catches, and the variable the exception goes to. -/
structure CatchHead where
  pos : Position
  /-- The caught type; none stands for all exceptions. -/
  type : Option TypeUse
  var : Option String
  deriving DecidableEq, Repr, Inhabited

/-- A statement. -/
inductive Stmt
  /-- A local variable; without a type it takes that of its initial value. -/
  | local_ (pos : Position) (name : String) (type : Option TypeUse) (init : Option Expr)
  | assign (pos : Position) (target : Expr) (op : AssignOp) (value : Expr)
  | increment (pos : Position) (target : Expr) (delta : Int32)
  | expr (pos : Position) (e : Expr)
  | if_ (pos : Position) (cond : Expr) (then_ : List Stmt) (else_ : Option (List Stmt))
  /-- A loop tested at its top; the step runs before the next test and is where `continue`
  goes. -/
  | while_ (pos : Position) (kind : LoopKind) (cond : Option Expr) (body : List Stmt)
    (step : Option Stmt)
  /-- A loop tested at its bottom; `until_` negates the test. -/
  | doWhile (pos : Position) (body : List Stmt) (cond : Expr) (until_ : Bool)
  | break_ (pos : Position) (kind : Option LoopKind)
  | continue_ (pos : Position) (kind : Option LoopKind)
  | return_ (pos : Position) (value : Option Expr)
  | throw_ (pos : Position) (value : Option Expr)
  | try_ (pos : Position) (body : List Stmt) (handler : Option (CatchHead × List Stmt))
    (finally_ : Option (List Stmt))
  | block (pos : Position) (body : List Stmt)
  deriving Repr, Inhabited

/-- The position of a statement. -/
def Stmt.pos : Stmt → Position
  | local_ p .. | assign p .. | increment p .. | expr p .. | if_ p .. | while_ p .. | doWhile p ..
  | break_ p .. | continue_ p .. | return_ p .. | throw_ p .. | try_ p .. | block p .. => p

/-- An imported namespace. -/
structure Import where
  namespace_ : String
  pos : Position
  deriving DecidableEq, Repr, Inhabited

/-- A parameter. -/
structure Param where
  name : String
  type : TypeUse
  pos : Position
  deriving DecidableEq, Repr, Inhabited

/-- A field. -/
structure FieldDecl where
  name : String
  type : TypeUse
  access : Option Access
  isStatic : Bool
  init : Option Expr
  pos : Position
  deriving Repr, Inhabited

/-- A method. -/
structure MethodDecl where
  name : String
  /-- The return type; `void` for procedures. -/
  ret : TypeUse
  params : List Param
  access : Option Access
  isStatic : Bool
  body : List Stmt
  pos : Position
  /-- Where the body ends. -/
  endPos : Position
  deriving Repr, Inhabited

/-- A type. -/
structure TypeDecl where
  /-- The dotted namespace; empty for nested types. -/
  namespace_ : String
  name : String
  kind : TypeKind
  access : Option Access
  fields : List FieldDecl
  methods : List MethodDecl
  nested : List TypeDecl
  pos : Position
  deriving Repr, Inhabited

/-- A whole source text. -/
structure CompilationUnit where
  imports : List Import
  types : List TypeDecl
  deriving Repr, Inhabited

end CilScope.Source
