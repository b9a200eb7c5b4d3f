import CilScope.Lowering.Method
import CilScope.Proofs.Machine.Basic

/-!
# The meaning of the integer and boolean core

A direct evaluation of the part of both languages whose values are integers and truth values:
expressions are evaluated from left to right, loops round by round, and every declaration of a local
has a cell of its own, numbered in the order of the text. A cell that nothing was stored to holds
the default of its type, and a declaration without an initial value stores nothing.

* `eval`, `exec`, `call`: the value of an expression, the outcome of a statement, and what a method
  returns;
* `inCore`: whether a method body stays inside the core.
-/

namespace CilScope.Core

open Source (Expr Stmt TypeName TypeUse UnaryOp BinaryOp LoopKind)
open Machine (divide? remainder?)

/-! ## Values -/

/-- The types of the core. -/
inductive Ty
  | int
  | bool
  deriving DecidableEq, Repr

/-- A value of the core. -/
inductive Value
  | int (v : Int32)
  | bool (b : Bool)
  deriving DecidableEq, Repr

namespace Ty

/-- The type as the compiler knows it. -/
def static : Ty → StaticType
  | int => .int
  | bool => .bool

/-- The type of the core that a static type is. -/
def ofStatic? : StaticType → Option Ty
  | .int => some int
  | .bool => some bool
  | _ => none

/-- The value that variables of the type start with. -/
def default : Ty → Value
  | int => .int 0
  | bool => .bool false

end Ty

namespace Value

/-- The type of a value. -/
def type : Value → Ty
  | int _ => .int
  | bool _ => .bool

/-- The word that represents a value. -/
def word : Value → Int32
  | int v => v
  | bool b => Machine.ofBool b

end Value

/-! ## Names -/

/-- Where a body stands. -/
structure Site where
  program : Program
  /-- A local without a type takes that of its initial value. -/
  inferLocals : Bool
  /-- The type the method belongs to. -/
  owner : Nat
  method : Method

/-- A local variable in scope. -/
structure Variable where
  name : String
  type : Ty
  cell : Nat
  deriving DecidableEq, Repr

/-- The variables in scope, the last declared one first, and the cell of the next declaration. -/
structure Scope where
  vars : List Variable := []
  next : Nat := 0
  deriving DecidableEq, Repr

/-- What a name refers to. -/
inductive Ref
  | cell (k : Nat) (type : Ty)
  | param (i : Nat) (type : Ty)
  deriving DecidableEq, Repr

/-- The type of what a name refers to. -/
def Ref.type : Ref → Ty
  | cell _ t | param _ t => t

namespace Scope

/-- The scope behind a declaration. -/
def declare (σ : Scope) (name : String) (type : Ty) : Scope :=
  { vars := ⟨name, type, σ.next⟩ :: σ.vars, next := σ.next + 1 }

/-- The scope behind a statement that declares `k` locals of its own. -/
def skip (σ : Scope) (k : Nat) : Scope := { σ with next := σ.next + k }

end Scope

namespace Site

/-- The language of the program. -/
def language (x : Site) : Language := x.program.language

/-- The parameter that a name means. -/
def param? (x : Site) (name : String) : Option Ref := do
  let i ← x.method.paramNames.findIdx? (x.program.sameName · name)
  let type ← x.method.params[i]?
  (Ty.ofStatic? type).map (.param i)

/-- What a name means: the local in scope, else the parameter. -/
def lookup? (x : Site) (σ : Scope) (name : String) : Option Ref :=
  match σ.vars.find? (x.program.sameName ·.name name) with
  | some v => some (.cell v.cell v.type)
  | none => x.param? name

/-- The type of the core that a written type means. -/
def writtenType? (x : Site) : TypeName → Option Ty
  | .int => some .int
  | .bool => some .bool
  | .named name => (x.program.lookup? x.owner name).bind Ty.ofStatic?
  | _ => none

end Site

/-! ## Types of expressions -/

/-- The type of an operator with one operand. -/
def unaryType? (language : Language) : UnaryOp → Ty → Option Ty
  | .neg, .int => some .int
  | .not, .bool => some .bool
  | .not, .int => if language = .visualBasic then some .int else none
  | .neg, .bool => none

/-- The type of an operator with two operands. -/
def binaryType? : BinaryOp → Ty → Ty → Option Ty
  | .add, .int, .int | .sub, .int, .int | .mul, .int, .int | .div, .int, .int
  | .intDiv, .int, .int | .rem, .int, .int => some .int
  | .lt, .int, .int | .gt, .int, .int | .le, .int, .int | .ge, .int, .int => some .bool
  | .eq, a, b | .ne, a, b => if a = b then some .bool else none
  | .and, a, b | .or, a, b => if a = b then some a else none
  | _, _, _ => none

/-- The type of an expression. -/
def infer (x : Site) (σ : Scope) : Expr → Option Ty
  | .int .. => some .int
  | .bool .. => some .bool
  | .name _ n => (x.lookup? σ n).map (·.type)
  | .unary _ op e => (infer x σ e).bind (unaryType? x.language op)
  | .binary _ .andAlso _ _ | .binary _ .orElse _ _ => some .bool
  | .binary _ op l r =>
    match infer x σ l, infer x σ r with
    | some a, some b => binaryType? op a b
    | _, _ => none
  | _ => none

/-- The type of a declared local. -/
def localType? (x : Site) (σ : Scope) (type : Option TypeUse) (init : Option Expr) : Option Ty :=
  match type, init with
  | some t, _ => x.writtenType? t.name
  | none, some e => if x.inferLocals then infer x σ e else none
  | none, none => none

/-! ## Evaluation -/

/-- Why an evaluation gives nothing. -/
inductive Halt
  /-- A division fails. -/
  | fault
  /-- An operand has the wrong type, or a name means nothing. -/
  | meaningless
  /-- A loop takes more rounds than it was given. -/
  | exhausted
  deriving DecidableEq, Repr

/-- The values of the variables. -/
structure Store where
  /-- What was stored in a cell, if anything was. -/
  locals : Nat → Option Value := fun _ => none
  args : List Value

namespace Store

/-- The value of a variable. -/
def read (st : Store) : Ref → Except Halt Value
  | .cell k t => .ok ((st.locals k).getD t.default)
  | .param i _ =>
    match st.args[i]? with
    | some v => .ok v
    | none => .error .meaningless

/-- Stores a value of the variable's type. -/
def write (st : Store) (r : Ref) (v : Value) : Except Halt Store :=
  if v.type = r.type then
    match r with
    | .cell k _ => .ok { st with locals := fun j => if j = k then some v else st.locals j }
    | .param i _ => .ok { st with args := st.args.set i v }
  else .error .meaningless

end Store

/-- The result of a division. -/
def ofQuotient : Option Int32 → Except Halt Value
  | some v => .ok (.int v)
  | none => .error .fault

/-- An operator with one operand. -/
def applyUnary (language : Language) : UnaryOp → Value → Except Halt Value
  | .neg, .int a => .ok (.int (-a))
  | .not, .bool b => .ok (.bool !b)
  | .not, .int a => if language = .visualBasic then .ok (.int (~~~a)) else .error .meaningless
  | .neg, .bool _ => .error .meaningless

/-- An operator whose two operands are both evaluated. -/
def applyBinary : BinaryOp → Value → Value → Except Halt Value
  | .add, .int a, .int b => .ok (.int (a + b))
  | .sub, .int a, .int b => .ok (.int (a - b))
  | .mul, .int a, .int b => .ok (.int (a * b))
  | .div, .int a, .int b | .intDiv, .int a, .int b => ofQuotient (divide? a b)
  | .rem, .int a, .int b => ofQuotient (remainder? a b)
  | .lt, .int a, .int b => .ok (.bool (a < b))
  | .gt, .int a, .int b => .ok (.bool (b < a))
  | .le, .int a, .int b => .ok (.bool (a ≤ b))
  | .ge, .int a, .int b => .ok (.bool (b ≤ a))
  | .eq, .int a, .int b => .ok (.bool (a = b))
  | .eq, .bool a, .bool b => .ok (.bool (a = b))
  | .ne, .int a, .int b => .ok (.bool (a ≠ b))
  | .ne, .bool a, .bool b => .ok (.bool (a ≠ b))
  | .and, .int a, .int b => .ok (.int (a &&& b))
  | .and, .bool a, .bool b => .ok (.bool (a && b))
  | .or, .int a, .int b => .ok (.int (a ||| b))
  | .or, .bool a, .bool b => .ok (.bool (a || b))
  | _, _, _ => .error .meaningless

/-- The truth value that a value is. -/
def truth : Value → Except Halt Bool
  | .bool b => .ok b
  | .int _ => .error .meaningless

/-- The value of an expression. The right operand of a conjunction or a disjunction is evaluated
only if the left one does not decide. -/
def eval (x : Site) (σ : Scope) (st : Store) : Expr → Except Halt Value
  | .int _ v => .ok (.int v)
  | .bool _ b => .ok (.bool b)
  | .name _ n =>
    match x.lookup? σ n with
    | some r => st.read r
    | none => .error .meaningless
  | .unary _ op e => do applyUnary x.language op (← eval x σ st e)
  | .binary _ .andAlso l r => do
    if ← truth (← eval x σ st l) then return .bool (← truth (← eval x σ st r)) else return .bool false
  | .binary _ .orElse l r => do
    if ← truth (← eval x σ st l) then return .bool true else return .bool (← truth (← eval x σ st r))
  | .binary _ op l r => do
    let a ← eval x σ st l
    let b ← eval x σ st r
    applyBinary op a b
  | _ => .error .meaningless

/-! ## Execution -/

/-- How a statement ends. -/
inductive Outcome
  | normal
  | break_ (kind : Option LoopKind)
  | continue_ (kind : Option LoopKind)
  /-- A return, with the value unless the method is a procedure. -/
  | return_ (v : Option Value)
  deriving DecidableEq, Repr

/-- What a statement comes to: its outcome and the store it leaves. -/
abbrev Result := Except Halt (Outcome × Store)

/-- What a loop makes of the outcome of its body: the outcome of the loop, or `none` if the loop
goes on. A jump that names a kind of loop passes loops of other kinds. -/
def loopOutcome (kind : LoopKind) : Outcome → Option Outcome
  | .normal => none
  | .continue_ k => if k.all (· = kind) then none else some (.continue_ k)
  | .break_ k => if k.all (· = kind) then some .normal else some (.break_ k)
  | .return_ v => some (.return_ v)

/-- At most `n` rounds of a loop tested at its top. -/
def whileRounds (kind : LoopKind) (test : Store → Except Halt Bool) (body : Store → Result)
    (step : Store → Except Halt Store) : Nat → Store → Result
  | 0, _ => .error .exhausted
  | n + 1, st => do
    if ← test st then
      let (o, st) ← body st
      match loopOutcome kind o with
      | some o => return (o, st)
      | none => whileRounds kind test body step n (← step st)
    else return (.normal, st)

/-- At most `n` rounds of a loop tested at its bottom. -/
def doRounds (test : Store → Except Halt Bool) (body : Store → Result) : Nat → Store → Result
  | 0, _ => .error .exhausted
  | n + 1, st => do
    let (o, st) ← body st
    match loopOutcome .do_ o with
    | some o => return (o, st)
    | none => if ← test st then doRounds test body n st else return (.normal, st)

mutual

/-- How many locals a statement declares. -/
def cells : Stmt → Nat
  | .local_ .. => 1
  | .if_ _ _ then_ none => cellsAll then_
  | .if_ _ _ then_ (some else_) => cellsAll then_ + cellsAll else_
  | .while_ _ _ _ body _ => cellsAll body
  | .doWhile _ body _ _ => cellsAll body
  | .block _ body => cellsAll body
  | _ => 0

/-- How many locals some statements declare. -/
def cellsAll : List Stmt → Nat
  | [] => 0
  | s :: rest => cells s + cellsAll rest

end

/-- The scope behind a statement. -/
def after (x : Site) (σ : Scope) : Stmt → Scope
  | .local_ _ name type init => σ.declare name ((localType? x σ type init).getD .int)
  | s => σ.skip (cells s)

/-- The store behind an assignment or an increment; `none` for other statements. -/
def update (x : Site) (σ : Scope) (st : Store) : Stmt → Option (Except Halt Store)
  | .assign _ (.name _ n) op e => some do
    let some r := x.lookup? σ n | throw .meaningless
    match Lowering.compoundOperator? op with
    | none => st.write r (← eval x σ st e)
    | some op =>
      let old ← st.read r
      let v ← eval x σ st e
      st.write r (← applyBinary op old v)
  | .increment _ (.name _ n) delta => some do
    let some r := x.lookup? σ n | throw .meaningless
    let old ← st.read r
    st.write r (← applyBinary (if 0 < delta then .add else .sub) old (.int 1))
  | _ => none

/-- The truth value of an expression. -/
def test (x : Site) (σ : Scope) (cond : Expr) (st : Store) : Except Halt Bool := do
  truth (← eval x σ st cond)

/-- The test at the top of a loop; a loop without one goes on. -/
def topTest (x : Site) (σ : Scope) (cond : Option Expr) (st : Store) : Except Halt Bool :=
  match cond with
  | none => .ok true
  | some cond => test x σ cond st

/-- The step between two rounds of a loop, if it has one. -/
def roundStep (x : Site) (σ : Scope) (step : Option Stmt) (st : Store) : Except Halt Store :=
  match step with
  | none => .ok st
  | some step => (update x σ st step).getD (.error .meaningless)

mutual

/-- Executes a statement, with at most `n` rounds of every loop. -/
def exec (x : Site) (n : Nat) : Stmt → Scope → Store → Result
  | .local_ _ name type init, σ, st =>
    match localType? x σ type init, init with
    | none, _ => .error .meaningless
    | some _, none => .ok (.normal, st)
    | some t, some e => do
      -- the scope of a local includes its own initial value
      let v ← eval x (σ.declare name t) st e
      return (.normal, ← st.write (.cell σ.next t) v)
  | .if_ _ cond then_ none, σ, st => do
    if ← test x σ cond st then execAll x n then_ σ st else return (.normal, st)
  | .if_ _ cond then_ (some else_), σ, st => do
    if ← test x σ cond st then execAll x n then_ σ st
    else execAll x n else_ (σ.skip (cellsAll then_)) st
  | .while_ _ kind cond body step, σ, st =>
    whileRounds kind (topTest x σ cond) (execAll x n body σ) (roundStep x σ step) n st
  | .doWhile _ body cond until_, σ, st =>
    doRounds (fun st => return (← test x σ cond st) ^^ until_) (execAll x n body σ) n st
  | .break_ _ kind, _, st => .ok (.break_ kind, st)
  | .continue_ _ kind, _, st => .ok (.continue_ kind, st)
  | .return_ _ none, _, st =>
    if x.method.ret = .void then .ok (.return_ none, st) else .error .meaningless
  | .return_ _ (some e), σ, st => do
    let v ← eval x σ st e
    if v.type.static = x.method.ret then return (.return_ (some v), st) else throw .meaningless
  | .block _ body, σ, st => execAll x n body σ st
  | s, σ, st =>
    match update x σ st s with
    | some result => do return (.normal, ← result)
    | none => .error .meaningless

/-- Executes statements one after the other, until one does not end normally. -/
def execAll (x : Site) (n : Nat) : List Stmt → Scope → Store → Result
  | [], _, st => .ok (.normal, st)
  | s :: rest, σ, st => do
    match ← exec x n s σ st with
    | (.normal, st) => execAll x n rest (after x σ s) st
    | result => return result

end

/-- What a method returns, with at most `n` rounds of every loop. A function whose end is reached
returns the default of its type. -/
def call (x : Site) (body : List Stmt) (args : List Value) (n : Nat) : Except Halt (Option Value) := do
  match (← execAll x n body {} { args }).1 with
  | .return_ v => return v
  | .normal => return (Ty.ofStatic? x.method.ret).map Ty.default
  | .break_ _ | .continue_ _ => throw .meaningless

/-! ## The core -/

/-- Whether an expression is made of literals, names of variables and the operators of the core. -/
def coreExpr (x : Site) (σ : Scope) : Expr → Bool
  | .int .. | .bool .. => true
  | .name _ n => (x.lookup? σ n).isSome
  | .unary _ _ e => coreExpr x σ e
  | .binary _ op l r => op ≠ .concat && coreExpr x σ l && coreExpr x σ r
  | _ => false

/-- Whether a statement is an assignment or an increment of the core. -/
def coreUpdate (x : Site) (σ : Scope) : Stmt → Bool
  | .assign _ (.name _ n) op e => (x.lookup? σ n).isSome && op ≠ .concat && coreExpr x σ e
  | .increment _ (.name _ n) _ => (x.lookup? σ n).isSome
  | _ => false

mutual

/-- Whether a statement stays inside the core. -/
def coreStmt (x : Site) : Stmt → Scope → Bool
  | .local_ _ name type init, σ =>
    match localType? x σ type init with
    | none => false
    | some t => init.all (coreExpr x (σ.declare name t))
  | .if_ _ cond then_ none, σ => coreExpr x σ cond && coreAll x then_ σ
  | .if_ _ cond then_ (some else_), σ =>
    coreExpr x σ cond && coreAll x then_ σ && coreAll x else_ (σ.skip (cellsAll then_))
  | .while_ _ _ cond body step, σ =>
    cond.all (coreExpr x σ) && coreAll x body σ && step.all (coreUpdate x σ)
  | .doWhile _ body cond _, σ => coreAll x body σ && coreExpr x σ cond
  | .break_ .., _ | .continue_ .., _ => true
  | .return_ _ value, σ => value.all (coreExpr x σ)
  | .block _ body, σ => coreAll x body σ
  | s, σ => coreUpdate x σ s

/-- Whether statements stay inside the core. -/
def coreAll (x : Site) : List Stmt → Scope → Bool
  | [], _ => true
  | s :: rest, σ => coreStmt x s σ && coreAll x rest (after x σ s)

end

/-- Whether a method stays inside the core: its parameters are integers or truth values, so is what
it returns unless it is a procedure, and its body uses the core alone. -/
def inCore (x : Site) (body : List Stmt) : Bool :=
  x.method.params.all (fun t => (Ty.ofStatic? t).isSome) &&
    (x.method.ret = .void || (Ty.ofStatic? x.method.ret).isSome) && coreAll x body {}

end CilScope.Core
