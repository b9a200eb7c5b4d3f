import CilScope.Lowering.Statement

/-!
# The meaning of statements

A statement decides what is evaluated and stored, in which order and how often. `Basis` collects what
expressions, variables and handlers mean, in any state and with any failure, and `exec` gives the meaning
of every statement over it, with a bound on the rounds of loops.
-/

namespace CilScope.Source

variable {Scope Value State Failure : Type}

/-- How a statement ends. An exception is a failure and no end. -/
inductive Ending (Value : Type)
  | normal
  | break_ (kind : Option LoopKind)
  | continue_ (kind : Option LoopKind)
  | return_ (value : Option Value)
  deriving DecidableEq, Repr

/-- What a loop makes of the end of its body: the end of the loop, or none if the loop goes on. A jump that
names a kind of loop passes the loops of other kinds. -/
def Ending.leaves (kind : LoopKind) : Ending Value → Option (Ending Value)
  | .normal => none
  | .continue_ k => if k.all (· = kind) then none else some (.continue_ k)
  | .break_ k => if k.all (· = kind) then some .normal else some (.break_ k)
  | .return_ v => some (.return_ v)

/-- A step of a running program. -/
abbrev Run (State Failure : Type) := StateT State (Except Failure)

/-- A step that ends normally, if its end is not looked at. -/
theorem discard_normal (q : Run State Failure Unit) :
    discard (do q; return .normal : Run State Failure (Ending Value)) = q := by
  simp [discard, map_const]

/-- Two computations that start alike and go on alike from what the first part gives. -/
theorem bind_congr_run {α β : Type} {p q : Run State Failure α} {f g : α → Run State Failure β}
    {s : State} (hp : p s = q s) (h : ∀ a s', q s = .ok (a, s') → f a s' = g a s') :
    (p >>= f) s = (q >>= g) s := by
  change (p s >>= fun r => f r.1 r.2) = (q s >>= fun r => g r.1 r.2)
  rw [hp]
  cases hq : q s with
  | error e => rfl
  | ok r => exact h r.1 r.2 hq

/-- A part whose value is known and that changes nothing. -/
theorem bind_of_unchanged {α β : Type} {p : Run State Failure α} {f : α → Run State Failure β} {a : α}
    {s : State} (h : p s = .ok (a, s)) : (p >>= f) s = f a s := by
  change (p s >>= fun r => f r.1 r.2) = _
  rw [h]
  rfl

/-- Goes on with a loop of this kind unless the end of its body leaves it. -/
def Ending.unlessLeft (kind : LoopKind) (e : Ending Value) (next : Run State Failure (Ending Value)) :
    Run State Failure (Ending Value) :=
  match e.leaves kind with
  | some e => return e
  | none => next

/-- What statements are made of, and the laws that control flow relies on. -/
structure Basis (Scope Value State Failure : Type) where
  int : Int32 → Value
  isNegative : Value → Bool
  isNegative_int : ∀ v, isNegative (int v) = decide (v < 0)
  /-- Evaluates an expression, which can change the state. -/
  eval : Scope → Expr → Run State Failure Value
  /-- Reads the variable of this name. -/
  read : Scope → String → Run State Failure Value
  write : Scope → String → Value → Run State Failure Unit
  operate : BinaryOp → Value → Value → Run State Failure Value
  truth : Value → Run State Failure Bool
  eval_int : ∀ σ pos v, eval σ (.int pos v) = pure (int v)
  eval_name : ∀ σ pos x, eval σ (.name pos x) = read σ x
  /-- A comparison evaluates its left operand first. -/
  eval_comparison : ∀ σ pos (op : BinaryOp) l r, op.isComparison → eval σ (.binary pos op l r) = do
    let a ← eval σ l
    let b ← eval σ r
    operate op a b
  read_keeps : ∀ σ x s v s', read σ x s = .ok (v, s') → s' = s
  operate_keeps : ∀ op a b s v s', operate op a b s = .ok (v, s') → s' = s
  truth_keeps : ∀ v s b s', truth v s = .ok (b, s') → s' = s
  /-- What an expression does as a statement, and an assignment to something that is no name. -/
  effect : Scope → Stmt → Run State Failure Unit
  throw_ : Scope → Option Expr → Run State Failure (Ending Value)
  /-- A block with a handler, a part that always runs, or both. -/
  protect : Scope → Run State Failure (Ending Value) →
    Option (CatchHead × Run State Failure (Ending Value)) →
    Option (Run State Failure (Ending Value)) → Run State Failure (Ending Value)
  /-- The scope behind a statement. -/
  after : Scope → Stmt → Scope
  after_assign : ∀ σ pos target op e, after σ (.assign pos target op e) = σ
  /-- The scope behind a block, whose names are gone. -/
  closed : Scope → List Stmt → Scope
  /-- The scope of a handler. -/
  caught : Scope → CatchHead → Scope
  /-- The failure that stands for more rounds than were given. -/
  exhausted : State → Failure

namespace Basis

variable (M : Basis Scope Value State Failure)

/-- Gives up because a loop takes too many rounds. -/
def giveUp {α : Type} : Run State Failure α := fun s => .error (M.exhausted s)

/-- Whether the value of an expression is true. -/
def test (σ : Scope) (cond : Expr) : Run State Failure Bool := do M.truth (← M.eval σ cond)

/-- The test at the top of a loop; a loop without one goes on. -/
def topTest (σ : Scope) : Option Expr → Run State Failure Bool
  | none => return true
  | some cond => M.test σ cond

/-- An assignment to a variable. A compound one reads it first. -/
def assign (σ : Scope) (x : String) (op : AssignOp) (e : Expr) : Run State Failure Unit :=
  match Lowering.compoundOperator? op with
  | none => do M.write σ x (← M.eval σ e)
  | some op => do
    let old ← M.read σ x
    M.write σ x (← M.operate op old (← M.eval σ e))

/-- At most `n` rounds of a loop tested at its top. -/
def topRounds (kind : LoopKind) (test : Run State Failure Bool) (body : Run State Failure (Ending Value))
    (step : Run State Failure Unit) : (n : Nat) → Run State Failure (Ending Value)
  | 0 => M.giveUp
  | n + 1 => do
    if ← test then
      (← body).unlessLeft kind do
        step
        topRounds kind test body step n
    else return .normal

/-- Loops whose tests and steps do the same in the states of `P` do the same, if their rounds do not leave
`P`. -/
theorem topRounds_congr {kind : LoopKind} {test test' : Run State Failure Bool}
    {body : Run State Failure (Ending Value)} {step step' : Run State Failure Unit}
    {P : State → Prop} (htest : ∀ s, P s → test s = test' s)
    (hstep : ∀ s, P s → step s = step' s)
    (htest' : ∀ s goes s', P s → test' s = .ok (goes, s') → P s')
    (hbody : ∀ s e s', P s → body s = .ok (e, s') → e.leaves kind = none → P s')
    (hstep' : ∀ s u s', P s → step' s = .ok (u, s') → P s') (n : Nat) {s : State} (hs : P s) :
    M.topRounds kind test body step n s = M.topRounds kind test' body step' n s := by
  induction n generalizing s with
  | zero => rfl
  | succ n ih =>
    rw [topRounds, topRounds]
    refine bind_congr_run (htest s hs) fun goes s₁ hgoes => ?_
    have hs₁ := htest' s goes s₁ hs hgoes
    cases goes with
    | false => rfl
    | true =>
      refine bind_congr_run rfl fun e s₂ he => ?_
      unfold Ending.unlessLeft
      cases hleaves : e.leaves kind with
      | some e => rfl
      | none =>
        have hs₂ := hbody s₁ e s₂ hs₁ he hleaves
        exact bind_congr_run (hstep s₂ hs₂) fun u s₃ hu => ih (hstep' s₂ u s₃ hs₂ hu)

/-- At most `n` rounds of a loop tested at its bottom. -/
def bottomRounds (test : Run State Failure Bool) (body : Run State Failure (Ending Value)) :
    (n : Nat) → Run State Failure (Ending Value)
  | 0 => M.giveUp
  | n + 1 => do
    (← body).unlessLeft .do_ do
      if ← test then bottomRounds test body n else return .normal

end Basis

mutual

/-- Executes a statement, with at most `n` rounds of every loop. -/
def exec (M : Basis Scope Value State Failure) (n : Nat) :
    Stmt → Scope → Run State Failure (Ending Value)
  | .local_ _ _ _ none, _ => return .normal
  | .local_ pos x type (some e), σ => do
    -- the scope of a local includes its own initial value
    let inner := M.after σ (.local_ pos x type (some e))
    M.write inner x (← M.eval inner e)
    return .normal
  | .assign _ (.name _ x) op e, σ => do
    M.assign σ x op e
    return .normal
  | .if_ _ cond then_ none, σ => do
    if ← M.test σ cond then execAll M n then_ σ else return .normal
  | .if_ _ cond then_ (some else_), σ => do
    if ← M.test σ cond then execAll M n then_ σ else execAll M n else_ (M.closed σ then_)
  | .while_ _ kind cond body none, σ =>
    M.topRounds kind (M.topTest σ cond) (execAll M n body σ) (pure ()) n
  | .while_ _ kind cond body (some step), σ =>
    M.topRounds kind (M.topTest σ cond) (execAll M n body σ) (discard (exec M n step σ)) n
  | .doWhile _ body cond until_, σ =>
    M.bottomRounds (return (← M.test σ cond) ^^ until_) (execAll M n body σ) n
  | .break_ _ kind, _ => return .break_ kind
  | .continue_ _ kind, _ => return .continue_ kind
  | .return_ _ none, _ => return .return_ none
  | .return_ _ (some e), σ => return .return_ (some (← M.eval σ e))
  | .throw_ _ e, σ => M.throw_ σ e
  | .try_ _ body none none, σ => M.protect σ (execAll M n body σ) none none
  | .try_ _ body (some (head, handler)) none, σ =>
    M.protect σ (execAll M n body σ)
      (some (head, execAll M n handler (M.caught (M.closed σ body) head))) none
  | .try_ _ body none (some finally_), σ =>
    M.protect σ (execAll M n body σ) none (some (execAll M n finally_ (M.closed σ body)))
  | .try_ _ body (some (head, handler)) (some finally_), σ =>
    M.protect σ (execAll M n body σ)
      (some (head, execAll M n handler (M.caught (M.closed σ body) head)))
      (some (execAll M n finally_ (M.closed (M.closed σ body) handler)))
  | .block _ body, σ => execAll M n body σ
  | s, σ => do
    M.effect σ s
    return .normal

/-- Executes statements one after the other, until one does not end normally. -/
def execAll (M : Basis Scope Value State Failure) (n : Nat) :
    List Stmt → Scope → Run State Failure (Ending Value)
  | [], _ => return .normal
  | s :: rest, σ => do
    match ← exec M n s σ with
    | .normal => execAll M n rest (M.after σ s)
    | e => return e

end

end CilScope.Source
