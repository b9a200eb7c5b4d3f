import CilScope.Source.Tree

/-!
# Normal completion

Whether control can run off the end of a list of statements, judged by their form: a return or a
throw ends the flow, and a loop without a test ends only by a `break`.
-/

namespace CilScope.Source

mutual

/-- Whether a statement holds a `break` that may leave the loop around it. -/
def Stmt.holdsBreak : Stmt → Bool
  | .break_ .. => true
  | .block _ body => anyHoldsBreak body
  | .if_ _ _ then_ none => anyHoldsBreak then_
  | .if_ _ _ then_ (some else_) => anyHoldsBreak then_ || anyHoldsBreak else_
  | .try_ _ body handler finally_ =>
    anyHoldsBreak body ||
    (match handler with
      | some (_, body) => anyHoldsBreak body
      | none => false) ||
    (match finally_ with
      | some body => anyHoldsBreak body
      | none => false)
  | _ => false

/-- Whether one of the statements holds a `break` that may leave the loop around them. -/
def anyHoldsBreak : List Stmt → Bool
  | [] => false
  | s :: rest => s.holdsBreak || anyHoldsBreak rest

end

/-- Whether a test is absent or always true. -/
def neverFails : Option Expr → Bool
  | none => true
  | some (.bool _ b) => b
  | some _ => false

mutual

/-- Whether control can run off the end of a statement. -/
def Stmt.completes : Stmt → Bool
  | .return_ .. | .throw_ .. => false
  | .block _ body => completesNormally body
  | .if_ _ _ _ none => true
  | .if_ _ _ then_ (some else_) => completesNormally then_ || completesNormally else_
  | .while_ _ _ cond body _ => !neverFails cond || anyHoldsBreak body
  | .doWhile _ body _ _ => completesNormally body || anyHoldsBreak body
  | .try_ _ body handler finally_ =>
    (match finally_ with
      | some body => completesNormally body
      | none => true) &&
    (completesNormally body ||
      match handler with
      | some (_, body) => completesNormally body
      | none => false)
  | _ => true

/-- Whether control can run off the end of a list of statements. -/
def completesNormally : List Stmt → Bool
  | [] => true
  | s :: rest => s.completes && completesNormally rest

end

end CilScope.Source
