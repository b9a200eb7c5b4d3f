import CilScope.Source.Tree
import Mathlib

/-!
# The integers of a syntax tree

What holds of every integer node of a tree, with its position. Integers are in expressions only: in
statements, initial values and bodies it is the expressions that count, and the amount of an increment is
no integer of the text.
-/

namespace CilScope.Source

variable (P : Position → Int32 → Prop)

mutual

/-- Every integer of an expression satisfies `P`. -/
def Expr.Ints : Expr → Prop
  | .int pos v => P pos v
  | .member _ e _ | .unary _ _ e => e.Ints
  | .call _ e args => e.Ints ∧ Expr.IntsAll args
  | .new _ _ args => Expr.IntsAll args
  | .index _ e i | .binary _ _ e i => e.Ints ∧ i.Ints
  | .str .. | .bool .. | .null _ | .this _ | .name .. | .typeKeyword .. => True

def Expr.IntsAll : List Expr → Prop
  | [] => True
  | e :: es => e.Ints ∧ Expr.IntsAll es

end

mutual

/-- Every integer of a statement satisfies `P`. -/
def Stmt.Ints : Stmt → Prop
  | .local_ _ _ _ init => ∀ e ∈ init, e.Ints P
  | .assign _ target _ value => target.Ints P ∧ value.Ints P
  | .increment _ e _ | .expr _ e => e.Ints P
  | .if_ _ cond then_ else_ => cond.Ints P ∧ Stmt.IntsAll then_ ∧
    match else_ with
    | some body => Stmt.IntsAll body
    | none => True
  | .while_ _ _ cond body step => (∀ e ∈ cond, e.Ints P) ∧ Stmt.IntsAll body ∧
    match step with
    | some step => step.Ints
    | none => True
  | .doWhile _ body cond _ => Stmt.IntsAll body ∧ cond.Ints P
  | .break_ .. | .continue_ .. => True
  | .return_ _ value | .throw_ _ value => ∀ e ∈ value, e.Ints P
  | .try_ _ body handler finally_ => Stmt.IntsAll body ∧
    (match handler with
    | some (_, body) => Stmt.IntsAll body
    | none => True) ∧
    match finally_ with
    | some body => Stmt.IntsAll body
    | none => True
  | .block _ body => Stmt.IntsAll body

def Stmt.IntsAll : List Stmt → Prop
  | [] => True
  | s :: ss => s.Ints ∧ Stmt.IntsAll ss

end

/-- Every integer in the initial value of a field satisfies `P`. -/
def FieldDecl.Ints (f : FieldDecl) : Prop := ∀ e ∈ f.init, e.Ints P

/-- Every integer in the body of a method satisfies `P`. -/
def MethodDecl.Ints (m : MethodDecl) : Prop := Stmt.IntsAll P m.body

mutual

/-- Every integer of a type and of those nested in it satisfies `P`. -/
def TypeDecl.Ints : TypeDecl → Prop
  | ⟨_, _, _, _, fields, methods, nested, _⟩ =>
    (∀ f ∈ fields, f.Ints P) ∧ (∀ m ∈ methods, m.Ints P) ∧ TypeDecl.IntsAll nested

def TypeDecl.IntsAll : List TypeDecl → Prop
  | [] => True
  | d :: ds => d.Ints ∧ TypeDecl.IntsAll ds

end

/-- Every integer of a source text satisfies `P`. -/
def CompilationUnit.Ints (unit : CompilationUnit) : Prop := TypeDecl.IntsAll P unit.types

variable {P}

theorem Stmt.intsAll_append {xs ys : List Stmt} :
    Stmt.IntsAll P (xs ++ ys) ↔ Stmt.IntsAll P xs ∧ Stmt.IntsAll P ys := by
  induction xs with
  | nil => simp [Stmt.IntsAll]
  | cons x xs ih => simp [Stmt.IntsAll, ih, and_assoc]

theorem TypeDecl.intsAll_append {xs ys : List TypeDecl} :
    TypeDecl.IntsAll P (xs ++ ys) ↔ TypeDecl.IntsAll P xs ∧ TypeDecl.IntsAll P ys := by
  induction xs with
  | nil => simp [TypeDecl.IntsAll]
  | cons x xs ih => simp [TypeDecl.IntsAll, ih, and_assoc]

variable {pos : Position}

theorem Stmt.ints_if {cond : Expr} {then_ : List Stmt} {else_ : Option (List Stmt)} :
    (Stmt.if_ pos cond then_ else_).Ints P ↔
      cond.Ints P ∧ Stmt.IntsAll P then_ ∧ ∀ body ∈ else_, Stmt.IntsAll P body := by
  cases else_ <;> simp [Stmt.Ints]

theorem Stmt.ints_while {kind : LoopKind} {cond : Option Expr} {body : List Stmt} {step : Option Stmt} :
    (Stmt.while_ pos kind cond body step).Ints P ↔
      (∀ e ∈ cond, e.Ints P) ∧ Stmt.IntsAll P body ∧ ∀ s ∈ step, s.Ints P := by
  cases step <;> simp [Stmt.Ints]

theorem Stmt.ints_try {body : List Stmt} {handler : Option (CatchHead × List Stmt)}
    {finally_ : Option (List Stmt)} :
    (Stmt.try_ pos body handler finally_).Ints P ↔ Stmt.IntsAll P body ∧
      (∀ h ∈ handler, Stmt.IntsAll P h.2) ∧ ∀ body ∈ finally_, Stmt.IntsAll P body := by
  cases handler <;> cases finally_ <;> simp [Stmt.Ints]

/-! ### Weaker conditions -/

variable {P' : Position → Int32 → Prop}

mutual

theorem Expr.Ints.mono (h : ∀ pos v, P pos v → P' pos v) : ∀ e : Expr, e.Ints P → e.Ints P'
  | .int _ _, he => h _ _ he
  | .member _ e _, he => Expr.Ints.mono h e he
  | .unary _ _ e, he => Expr.Ints.mono h e he
  | .call _ e args, he => ⟨Expr.Ints.mono h e he.1, Expr.IntsAll.mono h args he.2⟩
  | .new _ _ args, he => Expr.IntsAll.mono h args he
  | .index _ e i, he => ⟨Expr.Ints.mono h e he.1, Expr.Ints.mono h i he.2⟩
  | .binary _ _ l r, he => ⟨Expr.Ints.mono h l he.1, Expr.Ints.mono h r he.2⟩
  | .str .., _ | .bool .., _ | .null _, _ | .this _, _ | .name .., _ | .typeKeyword .., _ => trivial

theorem Expr.IntsAll.mono (h : ∀ pos v, P pos v → P' pos v) :
    ∀ es : List Expr, Expr.IntsAll P es → Expr.IntsAll P' es
  | [], _ => trivial
  | e :: es, hes => ⟨Expr.Ints.mono h e hes.1, Expr.IntsAll.mono h es hes.2⟩

end

theorem Expr.ints_of_mem {o : Option Expr} (h : ∀ pos v, P pos v → P' pos v) (ho : ∀ e ∈ o, e.Ints P) :
    ∀ e ∈ o, e.Ints P' :=
  fun e he => .mono h e (ho e he)

mutual

theorem Stmt.Ints.mono (h : ∀ pos v, P pos v → P' pos v) : ∀ s : Stmt, s.Ints P → s.Ints P'
  | .local_ .., hs => Expr.ints_of_mem h hs
  | .assign .., hs => ⟨.mono h _ hs.1, .mono h _ hs.2⟩
  | .increment .., hs => Expr.Ints.mono h _ hs
  | .expr .., hs => Expr.Ints.mono h _ hs
  | .if_ _ _ then_ none, hs => ⟨.mono h _ hs.1, Stmt.IntsAll.mono h then_ hs.2.1, trivial⟩
  | .if_ _ _ then_ (some else_), hs =>
    ⟨.mono h _ hs.1, Stmt.IntsAll.mono h then_ hs.2.1, Stmt.IntsAll.mono h else_ hs.2.2⟩
  | .while_ _ _ _ body none, hs => ⟨Expr.ints_of_mem h hs.1, Stmt.IntsAll.mono h body hs.2.1, trivial⟩
  | .while_ _ _ _ body (some step), hs =>
    ⟨Expr.ints_of_mem h hs.1, Stmt.IntsAll.mono h body hs.2.1, Stmt.Ints.mono h step hs.2.2⟩
  | .doWhile _ body _ _, hs => ⟨Stmt.IntsAll.mono h body hs.1, .mono h _ hs.2⟩
  | .break_ .., _ | .continue_ .., _ => trivial
  | .return_ .., hs => Expr.ints_of_mem h hs
  | .throw_ .., hs => Expr.ints_of_mem h hs
  | .try_ _ body none none, hs => ⟨Stmt.IntsAll.mono h body hs.1, trivial, trivial⟩
  | .try_ _ body none (some last), hs =>
    ⟨Stmt.IntsAll.mono h body hs.1, trivial, Stmt.IntsAll.mono h last hs.2.2⟩
  | .try_ _ body (some (_, handler)) none, hs =>
    ⟨Stmt.IntsAll.mono h body hs.1, Stmt.IntsAll.mono h handler hs.2.1, trivial⟩
  | .try_ _ body (some (_, handler)) (some last), hs =>
    ⟨Stmt.IntsAll.mono h body hs.1, Stmt.IntsAll.mono h handler hs.2.1, Stmt.IntsAll.mono h last hs.2.2⟩
  | .block _ body, hs => Stmt.IntsAll.mono h body hs

theorem Stmt.IntsAll.mono (h : ∀ pos v, P pos v → P' pos v) :
    ∀ ss : List Stmt, Stmt.IntsAll P ss → Stmt.IntsAll P' ss
  | [], _ => trivial
  | s :: ss, hss => ⟨Stmt.Ints.mono h s hss.1, Stmt.IntsAll.mono h ss hss.2⟩

end

mutual

theorem TypeDecl.Ints.mono (h : ∀ pos v, P pos v → P' pos v) : ∀ d : TypeDecl, d.Ints P → d.Ints P'
  | ⟨_, _, _, _, _, _, nested, _⟩, hd => ⟨fun f hf => Expr.ints_of_mem h (hd.1 f hf),
      fun m hm => .mono h _ (hd.2.1 m hm), TypeDecl.IntsAll.mono h nested hd.2.2⟩

theorem TypeDecl.IntsAll.mono (h : ∀ pos v, P pos v → P' pos v) :
    ∀ ds : List TypeDecl, TypeDecl.IntsAll P ds → TypeDecl.IntsAll P' ds
  | [], _ => trivial
  | d :: ds, hds => ⟨TypeDecl.Ints.mono h d hds.1, TypeDecl.IntsAll.mono h ds hds.2⟩

end

end CilScope.Source
