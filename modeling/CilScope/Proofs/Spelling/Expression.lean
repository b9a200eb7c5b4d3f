import CilScope.Proofs.Spelling.Cursor

/-!
# Reading expressions in another spelling

The expression that is read from respelled lexemes is the respelled expression. Operators and constants
are words in Visual Basic, so they are found in every spelling.
-/

namespace CilScope.Source.Parser

variable {f : String → String} {depth : Nat}

theorem mirrors_operator? (level : Level) : Mirrors f (operator? level) (operator? level) id := by
  refine .spelling fun h => .language ((mirrors_lexemeAt 0).bind fun t => .pure ?_)
  have hspells (spelling : Spelling) :
      spells .visualBasic (t.respell f) spelling = spells .visualBasic t spelling := by
    cases t with
    | word w =>
      cases spelling with
      | punct => rfl
      | word v => exact h.same w v
    | int | str | punct | newline | eof => rfl
  simp only [hspells]
  rfl

theorem mirrors_constant? :
    Mirrors f constant? constant? (Option.map fun constant pos => (constant pos).respell f) := by
  refine .spelling fun h => .language ((mirrors_lexemeAt 0).bind fun t => ?_)
  cases t with
  | word w =>
    refine .pure ?_
    have hsame (k : String × (Position → Expr)) : Language.visualBasic.sameName (f w) k.1 =
        Language.visualBasic.sameName w k.1 := h.same w k.1
    simp only [hsame, Option.map_map]
    refine Option.map_congr fun k hk => ?_
    have hmem := List.mem_of_find?_eq_some hk
    simp only [constants, List.mem_cons, List.not_mem_nil, or_false] at hmem
    rcases hmem with rfl | rfl | rfl | rfl <;> rfl
  | int | str | punct | newline | eof => exact .pure rfl

theorem mirrors_memberName : Mirrors f memberName memberName f := by
  refine .language ((mirrors_lexemeAt 0).bind fun t => ?_)
  cases t with
  | word w => exact .bind mirrors_advance fun _ => .pure rfl
  | int | str | punct | newline | eof => exact mirrors_identifier

theorem mirrors_literal (pos : Position) (value : Nat) :
    Mirrors f (literal pos value) (literal pos value) (Expr.respell f) :=
  .bind mirrors_advance fun _ =>
    .ite ((Mirrors.report pos rfl).same fun _ => .pure rfl) (.pure rfl)

/-- The parsers of expressions read respelled lexemes to respelled expressions. -/
structure ExpressionMirror (f : String → String) (depth : Nat) : Prop where
  binary : ∀ ls, Mirrors f (Parser.binary depth ls) (Parser.binary depth ls) (Expr.respell f)
  binaryRest : ∀ level tighter lhs, Mirrors f (Parser.binaryRest depth level tighter lhs)
    (Parser.binaryRest depth level tighter (lhs.respell f)) (Expr.respell f)
  unary : Mirrors f (Parser.unary depth) (Parser.unary depth) (Expr.respell f)
  operand : Mirrors f (Parser.operand depth) (Parser.operand depth) (Expr.respell f)
  postfixRest : ∀ e, Mirrors f (Parser.postfixRest depth e) (Parser.postfixRest depth (e.respell f))
    (Expr.respell f)
  arguments : Mirrors f (Parser.arguments depth) (Parser.arguments depth) (Expr.respellAll f)
  argumentList : Mirrors f (Parser.argumentList depth) (Parser.argumentList depth) (Expr.respellAll f)
  primary : Mirrors f (Parser.primary depth) (Parser.primary depth) (Expr.respell f)

namespace ExpressionMirror

theorem zero : ExpressionMirror f 0 where
  binary _ := .abort
  binaryRest _ _ _ := .abort
  unary := .abort
  operand := .abort
  postfixRest _ := .abort
  arguments := .abort
  argumentList := .abort
  primary := .abort

theorem binary_succ (h : ExpressionMirror f depth) (ls : List Level) :
    Mirrors f (Parser.binary (depth + 1) ls) (Parser.binary (depth + 1) ls) (Expr.respell f) := by
  cases ls with
  | nil =>
    rw [Parser.binary]
    exact h.unary
  | cons level tighter =>
    rw [Parser.binary]
    refine .same mirrors_position fun pos => ?_
    have hrest : Mirrors f (do Parser.binaryRest depth level tighter (← Parser.binary depth tighter))
        (do Parser.binaryRest depth level tighter (← Parser.binary depth tighter)) (Expr.respell f) :=
      (h.binary tighter).bind fun lhs => h.binaryRest level tighter lhs
    refine .ite ?_ hrest
    refine (mirrors_eatWord "not").same fun _ => .ite ?_ hrest
    exact (h.binary (level :: tighter)).bind fun _ => .pure rfl

theorem binaryRest_succ (h : ExpressionMirror f depth) (level : Level) (tighter : List Level)
    (lhs : Expr) : Mirrors f (Parser.binaryRest (depth + 1) level tighter lhs)
      (Parser.binaryRest (depth + 1) level tighter (lhs.respell f)) (Expr.respell f) := by
  rw [Parser.binaryRest, Parser.binaryRest]
  refine (mirrors_operator? level).same fun op? => ?_
  cases op? with
  | none => exact .pure rfl
  | some op =>
    refine .bind mirrors_advance fun t => (h.binary tighter).bind fun rhs => ?_
    exact h.binaryRest level tighter (.binary t.start op lhs rhs)

theorem unary_succ (h : ExpressionMirror f depth) :
    Mirrors f (Parser.unary (depth + 1)) (Parser.unary (depth + 1)) (Expr.respell f) := by
  rw [Parser.unary]
  refine .same mirrors_position fun pos => (mirrors_eatPunct "-").same fun _ => .ite ?_ ?_
  · refine (mirrors_lexemeAt 0).bind fun t => ?_
    cases t with
    | int v => exact .bind mirrors_advance fun _ => h.postfixRest (.int pos (Int32.ofInt (-v)))
    | word | str | punct | newline | eof => exact h.unary.bind fun _ => .pure rfl
  · refine (mirrors_eatCSharpPunct "!").same fun _ => .ite ?_ h.operand
    exact h.unary.bind fun _ => .pure rfl

theorem operand_succ (h : ExpressionMirror f depth) :
    Mirrors f (Parser.operand (depth + 1)) (Parser.operand (depth + 1)) (Expr.respell f) := by
  rw [Parser.operand]
  exact h.primary.bind fun e => h.postfixRest e

theorem postfixRest_succ (h : ExpressionMirror f depth) (e : Expr) :
    Mirrors f (Parser.postfixRest (depth + 1) e) (Parser.postfixRest (depth + 1) (e.respell f))
      (Expr.respell f) := by
  rw [Parser.postfixRest, Parser.postfixRest, Expr.pos_respell]
  refine .same mirrors_position fun pos => (mirrors_eatPunct ".").same fun _ => .ite ?_ ?_
  · exact .bind mirrors_memberName fun name => h.postfixRest (.member pos e name)
  refine (mirrors_isPunctAt 0 "(").same fun _ => .ite ?_ ?_
  · exact h.arguments.bind fun args => h.postfixRest (.call e.pos e args)
  refine (mirrors_eatCSharpPunct "[").same fun _ => .ite (.language ?_) (.pure rfl)
  refine (h.binary _).bind fun index => (mirrors_expectPunct "]").same fun _ => ?_
  exact h.postfixRest (.index pos e index)

theorem arguments_succ (h : ExpressionMirror f depth) :
    Mirrors f (Parser.arguments (depth + 1)) (Parser.arguments (depth + 1)) (Expr.respellAll f) := by
  rw [Parser.arguments]
  refine (mirrors_expectPunct "(").same fun _ => (mirrors_isPunctAt 0 ")").same fun _ => ?_
  have hclose (args : List Expr) : Mirrors f (do expectPunct ")"; return args)
      (do expectPunct ")"; return Expr.respellAll f args) (Expr.respellAll f) :=
    (mirrors_expectPunct ")").same fun _ => .pure rfl
  exact .ite (hclose []) (h.argumentList.bind hclose)

theorem argumentList_succ (h : ExpressionMirror f depth) :
    Mirrors f (Parser.argumentList (depth + 1)) (Parser.argumentList (depth + 1))
      (Expr.respellAll f) := by
  rw [Parser.argumentList]
  refine .language ((h.binary _).bind fun arg => (mirrors_eatPunct ",").same fun _ => .ite ?_ (.pure rfl))
  exact h.argumentList.bind fun _ => .pure rfl

/-- An object creation or a name, which is the word `w`. -/
theorem newOrName (h : ExpressionMirror f depth) (pos : Position) (w : String) :
    let reading (w : String) : Parser Expr := do
      if ← eatWord "new" then
        let type ← typeUse
        let args ← if Language.visualBasic = .csharp || (← isPunct "(") then Parser.arguments depth
          else pure []
        return .new pos type args
      if isReserved .visualBasic w then fail pos (.invalidExpressionTerm w)
      let _ ← advance
      return .name pos w
    Mirrors f (reading w) (reading (f w)) (Expr.respell f) := by
  refine .spelling fun hf => (mirrors_eatWord "new").same fun _ => .ite ?_ ?_
  · refine .bind mirrors_typeUse fun type => (mirrors_isPunctAt 0 "(").same fun _ => ?_
    exact .ite (h.arguments.bind fun _ => .pure rfl) (.pure rfl)
  · rw [isReserved_respell hf]
    refine .ite (.fail_bind pos ?_) (.bind mirrors_advance fun _ => .pure rfl)
    exact congrArg Cause.invalidExpressionTerm (hf.idem w)

theorem primary_succ (h : ExpressionMirror f depth) :
    Mirrors f (Parser.primary (depth + 1)) (Parser.primary (depth + 1)) (Expr.respell f) := by
  rw [Parser.primary]
  refine .same mirrors_position fun pos => .language ?_
  refine (mirrors_lexemeAt 0).bind fun t => ?_
  have hother : Mirrors f (do fail pos (.invalidExpressionTerm (← describe)))
      (do fail pos (.invalidExpressionTerm (← describe))) (Expr.respell f) :=
    .describe fun _ _ hd => .fail pos (congrArg Cause.invalidExpressionTerm hd)
  cases t with
  | int v => exact mirrors_literal pos v
  | str => exact .bind mirrors_advance fun _ => .pure rfl
  | punct p =>
    dsimp only [Lexeme.respell]
    split
    · cases ‹_ = Lexeme.int _›
    · cases ‹_ = Lexeme.str _›
    · refine .bind mirrors_advance fun _ => (h.binary _).bind fun inner => ?_
      exact (mirrors_expectPunct ")").same fun _ => .pure rfl
    · cases ‹_ = Lexeme.word _›
    · exact hother
  | word w =>
    refine .bind mirrors_constant? fun constant => ?_
    cases constant with
    | some constant => exact .bind mirrors_advance fun _ => .pure rfl
    | none =>
      refine .bind mirrors_typeKeyword? fun type => ?_
      cases type with
      | none => exact h.newOrName pos w
      | some type =>
        have hvoid : type.respell f ≠ .void ↔ type ≠ .void := by cases type <;> simp [TypeName.respell]
        dsimp only [Option.map_none, Option.map_some, Lexeme.respell]
        simp only [hvoid]
        exact .ite (.bind mirrors_typeUse fun _ => .pure rfl) (h.newOrName pos w)
  | newline | eof => exact hother

theorem succ (h : ExpressionMirror f depth) : ExpressionMirror f (depth + 1) where
  binary := h.binary_succ
  binaryRest := h.binaryRest_succ
  unary := h.unary_succ
  operand := h.operand_succ
  postfixRest := h.postfixRest_succ
  arguments := h.arguments_succ
  argumentList := h.argumentList_succ
  primary := h.primary_succ

end ExpressionMirror

theorem expressionMirror (f : String → String) (depth : Nat) : ExpressionMirror f depth := by
  induction depth with
  | zero => exact .zero
  | succ depth ih => exact ih.succ

theorem mirrors_depthBound : Mirrors f depthBound depthBound id :=
  .same mirrors_remaining fun _ => .pure rfl

theorem mirrors_expression : Mirrors f expression expression (Expr.respell f) :=
  .same mirrors_depthBound fun depth => .language ((expressionMirror f depth).binary _)

theorem mirrors_operandExpression : Mirrors f operandExpression operandExpression (Expr.respell f) :=
  .same mirrors_depthBound fun depth => (expressionMirror f depth).operand

end CilScope.Source.Parser
