import CilScope.Proofs.Source.Progress

/-!
# Expressions are read within their depth

Between two lexemes the parsers of expressions call each other at most sixteen deep: once per level
of operators, and a few times for signs, operands and arguments. So with a depth of sixteen times the
number of lexemes ahead none of them runs out of it, and each returns or stops behind an error.
-/

namespace CilScope.Source.Parser

variable {N : Lexeme → Prop} {r k depth : Nat}

theorem length_levels (language : Language) : (levels language).length ≤ 8 := by
  cases language <;> decide

theorem looks_operator? (level : Level) : Looks (operator? level) :=
  looks_language.bind fun _ => Looks.lexemeAt fun _ => Looks.pure _

theorem looks_constant? : Looks constant? := by
  refine looks_language.bind fun _ => Looks.lexemeAt fun t => ?_
  cases t <;> exact Looks.pure _

theorem progress_memberName : Progress N r 1 memberName := by
  refine .looks looks_language fun language => .lexeme fun t _ => ?_
  split
  · exact .read nofun fun _ _ => .pure _
  · exact progress_identifier

theorem progress_literal (pos : Position) (value : Nat) (hN : ∀ t, N t → t ≠ .eof) :
    Progress N r 1 (literal pos value) :=
  (progress_advance hN).bind fun _ _ =>
    .ite (fun _ => (Progress.report _ _).bind fun _ _ => .pure _) fun _ => .pure _

/-- The depth that the parsers of expressions need with `r` lexemes ahead. -/
structure ExpressionDepth (depth : Nat) : Prop where
  binary : ∀ {N r ls}, 16 * r + 4 + ls.length ≤ depth → ls.length ≤ 8 →
    Progress N r 1 (Parser.binary depth ls)
  binaryRest : ∀ {N r level tighter lhs}, 16 * r + 5 + tighter.length ≤ depth →
    tighter.length ≤ 8 → Progress N r 0 (Parser.binaryRest depth level tighter lhs)
  unary : ∀ {N r}, 16 * r + 3 ≤ depth → Progress N r 1 (Parser.unary depth)
  operand : ∀ {N r}, 16 * r + 2 ≤ depth → Progress N r 1 (Parser.operand depth)
  postfixRest : ∀ {N r e}, 16 * r + 2 ≤ depth → Progress N r 0 (Parser.postfixRest depth e)
  arguments : ∀ {N r}, 16 * r + 1 ≤ depth → Progress N r 1 (Parser.arguments depth)
  argumentList : ∀ {N r}, 16 * r + 13 ≤ depth → Progress N r 1 (Parser.argumentList depth)
  primary : ∀ {N r}, 16 * r + 1 ≤ depth → Progress N r 1 (Parser.primary depth)

namespace ExpressionDepth

theorem zero : ExpressionDepth 0 where
  binary h := by omega
  binaryRest h := by omega
  unary h := by omega
  operand h := by omega
  postfixRest h := by omega
  arguments h := by omega
  argumentList h := by omega
  primary h := by omega

/-- An expression of any level. -/
theorem whole (h : ExpressionDepth depth) {language : Language} (hdepth : 16 * r + 12 ≤ depth) :
    Progress N r 1 (Parser.binary depth (levels language)) := by
  have := length_levels language
  exact h.binary (by omega) this

theorem binary_succ (h : ExpressionDepth depth) {ls : List Level}
    (hdepth : 16 * r + 4 + ls.length ≤ depth + 1) (hls : ls.length ≤ 8) :
    Progress N r 1 (Parser.binary (depth + 1) ls) := by
  cases ls with
  | nil =>
    rw [Parser.binary]
    exact h.unary (by rw [List.length_nil] at hdepth; omega)
  | cons level tighter =>
    rw [List.length_cons] at hdepth hls
    rw [Parser.binary]
    refine .looks looks_position fun pos => ?_
    have hrest : ∀ {M : Lexeme → Prop}, Progress M r 1
        (do Parser.binaryRest depth level tighter (← Parser.binary depth tighter)) :=
      (h.binary (by omega) (by omega)).bind fun _ lhs => h.binaryRest (by omega) (by omega)
    refine .ite (fun _ => ?_) fun _ => hrest
    refine .eats (eats_eatWord "not") (fun _ => ?_) hrest
    exact ((h.binary (by rw [List.length_cons]; omega) (by rw [List.length_cons]; omega)).bind
      fun _ _ => .pure _).weaken (Nat.zero_le 1)

theorem binaryRest_succ (h : ExpressionDepth depth) {level : Level} {tighter : List Level}
    {lhs : Expr} (hdepth : 16 * r + 5 + tighter.length ≤ depth + 1) (htighter : tighter.length ≤ 8) :
    Progress N r 0 (Parser.binaryRest (depth + 1) level tighter lhs) := by
  rw [Parser.binaryRest]
  refine .looks (looks_operator? level) fun op? => ?_
  cases op? with
  | none => exact .pure lhs
  | some op =>
    refine progress_advance_any.bind fun _ t => ?_
    refine (h.binary (by omega) htighter).bind fun _ rhs => ?_
    exact h.binaryRest (by omega) htighter

theorem unary_succ (h : ExpressionDepth depth) (hdepth : 16 * r + 3 ≤ depth + 1) :
    Progress N r 1 (Parser.unary (depth + 1)) := by
  rw [Parser.unary]
  refine .looks looks_position fun pos => .eats (eats_eatPunct "-") (fun _ => ?_) ?_
  · refine .lexeme fun t _ => ?_
    have hneg : ∀ {M : Lexeme → Prop}, Progress M (r - 1) 0
        (do return Expr.unary pos .neg (← Parser.unary depth)) :=
      (h.unary (by omega)).bind fun _ _ => .pure _
    cases t with
    | int v => exact progress_advance_any.bind fun _ _ => h.postfixRest (by omega)
    | _ => exact hneg
  · refine .eats (eats_eatCSharpPunct "!") (fun _ => ?_) (h.operand (by omega))
    exact (h.unary (by omega)).bind fun _ _ => .pure _

theorem operand_succ (h : ExpressionDepth depth) (hdepth : 16 * r + 2 ≤ depth + 1) :
    Progress N r 1 (Parser.operand (depth + 1)) := by
  rw [Parser.operand]
  exact (h.primary (by omega)).bind fun _ _ => h.postfixRest (by omega)

theorem postfixRest_succ (h : ExpressionDepth depth) {e : Expr} (hdepth : 16 * r + 2 ≤ depth + 1) :
    Progress N r 0 (Parser.postfixRest (depth + 1) e) := by
  rw [Parser.postfixRest]
  refine .looks looks_position fun pos => .eats (eats_eatPunct ".") (fun _ => ?_) ?_
  · exact progress_memberName.bind fun _ _ => h.postfixRest (by omega)
  refine .looks (looks_isPunctAt 0 "(") fun _ => .ite (fun _ => ?_) fun _ => ?_
  · exact (h.arguments (by omega)).bind fun _ _ => h.postfixRest (by omega)
  refine .eats (eats_eatCSharpPunct "[") (fun _ => .looks looks_language fun _ => ?_) (.pure e)
  refine (h.whole (by omega)).bind fun _ _ => ?_
  exact (progress_expectPunct "]").bind fun _ _ => h.postfixRest (by omega)

theorem arguments_succ (h : ExpressionDepth depth) (hdepth : 16 * r + 1 ≤ depth + 1) :
    Progress N r 1 (Parser.arguments (depth + 1)) := by
  rw [Parser.arguments]
  refine (progress_expectPunct "(").bind fun _ _ => .looks (looks_isPunctAt 0 ")") fun _ => ?_
  refine .ite_bind (.pure []) ((h.argumentList (by omega)).weaken (Nat.zero_le 1)) fun _ args => ?_
  exact (progress_expectPunct ")").bind fun _ _ => .pure args

theorem argumentList_succ (h : ExpressionDepth depth) (hdepth : 16 * r + 13 ≤ depth + 1) :
    Progress N r 1 (Parser.argumentList (depth + 1)) := by
  rw [Parser.argumentList]
  refine .looks looks_language fun _ => (h.whole (by omega)).bind fun _ arg => ?_
  refine .eats (eats_eatPunct ",") (fun _ => ?_) (.pure [arg])
  exact (h.argumentList (by omega)).bind fun _ _ => .pure _

theorem primary_succ (h : ExpressionDepth depth) (hdepth : 16 * r + 1 ≤ depth + 1) :
    Progress N r 1 (Parser.primary (depth + 1)) := by
  rw [Parser.primary]
  refine .looks looks_position fun pos => .looks looks_language fun language => ?_
  refine .lexeme fun t _ => ?_
  split
  · exact progress_literal _ _ fun _ h => by rw [h]; nofun
  · exact .read nofun fun _ _ => .pure _
  · refine .read nofun fun _ _ => (h.whole (by omega)).bind fun _ inner => ?_
    exact (progress_expectPunct ")").bind fun _ _ => .pure inner
  · rename_i w _
    refine .looks looks_constant? fun constant => ?_
    split
    · exact .read nofun fun _ _ => .pure _
    refine .looks looks_typeKeyword? fun type => ?_
    extract_lets name other
    have hother : Progress (· = .word w) r 1 (other ()) := by
      dsimp only [other]
      refine .eats (eats_eatWord "new") (fun _ => progress_typeUse.bind fun _ type => ?_) ?_
      · refine .looks (looks_isPunctAt 0 "(") fun _ => ?_
        refine .ite_bind ((h.arguments (by omega)).weaken (Nat.zero_le 1)) (.pure []) fun _ _ => ?_
        exact .pure _
      · exact .ite (fun _ => .fail_bind fun _ => rfl) fun _ => .read nofun fun _ _ => .pure _
    split
    · refine .ite (fun _ => ?_) fun _ => hother
      exact progress_typeUse.bind fun _ _ => .pure _
    · exact hother
  · exact .looks looks_describe fun _ => .fail fun _ => rfl

theorem succ (h : ExpressionDepth depth) : ExpressionDepth (depth + 1) where
  binary := h.binary_succ
  binaryRest := h.binaryRest_succ
  unary := h.unary_succ
  operand := h.operand_succ
  postfixRest := h.postfixRest_succ
  arguments := h.arguments_succ
  argumentList := h.argumentList_succ
  primary := h.primary_succ

end ExpressionDepth

theorem expressionDepth (depth : Nat) : ExpressionDepth depth := by
  induction depth with
  | zero => exact .zero
  | succ depth ih => exact ih.succ

/-- The depth that is started with is enough for the lexemes ahead. -/
theorem Progress.depthBound {β : Type} {f : Nat → Parser β}
    (hf : ∀ n ≤ r, Progress N n k (f (16 * n + 16))) :
    Progress N r k (Parser.depthBound >>= f) := by
  rw [Parser.depthBound, bind_assoc]
  refine .remaining fun n hn => ?_
  rw [pure_bind]
  exact hf n hn

theorem progress_expression : Progress N r 1 expression :=
  .depthBound fun n _ => .looks looks_language fun _ => (expressionDepth _).whole (by omega)

theorem progress_unaryExpression : Progress N r 1 unaryExpression :=
  .depthBound fun n _ => (expressionDepth _).unary (by omega)

theorem progress_operandExpression : Progress N r 1 operandExpression :=
  .depthBound fun n _ => (expressionDepth _).operand (by omega)

end CilScope.Source.Parser
