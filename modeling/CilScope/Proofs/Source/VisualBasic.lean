import CilScope.Proofs.Source.Expression

/-!
# Visual Basic programs are read within their depth

As in C#, every nesting of statements, types and namespaces reads a lexeme. A list of statements may
be empty, so it is the statement in it that gets ahead.
-/

namespace CilScope.Source.VisualBasic

open CilScope.Source.Parser

variable {N : Lexeme → Prop} {r k depth : Nat}

/-! ### Line ends and keywords -/

theorem progress_skipNewlinesFrom (n : Nat) : Progress N r 0 (skipNewlinesFrom n) := by
  induction n generalizing N r with
  | zero => exact .pure ()
  | succ n ih =>
    refine .looks (looks_lexemeAt 0) fun t => .ite (fun _ => ?_) fun _ => .pure ()
    exact progress_advance_any.bind fun _ _ => ih

theorem progress_skipNewlines : Progress N r 0 skipNewlines :=
  .looks looks_remaining fun n => progress_skipNewlinesFrom n

theorem progress_endOfStatement : Progress N r 0 endOfStatement := by
  refine .looks (looks_lexemeAt 0) fun t => ?_
  cases t with
  | newline => exact progress_advance_any.bind fun _ _ => .pure ()
  | eof => exact .pure ()
  | _ => exact .looks looks_position fun _ => .fail fun _ => rfl

theorem looks_atLineEnd : Looks atLineEnd := by
  refine Looks.lexemeAt fun t => ?_
  cases t <;> exact Looks.pure _

theorem looks_atStatementEnd : Looks atStatementEnd :=
  looks_atLineEnd.bind fun _ => (looks_isWordAt 0 "else").bind fun _ => Looks.pure _

theorem looks_atBlockEnd : Looks atBlockEnd := by
  refine Looks.lexemeAt fun t => ?_
  cases t <;> exact Looks.pure _

theorem progress_expectWord (keyword : String) : Progress N r 1 (expectWord keyword) :=
  .eats (eats_eatWord keyword) (fun _ => .pure ()) progress_unexpected

theorem progress_expectEnd (construct : String) (opened : Position) :
    Progress N r 0 (expectEnd construct opened) := by
  refine .looks (looks_isWordAt 0 "end") fun _ => .looks (looks_isWordAt 1 construct) fun _ => ?_
  refine .ite (fun _ => ?_) fun _ => .fail fun _ => rfl
  exact progress_advance_any.bind fun _ _ => progress_advance_any.bind fun _ _ => .pure ()

theorem progress_modifiersFrom (n : Nat) (access : Option Access) (shared : Bool) :
    Progress N r 0 (modifiersFrom n access shared) := by
  induction n generalizing N r access shared with
  | zero => exact .pure _
  | succ n ih =>
    refine .eats (eats_eatWord "shared") (fun _ => ih _ _) (.looks (looks_lexemeAt 0) fun t => ?_)
    cases t with
    | word w =>
      dsimp only
      split
      · exact progress_advance_any.bind fun _ _ => ih _ _
      · exact .pure _
    | _ => exact .pure _

theorem progress_modifiers : Progress N r 0 modifiers :=
  .looks looks_remaining fun _ => progress_modifiersFrom _ _ _

/-! ### Statements without bodies -/

theorem progress_declarator : Progress N r 1 declarator := by
  refine progress_identifier.bind fun _ name => ?_
  refine .looks (looks_isPunctAt 0 "(") fun _ => .looks (looks_isPunctAt 1 ")") fun _ => ?_
  extract_lets isArray typed rest
  have hrest : ∀ {M n}, Progress M n 0 (rest ()) := by
    refine .optional (eats_eatWord "as") (fun _ => progress_typeUse) fun type _ => ?_
    refine .looks looks_position fun pos => ?_
    exact .optional (eats_eatPunct "=") (fun _ => progress_expression) fun _ _ => .pure _
  refine .ite (fun _ => ?_) fun _ => hrest
  exact progress_advance_any.bind fun _ _ => progress_advance_any.bind fun _ _ => hrest

theorem progress_locals {n : Nat} (hn : r ≤ n) : Progress N r 1 (locals n) := by
  induction n generalizing N r with
  | zero => exact .nothing hn
  | succ n ih =>
    refine .looks looks_position fun _ => progress_declarator.bind fun _ d => ?_
    refine .eats (eats_eatPunct ",") (fun _ => ?_) (.pure _)
    exact (ih (by omega)).bind fun _ _ => .pure _

theorem progress_loopKind? : Progress N r 0 loopKind? :=
  .eats (eats_eatWord "for") (fun _ => .pure _) <|
  .eats (eats_eatWord "while") (fun _ => .pure _) <|
  .eats (eats_eatWord "do") (fun _ => .pure _) (.pure none)

theorem progress_loopTest : Progress N r 0 loopTest :=
  .eats (eats_eatWord "while") (fun _ => progress_expression.bind fun _ _ => .pure _) <|
  .eats (eats_eatWord "until") (fun _ => progress_expression.bind fun _ _ => .pure _) (.pure none)

theorem progress_simpleStatement : Progress N r 1 simpleStatement := by
  refine .looks looks_position fun pos => progress_operandExpression.bind fun _ target => ?_
  refine .looks (looks_lexemeAt 0) fun t => ?_
  dsimp only
  split
  · exact progress_advance_any.bind fun _ _ => progress_expression.bind fun _ _ => .pure _
  · exact .ite (fun _ => .pure _) fun _ => (Progress.report _ _).bind fun _ _ => .pure _

theorem progress_optionalValue : Progress N r 0 optionalValue :=
  .looks looks_atStatementEnd fun _ =>
    .ite (fun _ => .pure none) fun _ => progress_expression.bind fun _ _ => .pure _

theorem progress_forHead (opened : Position) : Progress N r 1 (forHead opened) := by
  refine .looks looks_position fun varPos => progress_identifier.bind fun _ var => ?_
  refine .optional (eats_eatWord "as") (fun _ => progress_typeUse) fun type _ => ?_
  refine (progress_expectPunct "=").bind fun _ _ => progress_expression.bind fun _ from_ => ?_
  refine (progress_expectWord "to").bind fun _ _ => progress_expression.bind fun _ limit => ?_
  refine .optional (eats_eatWord "step") (fun _ => progress_expression) fun step _ => ?_
  exact progress_endOfStatement.bind fun _ _ => .pure _

theorem progress_eatLoopVariable (var : String) : Progress N r 0 (eatLoopVariable var) := by
  refine .looks (looks_lexemeAt 0) fun t => ?_
  cases t with
  | word w => exact .ite (fun _ => progress_advance_any.bind fun _ _ => .pure ()) fun _ => .pure ()
  | _ => exact .pure ()

theorem progress_catchHead (pos : Position) : Progress N r 0 (catchHead pos) := by
  refine .looks (looks_isIdentifierAt 0) fun _ => .ite (fun _ => ?_) fun _ => .pure _
  refine progress_identifier.bind fun _ var => ?_
  exact .optional (eats_eatWord "as") (fun _ => progress_typeUse) fun _ _ => .pure _

/-! ### Blocks -/

/-- The depth that the parsers of statements need with `r` lexemes ahead. -/
structure StatementDepth (depth : Nat) : Prop where
  statement : ∀ {N r}, 16 * r + 1 ≤ depth → Progress N r 1 (VisualBasic.statement depth)
  statements : ∀ {N r}, 16 * r + 2 ≤ depth → Progress N r 0 (VisualBasic.statements depth)
  conditional : ∀ {N r opened}, 16 * r + 3 ≤ depth →
    Progress N r 0 (VisualBasic.conditional depth opened)
  doLoop : ∀ {N r opened}, 16 * r + 3 ≤ depth → Progress N r 0 (VisualBasic.doLoop depth opened)
  tryBlock : ∀ {N r opened}, 16 * r + 3 ≤ depth →
    Progress N r 0 (VisualBasic.tryBlock depth opened)

namespace StatementDepth

theorem zero : StatementDepth 0 where
  statement h := by omega
  statements h := by omega
  conditional h := by omega
  doLoop h := by omega
  tryBlock h := by omega

theorem statements_succ (h : StatementDepth depth) (hdepth : 16 * r + 2 ≤ depth + 1) :
    Progress N r 0 (VisualBasic.statements (depth + 1)) := by
  rw [VisualBasic.statements]
  refine progress_skipNewlines.bind fun _ _ => .looks looks_atBlockEnd fun _ => ?_
  refine .ite (fun _ => .pure []) fun _ => (h.statement (by omega)).bind fun _ first => ?_
  refine progress_endOfStatement.bind fun _ _ => ?_
  exact (h.statements (by omega)).bind fun _ _ => .pure _

theorem conditional_succ (h : StatementDepth depth) {opened : Position}
    (hdepth : 16 * r + 3 ≤ depth + 1) :
    Progress N r 0 (VisualBasic.conditional (depth + 1) opened) := by
  rw [VisualBasic.conditional]
  refine progress_expression.bind fun _ cond => (progress_expectWord "then").bind fun _ _ => ?_
  refine .looks looks_atLineEnd fun _ => .ite (fun _ => ?_) fun _ => ?_
  · refine (h.statement (by omega)).bind fun _ then_ => ?_
    exact .optional (eats_eatWord "else") (fun _ => h.statement (by omega)) fun _ _ => .pure _
  refine progress_endOfStatement.bind fun _ _ => (h.statements (by omega)).bind fun _ then_ => ?_
  refine .looks looks_position fun pos => .eats (eats_eatWord "elseif") (fun _ => ?_) ?_
  · exact (h.conditional (by omega)).bind fun _ _ => .pure _
  refine .eats (eats_eatWord "else") (fun _ => progress_endOfStatement.bind fun _ _ => ?_) ?_
  · refine (h.statements (by omega)).bind fun _ else_ => ?_
    exact (progress_expectEnd "If" opened).bind fun _ _ => .pure _
  · exact (progress_expectEnd "If" opened).bind fun _ _ => .pure _

theorem doLoop_succ (h : StatementDepth depth) {opened : Position}
    (hdepth : 16 * r + 3 ≤ depth + 1) :
    Progress N r 0 (VisualBasic.doLoop (depth + 1) opened) := by
  rw [VisualBasic.doLoop]
  refine progress_loopTest.bind fun _ top => progress_endOfStatement.bind fun _ _ => ?_
  refine (h.statements (by omega)).bind fun _ body => ?_
  refine .eats (eats_eatWord "loop") (fun _ => ?_) (.fail_bind fun _ => rfl)
  refine progress_loopTest.bind fun _ bottom => ?_
  split
  · exact .pure _
  · exact .pure _
  · exact .pure _
  · exact .looks looks_position fun _ => .fail fun _ => rfl

theorem tryBlock_succ (h : StatementDepth depth) {opened : Position}
    (hdepth : 16 * r + 3 ≤ depth + 1) :
    Progress N r 0 (VisualBasic.tryBlock (depth + 1) opened) := by
  rw [VisualBasic.tryBlock]
  refine progress_endOfStatement.bind fun _ _ => (h.statements (by omega)).bind fun _ body => ?_
  refine .looks looks_position fun catchPos => ?_
  extract_lets rest
  have hrest : ∀ {M n} (handler), n ≤ r → Progress M n 0 (rest handler) := fun handler hn => by
    have hend : ∀ {M n} (finally_ : Option (List Stmt)), Progress M n 0 (do
        expectEnd "Try" opened
        return Stmt.try_ opened body handler finally_) := fun _ =>
      (progress_expectEnd "Try" opened).bind fun _ _ => .pure _
    refine .eats (eats_eatWord "finally") (fun _ => ?_) (.looks (Looks.pure none) hend)
    refine progress_endOfStatement.bind fun _ _ => (h.statements (by omega)).bind fun _ _ => ?_
    exact .looks (Looks.pure _) hend
  refine .eats (eats_eatWord "catch") (fun _ => ?_) ?_
  · refine (progress_catchHead catchPos).bind fun _ head => ?_
    refine progress_endOfStatement.bind fun _ _ => (h.statements (by omega)).bind fun _ _ => ?_
    exact .looks (Looks.pure _) fun _ => hrest _ (by omega)
  · exact .looks (Looks.pure none) fun _ => hrest _ (by omega)

theorem statement_succ (h : StatementDepth depth) (hdepth : 16 * r + 1 ≤ depth + 1) :
    Progress N r 1 (VisualBasic.statement (depth + 1)) := by
  rw [VisualBasic.statement]
  refine .looks looks_position fun pos => .eats (eats_eatWord "dim") (fun _ => ?_) ?_
  · exact .remaining fun n _ => (progress_locals (Nat.le_refl n)).weaken (Nat.zero_le 1)
  refine .eats (eats_eatWord "if") (fun _ => ?_) ?_
  · exact (h.conditional (by omega)).bind fun _ _ => .pure _
  refine .eats (eats_eatWord "while") (fun _ => progress_expression.bind fun _ cond => ?_) ?_
  · refine progress_endOfStatement.bind fun _ _ => (h.statements (by omega)).bind fun _ body => ?_
    exact (progress_expectEnd "While" pos).bind fun _ _ => .pure _
  refine .eats (eats_eatWord "do") (fun _ => ?_) ?_
  · exact (h.doLoop (by omega)).bind fun _ _ => .pure _
  refine .eats (eats_eatWord "for") (fun _ => (progress_forHead pos).bind fun _ head => ?_) ?_
  · refine (h.statements (by omega)).bind fun _ body => ?_
    refine .eats (eats_eatWord "next") (fun _ => ?_) (.fail_bind fun _ => rfl)
    exact (progress_eatLoopVariable head.var).bind fun _ _ => .pure _
  refine .eats (eats_eatWord "exit") (fun _ => progress_loopKind?.bind fun _ kind => ?_) ?_
  · cases kind with
    | some kind => exact .pure _
    | none =>
      refine .eats (eats_eatWord "sub") (fun _ => .pure _) ?_
      exact .eats (eats_eatWord "function") (fun _ => .pure _) progress_unexpected
  refine .eats (eats_eatWord "continue") (fun _ => progress_loopKind?.bind fun _ kind => ?_) ?_
  · cases kind with
    | some kind => exact .pure _
    | none => exact progress_unexpected
  refine .eats (eats_eatWord "return") (fun _ => ?_) ?_
  · exact progress_optionalValue.bind fun _ _ => .pure _
  refine .eats (eats_eatWord "throw") (fun _ => ?_) ?_
  · exact progress_optionalValue.bind fun _ _ => .pure _
  refine .eats (eats_eatWord "try") (fun _ => ?_) ?_
  · exact (h.tryBlock (by omega)).bind fun _ _ => .pure _
  refine .eats (eats_eatWord "call") (fun _ => ?_) ?_
  · exact progress_operandExpression.bind fun _ _ => .pure _
  · exact progress_simpleStatement.bind fun _ _ => .pure _

theorem succ (h : StatementDepth depth) : StatementDepth (depth + 1) where
  statement := h.statement_succ
  statements := h.statements_succ
  conditional := h.conditional_succ
  doLoop := h.doLoop_succ
  tryBlock := h.tryBlock_succ

end StatementDepth

theorem statementDepth (depth : Nat) : StatementDepth depth := by
  induction depth with
  | zero => exact .zero
  | succ depth ih => exact ih.succ

/-! ### Declarations -/

theorem progress_parameters {n : Nat} (hn : r ≤ n) : Progress N r 1 (parameters n) := by
  induction n generalizing N r with
  | zero => exact .nothing hn
  | succ n ih =>
    refine (Progress.of_eats (eats_eatWord "byval")).bind fun _ _ => ?_
    refine .looks looks_position fun pos => progress_declarator.bind fun _ d => ?_
    refine .eats (eats_eatPunct ",") (fun _ => ?_) (.pure _)
    exact (ih (by omega)).bind fun _ _ => .pure _

theorem progress_parameterList : Progress N r 0 parameterList := by
  refine .eats (eats_eatPunct "(") (fun _ => .looks (looks_isPunctAt 0 ")") fun _ => ?_) (.pure [])
  refine .ite (fun _ => .looks (Looks.pure _) fun params => ?_) fun _ => .remaining fun n _ => ?_
  · exact (progress_expectPunct ")").bind fun _ _ => .pure params
  · refine (progress_parameters (Nat.le_refl n)).bind fun _ params => ?_
    exact (progress_expectPunct ")").bind fun _ _ => .pure params

theorem progress_returnType (isFunction : Bool) (pos : Position) :
    Progress N r 0 (returnType isFunction pos) := by
  refine .ite (fun _ => .looks looks_position fun here => ?_) fun _ => .pure _
  exact .eats (eats_eatWord "as") (fun _ => progress_typeUse.weaken (Nat.zero_le 1)) (.pure _)

theorem progress_method {access : Option Access} {isStatic : Bool} {pos : Position} :
    Progress N r 1 (method access isStatic pos) := by
  refine .looks (looks_isWordAt 0 "function") fun isFunction => ?_
  refine progress_advance_any.bind fun _ _ => progress_identifier.bind fun _ name => ?_
  refine progress_parameterList.bind fun _ params => ?_
  refine (progress_returnType isFunction pos).bind fun _ ret => ?_
  refine progress_endOfStatement.bind fun _ _ => .depthBound fun n _ => ?_
  refine ((statementDepth _).statements (by omega)).bind fun _ body => ?_
  refine .looks looks_position fun endPos => (progress_expectEnd _ pos).bind fun _ _ => ?_
  exact progress_endOfStatement.bind fun _ _ => .pure _

theorem progress_fields {access : Option Access} {isStatic : Bool} {n : Nat} (hn : r ≤ n) :
    Progress N r 1 (fields access isStatic n) := by
  induction n generalizing N r with
  | zero => exact .nothing hn
  | succ n ih =>
    refine .looks looks_position fun pos => progress_declarator.bind fun _ d => ?_
    refine .eats (eats_eatPunct ",") (fun _ => ?_) (.pure _)
    exact (ih (by omega)).bind fun _ _ => .pure _

/-- The depth that the parsers of types need with `r` lexemes ahead. -/
structure TypeDepth (depth : Nat) : Prop where
  typeDeclaration : ∀ {N r namespace_ access pos}, 16 * r + 1 ≤ depth →
    Progress N r 1 (VisualBasic.typeDeclaration namespace_ access pos depth)
  members : ∀ {N r isModule ms}, 16 * r + 2 ≤ depth →
    Progress N r 0 (VisualBasic.members isModule depth ms)

theorem typeDepth (depth : Nat) : TypeDepth depth := by
  induction depth with
  | zero => exact ⟨fun h => by omega, fun h => by omega⟩
  | succ depth ih =>
    refine ⟨fun hdepth => ?_, fun hdepth => ?_⟩
    · rw [typeDeclaration]
      refine .looks (looks_isWordAt 0 "module") fun isModule => ?_
      refine progress_advance_any.bind fun _ _ => progress_identifier.bind fun _ name => ?_
      refine progress_endOfStatement.bind fun _ _ => (ih.members (by omega)).bind fun _ ms => ?_
      refine (progress_expectEnd _ _).bind fun _ _ => ?_
      exact progress_endOfStatement.bind fun _ _ => .pure _
    · rw [members]
      refine progress_skipNewlines.bind fun _ _ => ?_
      refine .looks looks_atEof fun _ => .looks (looks_isWordAt 0 "end") fun _ => ?_
      refine .ite (fun _ => .pure _) fun _ => .looks looks_position fun pos => ?_
      refine progress_modifiers.bind fun _ _ => .looks (looks_isWordAt 0 "class") fun _ => ?_
      refine .ite (fun _ => ?_) fun _ => ?_
      · exact (ih.typeDeclaration (by omega)).bind fun _ _ => ih.members (by omega)
      refine .looks (looks_isWordAt 0 "sub") fun _ => .looks (looks_isWordAt 0 "function") fun _ => ?_
      refine .ite (fun _ => progress_method.bind fun _ _ => ih.members (by omega)) fun _ => ?_
      refine (Progress.of_eats (eats_eatWord "dim")).bind fun _ _ => .remaining fun n _ => ?_
      refine (progress_fields (Nat.le_refl n)).bind fun _ _ => ?_
      exact progress_endOfStatement.bind fun _ _ => ih.members (by omega)

theorem progress_importStatements (n : Nat) : Progress N r 0 (importStatements n) := by
  induction n generalizing N r with
  | zero => exact .pure []
  | succ n ih =>
    refine .looks looks_position fun pos => .eats (eats_eatWord "imports") (fun _ => ?_) (.pure [])
    refine progress_qualifiedName.bind fun _ _ => progress_endOfStatement.bind fun _ _ => ?_
    exact progress_skipNewlines.bind fun _ _ => ih.bind fun _ _ => .pure _

/-- A namespace or a type with what follows it. -/
theorem progress_declaration {namespace_ : String} {opened : Option Position}
    {types : List TypeDecl} (hdepth : 16 * r + 1 ≤ depth + 1)
    (ih : ∀ {n namespace_ opened types}, 16 * n + 1 ≤ depth →
      Progress Any n 0 (declarations depth namespace_ opened types)) :
    Progress N r 0 (do
      let pos ← position
      if ← eatWord "namespace" then
        let name ← qualifiedName
        endOfStatement
        let full := if namespace_.isEmpty then name else namespace_ ++ "." ++ name
        let types ← declarations depth full (some pos) types
        declarations depth namespace_ opened types
      else
        let (access, _) ← modifiers
        unless (← isWord "module") || (← isWord "class") do fail pos .topLevelExpected
        let declared ← typeDeclaration namespace_ access pos (← depthBound)
        declarations depth namespace_ opened (types ++ [declared])) := by
  refine .looks looks_position fun pos => .eats (eats_eatWord "namespace") (fun _ => ?_) ?_
  · refine progress_qualifiedName.bind fun _ name => progress_endOfStatement.bind fun _ _ => ?_
    exact (ih (by omega)).bind fun _ _ => ih (by omega)
  · refine progress_modifiers.bind fun _ _ => .looks (looks_isWordAt 0 "module") fun _ => ?_
    refine .looks (looks_isWordAt 0 "class") fun _ => ?_
    refine .ite (fun _ => ?_) fun _ => .fail_bind fun _ => rfl
    refine .depthBound fun n _ => ((typeDepth _).typeDeclaration (by omega)).bind fun _ _ => ?_
    exact ih (by omega)

theorem progress_declarations {namespace_ : String} {opened : Option Position}
    {types : List TypeDecl} (hdepth : 16 * r + 1 ≤ depth) :
    Progress N r 0 (declarations depth namespace_ opened types) := by
  induction depth generalizing N r namespace_ opened types with
  | zero => omega
  | succ depth ih =>
    rw [declarations]
    refine progress_skipNewlines.bind fun _ _ => .looks looks_atEof fun _ => ?_
    cases opened with
    | none => exact .ite (fun _ => .pure types) fun _ => progress_declaration hdepth ih
    | some pos =>
      refine .ite (fun _ => .fail fun _ => rfl) fun _ => ?_
      refine .looks (looks_isWordAt 0 "end") fun _ => .ite (fun _ => ?_) fun _ => ?_
      · refine (progress_expectEnd "Namespace" pos).bind fun _ _ => ?_
        exact progress_endOfStatement.bind fun _ _ => .pure types
      · exact progress_declaration hdepth ih

theorem progress_compilationUnit : Progress N r 0 compilationUnit := by
  refine progress_skipNewlines.bind fun _ _ => .looks looks_remaining fun n => ?_
  refine (progress_importStatements n).bind fun _ imports => .depthBound fun n _ => ?_
  exact (progress_declarations (by omega)).bind fun _ _ => .pure _

end CilScope.Source.VisualBasic
