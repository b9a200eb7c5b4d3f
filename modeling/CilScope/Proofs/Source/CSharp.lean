import CilScope.Proofs.Source.Expression

/-!
# C# programs are read within their depth

Statements nest in blocks, classes in classes and namespaces, and every nesting reads a lexeme, so
the depths that are started with are enough. A list with commas never has more elements than there
are lexemes.
-/

namespace CilScope.Source.CSharp

open CilScope.Source.Parser

variable {N : Lexeme → Prop} {r depth : Nat}

/-! ### Statements without bodies -/

theorem progress_expectSemicolon : Progress N r 0 expectSemicolon :=
  .eats (eats_eatPunct ";") (fun _ => .pure ())
    (.looks looks_previousStop fun _ => .report _ _)

theorem progress_modifiersFrom (n : Nat) (access : Option Access) (isStatic : Bool) :
    Progress N r 0 (modifiersFrom n access isStatic) := by
  induction n generalizing N r access isStatic with
  | zero => exact .pure _
  | succ n ih =>
    refine .lexeme fun t _ => ?_
    cases t with
    | word w =>
      refine .ite (fun _ => progress_advance_any.bind fun _ _ => ih _ _) fun _ => ?_
      split
      · exact progress_advance_any.bind fun _ _ => ih _ _
      · exact .pure _
    | _ => exact .pure _

theorem progress_modifiers : Progress N r 0 modifiers :=
  .looks looks_remaining fun _ => progress_modifiersFrom _ _ _

theorem looks_typeNameEnd (steps n : Nat) : Looks (typeNameEnd steps n) := by
  induction steps generalizing n with
  | zero => exact Looks.pure n
  | succ steps ih =>
    refine (looks_isPunctAt _ _).bind fun _ => (looks_isAnyWordAt _).bind fun _ => ?_
    refine Looks.ite (ih _) ?_
    refine (looks_isPunctAt _ _).bind fun _ => (looks_isPunctAt _ _).bind fun _ => ?_
    exact Looks.ite (ih _) (Looks.pure n)

theorem looks_startsLocal : Looks startsLocal := by
  refine looks_typeKeyword?.bind fun type => ?_
  cases type with
  | some type => exact Looks.pure _
  | none =>
    refine (looks_isIdentifierAt 0).bind fun _ => Looks.ite ?_ (Looks.pure false)
    refine looks_remaining.bind fun n => (looks_typeNameEnd n 1).bind fun _ => ?_
    exact looks_isIdentifierAt _

theorem progress_initializer : Progress N r 0 initializer :=
  .eats (eats_eatPunct "=") (fun _ => progress_expression.bind fun _ _ => .pure _) (.pure none)

theorem progress_declarators (type : Option TypeUse) {n : Nat} (hn : r ≤ n) :
    Progress N r 1 (declarators type n) := by
  induction n generalizing N r with
  | zero => exact .nothing hn
  | succ n ih =>
    refine .looks looks_position fun _ => progress_identifier.bind fun _ name => ?_
    refine progress_initializer.bind fun _ init => ?_
    refine .eats (eats_eatPunct ",") (fun _ => ?_) (.pure _)
    exact (ih (by omega)).bind fun _ _ => .pure _

theorem progress_localDeclaration : Progress N r 1 localDeclaration := by
  refine .looks (looks_isWordAt 0 "var") fun _ => .looks (looks_isAnyWordAt 1) fun _ => ?_
  refine .ite (fun _ => progress_advance_any.bind fun _ _ => ?_) fun _ => ?_
  · refine (Progress.pure none).bind fun _ type => ?_
    exact .remaining fun n _ => progress_declarators type (Nat.le_refl n)
  · refine progress_typeUse.map.bind fun _ type => ?_
    exact .remaining fun n _ => (progress_declarators type (Nat.le_refl n)).weaken (Nat.zero_le 1)

theorem progress_simpleStatement : Progress N r 1 simpleStatement := by
  refine .looks looks_position fun pos => ?_
  refine .eats (eats_eatPunct "++") (fun _ => progress_unaryExpression.bind fun _ _ => .pure _) ?_
  refine .eats (eats_eatPunct "--") (fun _ => progress_unaryExpression.bind fun _ _ => .pure _) ?_
  refine progress_expression.bind fun _ target => ?_
  refine .eats (eats_eatPunct "++") (fun _ => .pure _) ?_
  refine .eats (eats_eatPunct "--") (fun _ => .pure _) (.lexeme fun t _ => ?_)
  dsimp only
  split
  · exact progress_advance_any.bind fun _ _ => progress_expression.bind fun _ _ => .pure _
  · exact .ite (fun _ => .pure _) fun _ => (Progress.report _ _).bind fun _ _ => .pure _

theorem progress_parenthesized : Progress N r 1 parenthesized := by
  refine (progress_expectPunct "(").bind fun _ _ => progress_expression.bind fun _ e => ?_
  exact (progress_expectPunct ")").bind fun _ _ => .pure e

theorem progress_valueAndSemicolon : Progress N r 0 valueAndSemicolon := by
  refine .looks (looks_isPunctAt 0 ";") fun _ => ?_
  refine .ite_bind (.pure none) (progress_expression.map.weaken (Nat.zero_le 1)) fun _ value => ?_
  exact progress_expectSemicolon.bind fun _ _ => .pure value

theorem progress_catchHead (pos : Position) : Progress N r 0 (catchHead pos) := by
  refine .eats (eats_eatPunct "(") (fun _ => progress_typeUse.bind fun _ type => ?_) (.pure _)
  refine .looks (looks_isPunctAt 0 ")") fun _ => ?_
  refine .ite_bind (.pure none) (progress_identifier.map.weaken (Nat.zero_le 1)) fun _ var => ?_
  exact (progress_expectPunct ")").bind fun _ _ => .pure _

theorem progress_forInit : Progress N r 0 forInit := by
  refine .looks (looks_isPunctAt 0 ";") fun _ => .ite (fun _ => .pure []) fun _ => ?_
  refine .looks looks_startsLocal fun _ => ?_
  exact .ite (fun _ => progress_localDeclaration.weaken (Nat.zero_le 1))
    fun _ => progress_simpleStatement.bind fun _ _ => .pure _

/-! ### Blocks -/

/-- The depth that the parsers of statements need with `r` lexemes ahead. -/
structure StatementDepth (depth : Nat) : Prop where
  block : ∀ {N r}, 16 * r + 1 ≤ depth → Progress N r 1 (CSharp.block depth)
  statement : ∀ {N r}, 16 * r + 2 ≤ depth → Progress N r 1 (CSharp.statement depth)
  statements : ∀ {N r}, 16 * r + 3 ≤ depth → Progress N r 1 (CSharp.statements depth)
  embedded : ∀ {N r}, 16 * r + 3 ≤ depth → Progress N r 1 (CSharp.embedded depth)

namespace StatementDepth

theorem zero : StatementDepth 0 where
  block h := by omega
  statement h := by omega
  statements h := by omega
  embedded h := by omega

theorem block_succ (h : StatementDepth depth) (hdepth : 16 * r + 1 ≤ depth + 1) :
    Progress N r 1 (CSharp.block (depth + 1)) := by
  rw [CSharp.block]
  exact (progress_expectPunct _).bind fun _ _ => (h.statements (by omega)).weaken (Nat.zero_le 1)

theorem statements_succ (h : StatementDepth depth) (hdepth : 16 * r + 3 ≤ depth + 1) :
    Progress N r 1 (CSharp.statements (depth + 1)) := by
  rw [CSharp.statements]
  refine .looks looks_position fun pos => .eats (eats_eatPunct _) (fun _ => .pure _) ?_
  refine .looks looks_atEof fun _ => .ite (fun _ => .fail_bind fun _ => rfl) fun _ => ?_
  refine (h.statement (by omega)).bind fun _ first => ?_
  exact ((h.statements (by omega)).bind fun _ _ => .pure _).weaken (Nat.zero_le 1)

theorem embedded_succ (h : StatementDepth depth) (hdepth : 16 * r + 3 ≤ depth + 1) :
    Progress N r 1 (CSharp.embedded (depth + 1)) := by
  rw [CSharp.embedded]
  refine .looks (looks_isPunctAt 0 _) fun _ => .ite (fun _ => ?_) fun _ => h.statement (by omega)
  exact .looks looks_position fun pos => (h.block (by omega)).bind fun _ _ => .pure _

/-- A `for` loop behind its keyword. -/
theorem for_ (h : StatementDepth depth) (hdepth : 16 * r + 3 ≤ depth) (pos : Position) :
    Progress N r 0 (do
      expectPunct "("
      let init ← forInit
      expectPunct ";"
      let cond ← if ← isPunct ";" then pure none else some <$> expression
      expectPunct ";"
      let step ← if ← isPunct ")" then pure none else some <$> simpleStatement
      expectPunct ")"
      let body ← CSharp.embedded depth
      return [Stmt.block pos (init ++ [.while_ pos .for_ cond body step])]) := by
  refine (progress_expectPunct "(").bind fun _ _ => progress_forInit.bind fun _ init => ?_
  refine (progress_expectPunct ";").bind fun _ _ => .looks (looks_isPunctAt 0 ";") fun _ => ?_
  refine .ite_bind (.pure none) (progress_expression.map.weaken (Nat.zero_le 1)) fun _ cond => ?_
  refine (progress_expectPunct ";").bind fun _ _ => .looks (looks_isPunctAt 0 ")") fun _ => ?_
  refine .ite_bind (.pure none) (progress_simpleStatement.map.weaken (Nat.zero_le 1))
    fun _ step => ?_
  refine (progress_expectPunct ")").bind fun _ _ => ?_
  exact (h.embedded (by omega)).bind fun _ _ => .pure _

/-- A `try` statement behind its keyword. -/
theorem try_ (h : StatementDepth depth) (hdepth : 16 * r + 1 ≤ depth) (pos : Position) :
    Progress N r 0 (do
      let (body, _) ← CSharp.block depth
      let catchPos ← position
      let handler ← if ← eatWord "catch" then do
          let head ← catchHead catchPos
          pure (some (head, (← CSharp.block depth).1))
        else pure none
      let finally_ ←
        if ← eatWord "finally" then do pure (some (← CSharp.block depth).1) else pure none
      if handler.isNone && finally_.isNone then fail (← position) .expectedOpenBrace
      return [Stmt.try_ pos body handler finally_]) := by
  refine (h.block (by omega)).bind fun _ body => .looks looks_position fun catchPos => ?_
  extract_lets last
  have hlast : ∀ {M n} (handler), n ≤ r → Progress M n 0 (last handler) := fun handler hn => by
    dsimp only [last]
    have hstop : ∀ {M n} (finally_ : Option (List Stmt)), Progress M n 0 (do
        if handler.isNone && finally_.isNone then fail (← position) .expectedOpenBrace
        return [Stmt.try_ pos body.1 handler finally_]) := fun _ =>
      .ite (fun _ => .looks looks_position fun _ => .fail_bind fun _ => rfl) fun _ => .pure _
    refine .eats (eats_eatWord "finally") (fun _ => (h.block (by omega)).bind fun _ _ => ?_) ?_
    · exact .looks (Looks.pure _) hstop
    · exact .looks (Looks.pure _) hstop
  refine .eats (eats_eatWord "catch") (fun _ => ?_) ?_
  · refine (progress_catchHead catchPos).bind fun _ head => ?_
    refine (h.block (by omega)).bind fun _ _ => .looks (Looks.pure _) fun _ => ?_
    exact hlast _ (by omega)
  · exact .looks (Looks.pure _) fun _ => hlast _ (by omega)

theorem statement_succ (h : StatementDepth depth) (hdepth : 16 * r + 2 ≤ depth + 1) :
    Progress N r 1 (CSharp.statement (depth + 1)) := by
  rw [CSharp.statement]
  refine .looks looks_position fun pos => .lexeme fun t _ => ?_
  split
  · exact (h.block (by omega)).bind fun _ _ => .pure _
  · exact .read nofun fun _ _ => .pure _
  · refine .read nofun fun _ _ => progress_parenthesized.bind fun _ cond => ?_
    refine (h.embedded (by omega)).bind fun _ then_ => ?_
    exact .optional (eats_eatWord "else") (fun _ => h.embedded (by omega)) fun _ _ => .pure _
  · refine .read nofun fun _ _ => progress_parenthesized.bind fun _ cond => ?_
    exact (h.embedded (by omega)).bind fun _ _ => .pure _
  · refine .read nofun fun _ _ => (h.embedded (by omega)).bind fun _ body => ?_
    refine .eats (eats_eatWord "while") (fun _ => ?_) .unexpected_bind
    refine progress_parenthesized.bind fun _ cond => ?_
    exact progress_expectSemicolon.bind fun _ _ => .pure _
  · exact .read nofun fun _ _ => h.for_ (by omega) pos
  · exact .read nofun fun _ _ => progress_expectSemicolon.bind fun _ _ => .pure _
  · exact .read nofun fun _ _ => progress_expectSemicolon.bind fun _ _ => .pure _
  · exact .read nofun fun _ _ => progress_valueAndSemicolon.bind fun _ _ => .pure _
  · exact .read nofun fun _ _ => progress_valueAndSemicolon.bind fun _ _ => .pure _
  · exact .read nofun fun _ _ => h.try_ (by omega) pos
  · refine .looks looks_startsLocal fun _ => ?_
    refine .ite (fun _ => progress_localDeclaration.bind fun _ _ => ?_) fun _ => ?_
    · exact progress_expectSemicolon.bind fun _ _ => .pure _
    · refine progress_simpleStatement.bind fun _ _ => .looks (Looks.pure _) fun _ => ?_
      exact progress_expectSemicolon.bind fun _ _ => .pure _

theorem succ (h : StatementDepth depth) : StatementDepth (depth + 1) where
  block := h.block_succ
  statement := h.statement_succ
  statements := h.statements_succ
  embedded := h.embedded_succ

end StatementDepth

theorem statementDepth (depth : Nat) : StatementDepth depth := by
  induction depth with
  | zero => exact .zero
  | succ depth ih => exact ih.succ

/-! ### Declarations -/

theorem progress_parameters {n : Nat} (hn : r ≤ n) : Progress N r 1 (parameters n) := by
  induction n generalizing N r with
  | zero => exact .nothing hn
  | succ n ih =>
    refine progress_typeUse.bind fun _ type => .looks looks_position fun pos => ?_
    refine progress_identifier.bind fun _ name => ?_
    refine .eats (eats_eatPunct ",") (fun _ => ?_) (.pure _)
    exact (ih (by omega)).bind fun _ _ => .pure _

theorem progress_method {name : String} {ret : TypeUse} {access : Option Access} {isStatic : Bool}
    {pos : Position} : Progress N r 1 (method name ret access isStatic pos) := by
  refine (progress_expectPunct "(").bind fun _ _ => .looks (looks_isPunctAt 0 ")") fun _ => ?_
  extract_lets body
  have hbody : ∀ {M n} (params), Progress M n 0 (body params) := fun params => by
    refine (progress_expectPunct ")").bind fun _ _ => .depthBound fun n _ => ?_
    exact ((statementDepth _).block (by omega)).bind fun _ _ => .pure _
  refine .ite (fun _ => .looks (Looks.pure _) fun _ => hbody _) fun _ => ?_
  exact .remaining fun n _ => (progress_parameters (Nat.le_refl n)).bind fun _ _ => hbody _

theorem progress_fields {type : TypeUse} {access : Option Access} {isStatic : Bool} {n : Nat}
    {name : String} {pos : Position} (hn : r ≤ n) :
    Progress N r 0 (fields type access isStatic n name pos) := by
  induction n generalizing N r name pos with
  | zero => exact .nothing hn
  | succ n ih =>
    refine progress_initializer.bind fun _ init => ?_
    refine .eats (eats_eatPunct ",") (fun _ => .looks looks_position fun pos => ?_) (.pure _)
    refine progress_identifier.bind fun _ name => ?_
    exact (ih (by omega)).bind fun _ _ => .pure _

theorem progress_member {access : Option Access} {isStatic : Bool} {pos : Position}
    {ms : Members} : Progress N r 1 (member access isStatic pos ms) := by
  refine .looks looks_typeKeyword? fun _ => .looks (looks_isIdentifierAt 0) fun _ => ?_
  refine .ite (fun _ => ?_) fun _ => .looks looks_describe fun _ => .fail_bind fun _ => rfl
  refine progress_typeUse.bind fun _ type => .looks looks_position fun pos => ?_
  refine progress_identifier.bind fun _ name => .looks (looks_isPunctAt 0 "(") fun _ => ?_
  refine .ite (fun _ => progress_method.bind fun _ _ => .pure _) fun _ => ?_
  refine .remaining fun n _ => (progress_fields (Nat.le_refl n)).bind fun _ _ => ?_
  exact progress_expectSemicolon.bind fun _ _ => .pure _

/-- The depth that the parsers of classes need with `r` lexemes ahead. -/
structure ClassDepth (depth : Nat) : Prop where
  typeDeclaration : ∀ {N r namespace_ access isStatic pos}, 16 * r + 1 ≤ depth →
    Progress N r 1 (CSharp.typeDeclaration namespace_ access isStatic pos depth)
  members : ∀ {N r ms}, 16 * r + 2 ≤ depth → Progress N r 1 (CSharp.members depth ms)

theorem classDepth (depth : Nat) : ClassDepth depth := by
  induction depth with
  | zero => exact ⟨fun h => by omega, fun h => by omega⟩
  | succ depth ih =>
    refine ⟨fun hdepth => ?_, fun hdepth => ?_⟩
    · rw [typeDeclaration]
      refine progress_advance_any.bind fun _ _ => progress_identifier.bind fun _ name => ?_
      refine (progress_expectPunct _).bind fun _ _ => ?_
      exact (ih.members (by omega)).bind fun _ ms => .pure _
    · rw [members]
      refine .eats (eats_eatPunct _) (fun _ => .pure _) (.looks looks_position fun pos => ?_)
      refine .looks looks_atEof fun _ => .ite (fun _ => .fail_bind fun _ => rfl) fun _ => ?_
      refine progress_modifiers.bind fun _ _ => .looks (looks_isWordAt 0 "class") fun _ => ?_
      refine .ite (fun _ => ?_) fun _ => ?_
      · refine (ih.typeDeclaration (by omega)).bind fun _ inner => ?_
        exact (ih.members (by omega)).weaken (Nat.zero_le 1)
      · refine progress_member.bind fun _ ms => ?_
        exact (ih.members (by omega)).weaken (Nat.zero_le 1)

theorem progress_usingDirective (pos : Position) : Progress N r 1 (usingDirective pos) :=
  progress_qualifiedName.bind fun _ _ => progress_expectSemicolon.bind fun _ _ => .pure _

theorem progress_usingDirectives (n : Nat) : Progress N r 0 (usingDirectives n) := by
  induction n generalizing N r with
  | zero => exact .pure []
  | succ n ih =>
    refine .looks looks_position fun pos => .eats (eats_eatWord "using") (fun _ => ?_) (.pure [])
    exact (progress_usingDirective pos).bind fun _ _ => ih.bind fun _ _ => .pure _

/-- A namespace or a class with what follows it. -/
theorem progress_declaration {namespace_ : String} {nested : Bool} {unit : CompilationUnit}
    (pos : Position) (hdepth : 16 * r + 1 ≤ depth + 1)
    (ih : ∀ {n namespace_ nested unit}, 16 * n + 1 ≤ depth →
      Progress Any n 0 (declarations depth namespace_ nested unit)) :
    Progress N r 0 (do
      if ← eatWord "namespace" then
        let name ← qualifiedName
        let full := if namespace_.isEmpty then name else namespace_ ++ "." ++ name
        expectPunct "\x7b"
        let unit ← declarations depth full true unit
        expectPunct "\x7d"
        declarations depth namespace_ nested unit
      else
        let (access, isStatic) ← modifiers
        unless ← isWord "class" do fail pos .topLevelExpected
        let declared ← typeDeclaration namespace_ access isStatic pos (← depthBound)
        declarations depth namespace_ nested { unit with types := unit.types ++ [declared] }) := by
  refine .eats (eats_eatWord "namespace") (fun _ => progress_qualifiedName.bind fun _ name => ?_) ?_
  · refine (progress_expectPunct _).bind fun _ _ => (ih (by omega)).bind fun _ unit => ?_
    exact (progress_expectPunct _).bind fun _ _ => ih (by omega)
  · refine progress_modifiers.bind fun _ _ => .looks (looks_isWordAt 0 "class") fun _ => ?_
    refine .ite (fun _ => ?_) fun _ => .fail_bind fun _ => rfl
    refine .depthBound fun n _ => ((classDepth _).typeDeclaration (by omega)).bind fun _ _ => ?_
    exact ih (by omega)

theorem progress_declarations {namespace_ : String} {nested : Bool} {unit : CompilationUnit}
    (hdepth : 16 * r + 1 ≤ depth) :
    Progress N r 0 (declarations depth namespace_ nested unit) := by
  induction depth generalizing N r namespace_ nested unit with
  | zero => omega
  | succ depth ih =>
    rw [declarations]
    cases nested with
    | false =>
      simp only [Bool.false_eq_true, if_false]
      refine .looks looks_position fun pos => .looks looks_atEof fun _ => ?_
      exact .ite (fun _ => .pure unit) fun _ => progress_declaration pos hdepth ih
    | true =>
      simp only [if_true]
      refine .looks (looks_isPunctAt 0 _) fun _ => .ite (fun _ => .pure unit) fun _ => ?_
      refine .looks looks_position fun pos => .looks looks_atEof fun _ => ?_
      refine .ite (fun _ => .fail_bind fun _ => rfl) fun _ => ?_
      refine .eats (eats_eatWord "using") (fun _ => ?_) (progress_declaration pos hdepth ih)
      exact (progress_usingDirective pos).bind fun _ _ => ih (by omega)

theorem progress_compilationUnit : Progress N r 0 compilationUnit := by
  refine .looks looks_remaining fun n => (progress_usingDirectives n).bind fun _ imports => ?_
  exact .depthBound fun n _ => progress_declarations (by omega)

end CilScope.Source.CSharp
