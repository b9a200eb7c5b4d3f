import CilScope.Proofs.Spelling.Expression

/-!
# Reading Visual Basic in another spelling

Keywords, the names of constructs behind `End` and the variable behind `Next` are compared without regard
to case, and the syntax tree takes its names from the words. So the tree that is read from respelled
lexemes is the respelled tree (`mirrors_compilationUnit`).
-/

namespace CilScope.Source.VisualBasic

open CilScope.Source.Parser

variable {f : String → String} {depth : Nat}

/-! ### Line ends and keywords -/

theorem mirrors_skipNewlinesFrom (n : Nat) : Mirrors f (skipNewlinesFrom n) (skipNewlinesFrom n) id := by
  induction n with
  | zero => exact .pure rfl
  | succ n ih =>
    refine (mirrors_lexemeAt 0).bind fun t => ?_
    simp only [Lexeme.respell_eq_iff (u := .newline) nofun]
    exact .ite (.bind mirrors_advance fun _ => ih) (.pure rfl)

theorem mirrors_skipNewlines : Mirrors f skipNewlines skipNewlines id :=
  .same mirrors_remaining mirrors_skipNewlinesFrom

theorem mirrors_endOfStatement : Mirrors f endOfStatement endOfStatement id := by
  refine (mirrors_lexemeAt 0).bind fun t => ?_
  cases t with
  | newline => exact .bind mirrors_advance fun _ => .pure rfl
  | eof => exact .pure rfl
  | word | int | str | punct => exact .same mirrors_position fun pos => .fail pos rfl

theorem mirrors_atLineEnd : Mirrors f atLineEnd atLineEnd id := by
  refine (mirrors_lexemeAt 0).bind fun t => ?_
  cases t <;> exact .pure rfl

theorem mirrors_atStatementEnd : Mirrors f atStatementEnd atStatementEnd id :=
  .same mirrors_atLineEnd fun _ => (mirrors_isWordAt 0 "else").same fun _ => .pure rfl

theorem mirrors_atBlockEnd : Mirrors f atBlockEnd atBlockEnd id := by
  refine .spelling fun h => (mirrors_lexemeAt 0).bind fun t => ?_
  cases t with
  | word w => exact .pure (List.any_congr rfl fun keyword => h.same w keyword)
  | int | str | punct | newline | eof => exact .pure rfl

theorem mirrors_expectWord (keyword : String) :
    Mirrors f (expectWord keyword) (expectWord keyword) id :=
  (mirrors_eatWord keyword).same fun _ => .ite (.pure rfl) mirrors_unexpected

theorem mirrors_expectEnd (construct : String) (opened : Position) :
    Mirrors f (expectEnd construct opened) (expectEnd construct opened) id := by
  refine (mirrors_isWordAt 0 "end").same fun _ => (mirrors_isWordAt 1 construct).same fun _ => ?_
  refine .ite (.bind mirrors_advance fun _ => ?_) (.fail opened rfl)
  exact .bind mirrors_advance fun _ => .pure rfl

theorem mirrors_modifiersFrom (n : Nat) (access : Option Access) (shared : Bool) :
    Mirrors f (modifiersFrom n access shared) (modifiersFrom n access shared) id := by
  induction n generalizing access shared with
  | zero => exact .pure rfl
  | succ n ih =>
    refine .spelling fun h => (mirrors_eatWord "shared").same fun _ => .ite (ih _ _) ?_
    refine (mirrors_lexemeAt 0).bind fun t => ?_
    cases t with
    | word w =>
      dsimp only [Lexeme.respell]
      simp only [h.same w]
      split
      · exact .bind mirrors_advance fun _ => ih _ _
      · exact .pure rfl
    | int | str | punct | newline | eof => exact .pure rfl

theorem mirrors_modifiers : Mirrors f modifiers modifiers id :=
  .same mirrors_remaining fun n => mirrors_modifiersFrom n none false

/-! ### Statements without bodies -/

/-- The declarator with its names respelled. -/
def Declarator.respell (f : String → String) (d : Declarator) : Declarator :=
  { name := f d.name, type := d.type.map (·.respell f), init := d.init.map (·.respell f) }

theorem mirrors_declarator : Mirrors f declarator declarator (Declarator.respell f) := by
  refine .bind mirrors_identifier fun name => ?_
  have hrest (isArray : Bool) :
      let reading (name : String) : Parser Declarator := do
        let type ← if ← eatWord "as" then some <$> typeUse else pure none
        let pos ← position
        let type := if isArray then
            let element := type.getD ⟨.object, pos⟩
            some ⟨.array element.name, element.pos⟩
          else type
        let init ← if ← eatPunct "=" then some <$> expression else pure none
        return { name, type, init }
      Mirrors f (reading name) (reading (f name)) (Declarator.respell f) := by
    refine .optional (mirrors_eatWord "as") mirrors_typeUse fun type => ?_
    refine .same mirrors_position fun pos => ?_
    refine .optional (mirrors_eatPunct "=") mirrors_expression fun init => .pure ?_
    cases isArray <;> cases type <;> rfl
  refine (mirrors_isPunctAt 0 "(").same fun _ => (mirrors_isPunctAt 1 ")").same fun _ => ?_
  refine .ite (.bind mirrors_advance fun _ => .bind mirrors_advance fun _ => ?_) (hrest _)
  exact hrest _

theorem mirrors_locals (n : Nat) : Mirrors f (locals n) (locals n) (Stmt.respellAll f) := by
  induction n with
  | zero => exact .abort
  | succ n ih =>
    refine .same mirrors_position fun pos => .bind mirrors_declarator fun d => ?_
    exact (mirrors_eatPunct ",").same fun _ => .ite (ih.bind fun _ => .pure rfl) (.pure rfl)

theorem mirrors_loopKind? : Mirrors f loopKind? loopKind? id :=
  (mirrors_eatWord "for").same fun _ => .ite (.pure rfl) <|
  (mirrors_eatWord "while").same fun _ => .ite (.pure rfl) <|
  (mirrors_eatWord "do").same fun _ => .ite (.pure rfl) (.pure rfl)

theorem mirrors_loopTest :
    Mirrors f loopTest loopTest (Option.map fun test => (test.1.respell f, test.2)) :=
  (mirrors_eatWord "while").same fun _ => .ite (.bind mirrors_expression fun _ => .pure rfl) <|
  (mirrors_eatWord "until").same fun _ => .ite (.bind mirrors_expression fun _ => .pure rfl) (.pure rfl)

theorem asCall_respell (f : String → String) (e : Expr) :
    asCall (e.respell f) = (asCall e).respell f := by
  cases e <;> rfl

theorem isInvocation_respell (f : String → String) (e : Expr) :
    isInvocation (e.respell f) = isInvocation e := by
  cases e <;> rfl

theorem mirrors_simpleStatement : Mirrors f simpleStatement simpleStatement (Stmt.respell f) := by
  refine .same mirrors_position fun pos => .bind mirrors_operandExpression fun target => ?_
  have hcall : Mirrors f
      (do unless isInvocation target do report target.pos .notAStatement
          return Stmt.expr pos (asCall target))
      (do unless isInvocation (target.respell f) do report (target.respell f).pos .notAStatement
          return Stmt.expr pos (asCall (target.respell f))) (Stmt.respell f) := by
    rw [isInvocation_respell, asCall_respell, Expr.pos_respell]
    exact .ite (.pure rfl) ((Mirrors.report _ rfl).same fun _ => .pure rfl)
  refine (mirrors_lexemeAt 0).bind fun t => ?_
  cases t with
  | punct p =>
    dsimp only [Lexeme.respell]
    split
    · exact .bind mirrors_advance fun _ => .bind mirrors_expression fun _ => .pure rfl
    · exact hcall
  | word | int | str | newline | eof => exact hcall

theorem mirrors_optionalValue :
    Mirrors f optionalValue optionalValue (Option.map (Expr.respell f)) :=
  .same mirrors_atStatementEnd fun _ => .ite (.pure rfl) (.bind mirrors_expression fun _ => .pure rfl)

/-- The head of a loop with its names respelled. -/
def ForHead.respell (f : String → String) (h : ForHead) : ForHead :=
  { h with
    var := f h.var, type := h.type.map (·.respell f), from_ := h.from_.respell f
    limit := h.limit.respell f, step := h.step.map (·.respell f) }

theorem ForHead.loop_respell (f : String → String) (h : ForHead) (body : List Stmt) :
    (h.respell f).loop (Stmt.respellAll f body) = (h.loop body).respell f := by
  obtain ⟨opened, varPos, var, type, from_, limit, step⟩ := h
  have hdescending : (ForHead.respell f ⟨opened, varPos, var, type, from_, limit, step⟩).descending =
      (ForHead.mk opened varPos var type from_ limit step).descending := by
    cases step with
    | none => rfl
    | some e => cases e <;> rfl
  rw [loop, loop, hdescending]
  cases type <;> cases step <;> rfl

theorem mirrors_forHead (opened : Position) :
    Mirrors f (forHead opened) (forHead opened) (ForHead.respell f) := by
  refine .same mirrors_position fun varPos => .bind mirrors_identifier fun var => ?_
  refine .optional (mirrors_eatWord "as") mirrors_typeUse fun type => ?_
  refine (mirrors_expectPunct "=").same fun _ => .bind mirrors_expression fun from_ => ?_
  refine (mirrors_expectWord "to").same fun _ => .bind mirrors_expression fun limit => ?_
  refine .optional (mirrors_eatWord "step") mirrors_expression fun step => ?_
  exact .same mirrors_endOfStatement fun _ => .pure rfl

theorem mirrors_eatLoopVariable (var : String) :
    Mirrors f (eatLoopVariable var) (eatLoopVariable (f var)) id := by
  refine .spelling fun h => (mirrors_lexemeAt 0).bind fun t => ?_
  cases t with
  | word w =>
    dsimp only [Lexeme.respell]
    rw [h.sameName_congr (h.idem w) (h.idem var)]
    exact .ite (.bind mirrors_advance fun _ => .pure rfl) (.pure rfl)
  | int | str | punct | newline | eof => exact .pure rfl

theorem mirrors_catchHead (pos : Position) :
    Mirrors f (catchHead pos) (catchHead pos) (CatchHead.respell f) := by
  refine (mirrors_isIdentifierAt 0).same fun _ => .ite (.bind mirrors_identifier fun var => ?_) (.pure rfl)
  exact .optional (mirrors_eatWord "as") mirrors_typeUse fun _ => .pure rfl

/-! ### Blocks -/

theorem respellAll_append (f : String → String) (ss ts : List Stmt) :
    Stmt.respellAll f (ss ++ ts) = Stmt.respellAll f ss ++ Stmt.respellAll f ts := by
  rw [Stmt.respellAll_eq_map, Stmt.respellAll_eq_map, Stmt.respellAll_eq_map, List.map_append]

/-- The parsers of statements read respelled lexemes to respelled statements. -/
structure StatementMirror (f : String → String) (depth : Nat) : Prop where
  statement : Mirrors f (VisualBasic.statement depth) (VisualBasic.statement depth)
    (Stmt.respellAll f)
  statements : Mirrors f (VisualBasic.statements depth) (VisualBasic.statements depth)
    (Stmt.respellAll f)
  conditional : ∀ opened, Mirrors f (VisualBasic.conditional depth opened)
    (VisualBasic.conditional depth opened) (Stmt.respell f)
  doLoop : ∀ opened, Mirrors f (VisualBasic.doLoop depth opened) (VisualBasic.doLoop depth opened)
    (Stmt.respell f)
  tryBlock : ∀ opened, Mirrors f (VisualBasic.tryBlock depth opened)
    (VisualBasic.tryBlock depth opened) (Stmt.respell f)

namespace StatementMirror

theorem zero : StatementMirror f 0 where
  statement := .abort
  statements := .abort
  conditional _ := .abort
  doLoop _ := .abort
  tryBlock _ := .abort

theorem statements_succ (h : StatementMirror f depth) :
    Mirrors f (VisualBasic.statements (depth + 1)) (VisualBasic.statements (depth + 1))
      (Stmt.respellAll f) := by
  rw [VisualBasic.statements]
  refine .same mirrors_skipNewlines fun _ => .same mirrors_atBlockEnd fun _ => .ite (.pure rfl) ?_
  refine h.statement.bind fun first => .same mirrors_endOfStatement fun _ => ?_
  exact h.statements.bind fun rest => .pure (respellAll_append f first rest).symm

theorem conditional_succ (h : StatementMirror f depth) (opened : Position) :
    Mirrors f (VisualBasic.conditional (depth + 1) opened) (VisualBasic.conditional (depth + 1) opened)
      (Stmt.respell f) := by
  rw [VisualBasic.conditional]
  refine .bind mirrors_expression fun cond => (mirrors_expectWord "then").same fun _ => ?_
  refine .same mirrors_atLineEnd fun _ => .ite ?_ ?_
  · refine h.statement.bind fun then_ => .optional (mirrors_eatWord "else") h.statement fun else_ => ?_
    cases else_ <;> exact .pure rfl
  refine .same mirrors_endOfStatement fun _ => h.statements.bind fun then_ => ?_
  refine .same mirrors_position fun pos => (mirrors_eatWord "elseif").same fun _ => .ite ?_ ?_
  · exact (h.conditional pos).bind fun _ => .pure rfl
  refine (mirrors_eatWord "else").same fun _ => .ite (.same mirrors_endOfStatement fun _ => ?_) ?_
  · refine h.statements.bind fun else_ => ?_
    exact (mirrors_expectEnd "If" opened).same fun _ => .pure rfl
  · exact (mirrors_expectEnd "If" opened).same fun _ => .pure rfl

theorem doLoop_succ (h : StatementMirror f depth) (opened : Position) :
    Mirrors f (VisualBasic.doLoop (depth + 1) opened) (VisualBasic.doLoop (depth + 1) opened)
      (Stmt.respell f) := by
  rw [VisualBasic.doLoop]
  refine .bind mirrors_loopTest fun top => .same mirrors_endOfStatement fun _ => ?_
  refine h.statements.bind fun body => ?_
  refine (mirrors_eatWord "loop").same fun _ => .ite ?_ (.fail_bind opened rfl)
  refine .bind mirrors_loopTest fun bottom => ?_
  rcases top with _ | ⟨cond, until_⟩ <;> rcases bottom with _ | ⟨cond', until'⟩
  · exact .pure rfl
  · exact .pure rfl
  · refine .pure ?_
    cases until_
    · rfl
    · dsimp only
      rw [Expr.pos_respell]
      rfl
  · exact .same mirrors_position fun pos => .fail pos rfl

theorem tryBlock_succ (h : StatementMirror f depth) (opened : Position) :
    Mirrors f (VisualBasic.tryBlock (depth + 1) opened) (VisualBasic.tryBlock (depth + 1) opened)
      (Stmt.respell f) := by
  rw [VisualBasic.tryBlock]
  refine .same mirrors_endOfStatement fun _ => h.statements.bind fun body => ?_
  refine .same mirrors_position fun catchPos => ?_
  have hend (handler : Option (CatchHead × List Stmt)) (finally_ : Option (List Stmt)) :
      Mirrors f (do expectEnd "Try" opened; return Stmt.try_ opened body handler finally_)
        (do expectEnd "Try" opened
            return Stmt.try_ opened (Stmt.respellAll f body)
              (handler.map fun h => (h.1.respell f, Stmt.respellAll f h.2))
              (finally_.map (Stmt.respellAll f))) (Stmt.respell f) := by
    refine (mirrors_expectEnd "Try" opened).same fun _ => .pure ?_
    cases handler <;> cases finally_ <;> rfl
  have hfinally (handler : Option (CatchHead × List Stmt)) :
      let reading (body : List Stmt) (handler : Option (CatchHead × List Stmt)) : Parser Stmt := do
        let finally_ ← if ← eatWord "finally" then do
            endOfStatement
            pure (some (← VisualBasic.statements depth))
          else pure none
        expectEnd "Try" opened
        return .try_ opened body handler finally_
      Mirrors f (reading body handler) (reading (Stmt.respellAll f body)
        (handler.map fun h => (h.1.respell f, Stmt.respellAll f h.2))) (Stmt.respell f) := by
    refine (mirrors_eatWord "finally").same fun _ => .ite ?_ (hend handler none)
    refine .same mirrors_endOfStatement fun _ => h.statements.bind fun finally_ => ?_
    exact hend handler (some finally_)
  refine (mirrors_eatWord "catch").same fun _ => .ite ?_ (hfinally none)
  refine (mirrors_catchHead catchPos).bind fun head => .same mirrors_endOfStatement fun _ => ?_
  exact h.statements.bind fun handler => hfinally (some (head, handler))

theorem statement_succ (h : StatementMirror f depth) :
    Mirrors f (VisualBasic.statement (depth + 1)) (VisualBasic.statement (depth + 1))
      (Stmt.respellAll f) := by
  rw [VisualBasic.statement]
  refine .same mirrors_position fun pos => ?_
  refine (mirrors_eatWord "dim").same fun _ => .ite (.same mirrors_remaining mirrors_locals) ?_
  refine (mirrors_eatWord "if").same fun _ => .ite ?_ ?_
  · exact (h.conditional pos).bind fun _ => .pure rfl
  refine (mirrors_eatWord "while").same fun _ => .ite (.bind mirrors_expression fun cond => ?_) ?_
  · refine .same mirrors_endOfStatement fun _ => h.statements.bind fun body => ?_
    exact (mirrors_expectEnd "While" pos).same fun _ => .pure rfl
  refine (mirrors_eatWord "do").same fun _ => .ite ?_ ?_
  · exact (h.doLoop pos).bind fun _ => .pure rfl
  refine (mirrors_eatWord "for").same fun _ => .ite ((mirrors_forHead pos).bind fun head => ?_) ?_
  · refine h.statements.bind fun body => ?_
    refine (mirrors_eatWord "next").same fun _ => .ite ?_ (.fail_bind pos rfl)
    refine (mirrors_eatLoopVariable head.var).same fun _ => .pure ?_
    rw [head.loop_respell]
    rfl
  refine (mirrors_eatWord "exit").same fun _ => .ite (.same mirrors_loopKind? fun kind => ?_) ?_
  · cases kind with
    | some kind => exact .pure rfl
    | none =>
      refine (mirrors_eatWord "sub").same fun _ => .ite (.pure rfl) ?_
      exact (mirrors_eatWord "function").same fun _ => .ite (.pure rfl) mirrors_unexpected
  refine (mirrors_eatWord "continue").same fun _ => .ite (.same mirrors_loopKind? fun kind => ?_) ?_
  · cases kind with
    | some kind => exact .pure rfl
    | none => exact mirrors_unexpected
  refine (mirrors_eatWord "return").same fun _ => .ite ?_ ?_
  · exact .bind mirrors_optionalValue fun _ => .pure rfl
  refine (mirrors_eatWord "throw").same fun _ => .ite ?_ ?_
  · exact .bind mirrors_optionalValue fun _ => .pure rfl
  refine (mirrors_eatWord "try").same fun _ => .ite ?_ ?_
  · exact (h.tryBlock pos).bind fun _ => .pure rfl
  refine (mirrors_eatWord "call").same fun _ => .ite ?_ ?_
  · refine .bind mirrors_operandExpression fun e => .pure ?_
    rw [asCall_respell]
    rfl
  · exact .bind mirrors_simpleStatement fun _ => .pure rfl

theorem succ (h : StatementMirror f depth) : StatementMirror f (depth + 1) where
  statement := h.statement_succ
  statements := h.statements_succ
  conditional := h.conditional_succ
  doLoop := h.doLoop_succ
  tryBlock := h.tryBlock_succ

end StatementMirror

theorem statementMirror (f : String → String) (depth : Nat) : StatementMirror f depth := by
  induction depth with
  | zero => exact .zero
  | succ depth ih => exact ih.succ

/-! ### Declarations -/

theorem mirrors_parameters (n : Nat) :
    Mirrors f (parameters n) (parameters n) (List.map (Param.respell f)) := by
  induction n with
  | zero => exact .abort
  | succ n ih =>
    refine (mirrors_eatWord "byval").same fun _ => .same mirrors_position fun pos => ?_
    refine .bind mirrors_declarator fun d => (mirrors_eatPunct ",").same fun _ => ?_
    obtain ⟨name, type, init⟩ := d
    cases type <;> exact .ite (ih.bind fun _ => .pure rfl) (.pure rfl)

theorem mirrors_parameterList :
    Mirrors f parameterList parameterList (List.map (Param.respell f)) := by
  have hclose (params : List Param) : Mirrors f (do expectPunct ")"; return params)
      (do expectPunct ")"; return params.map (Param.respell f)) (List.map (Param.respell f)) :=
    (mirrors_expectPunct ")").same fun _ => .pure rfl
  refine (mirrors_eatPunct "(").same fun _ => .ite ?_ (.pure rfl)
  refine (mirrors_isPunctAt 0 ")").same fun _ => .ite (hclose []) ?_
  exact .same mirrors_remaining fun n => (mirrors_parameters n).bind hclose

theorem mirrors_returnType (isFunction : Bool) (pos : Position) :
    Mirrors f (returnType isFunction pos) (returnType isFunction pos) (TypeUse.respell f) := by
  refine .ite (.same mirrors_position fun here => ?_) (.pure rfl)
  exact (mirrors_eatWord "as").same fun _ => .ite mirrors_typeUse (.pure rfl)

theorem mirrors_method (access : Option Access) (isStatic : Bool) (pos : Position) :
    Mirrors f (method access isStatic pos) (method access isStatic pos) (MethodDecl.respell f) := by
  refine (mirrors_isWordAt 0 "function").same fun isFunction => ?_
  refine .bind mirrors_advance fun _ => .bind mirrors_identifier fun name => ?_
  refine .bind mirrors_parameterList fun params => ?_
  refine (mirrors_returnType isFunction pos).bind fun ret => .same mirrors_endOfStatement fun _ => ?_
  refine .same mirrors_depthBound fun depth => (statementMirror f depth).statements.bind fun body => ?_
  refine .same mirrors_position fun endPos => (mirrors_expectEnd _ pos).same fun _ => ?_
  exact .same mirrors_endOfStatement fun _ => .pure rfl

theorem mirrors_fields (access : Option Access) (isStatic : Bool) (n : Nat) :
    Mirrors f (fields access isStatic n) (fields access isStatic n) (List.map (FieldDecl.respell f)) := by
  induction n with
  | zero => exact .abort
  | succ n ih =>
    refine .same mirrors_position fun pos => .bind mirrors_declarator fun d => ?_
    refine (mirrors_eatPunct ",").same fun _ => ?_
    obtain ⟨name, type, init⟩ := d
    cases type <;> exact .ite (ih.bind fun _ => .pure rfl) (.pure rfl)

/-- The members with their names respelled. -/
def Members.respell (f : String → String) (ms : Members) : Members :=
  { fields := ms.fields.map (·.respell f), methods := ms.methods.map (·.respell f)
    nested := TypeDecl.respellAll f ms.nested }

theorem typesRespellAll_append (f : String → String) (ds es : List TypeDecl) :
    TypeDecl.respellAll f (ds ++ es) = TypeDecl.respellAll f ds ++ TypeDecl.respellAll f es := by
  rw [TypeDecl.respellAll_eq_map, TypeDecl.respellAll_eq_map, TypeDecl.respellAll_eq_map,
    List.map_append]

/-- The parsers of types read respelled lexemes to respelled types. -/
structure TypeMirror (f : String → String) (depth : Nat) : Prop where
  typeDeclaration : ∀ namespace_ access pos,
    Mirrors f (VisualBasic.typeDeclaration namespace_ access pos depth)
      (VisualBasic.typeDeclaration (f namespace_) access pos depth) (TypeDecl.respell f)
  members : ∀ isModule ms, Mirrors f (VisualBasic.members isModule depth ms)
    (VisualBasic.members isModule depth (ms.respell f)) (Members.respell f)

namespace TypeMirror

theorem typeDeclaration_succ (h : TypeMirror f depth) (namespace_ : String) (access : Option Access)
    (pos : Position) : Mirrors f (VisualBasic.typeDeclaration namespace_ access pos (depth + 1))
      (VisualBasic.typeDeclaration (f namespace_) access pos (depth + 1)) (TypeDecl.respell f) := by
  rw [VisualBasic.typeDeclaration, VisualBasic.typeDeclaration]
  refine (mirrors_isWordAt 0 "module").same fun isModule => ?_
  refine .bind mirrors_advance fun _ => .bind mirrors_identifier fun name => ?_
  refine .same mirrors_endOfStatement fun _ => (h.members isModule {}).bind fun ms => ?_
  refine (mirrors_expectEnd _ _).same fun _ => ?_
  exact .same mirrors_endOfStatement fun _ => .pure rfl

theorem members_succ (h : TypeMirror f depth) (isModule : Bool) (ms : Members) :
    Mirrors f (VisualBasic.members isModule (depth + 1) ms)
      (VisualBasic.members isModule (depth + 1) (ms.respell f)) (Members.respell f) := by
  rw [VisualBasic.members, VisualBasic.members]
  refine .spelling fun hf => .same mirrors_skipNewlines fun _ => ?_
  refine .same mirrors_atEof fun _ => (mirrors_isWordAt 0 "end").same fun _ => .ite (.pure rfl) ?_
  refine .same mirrors_position fun pos => .same mirrors_modifiers fun modifiers => ?_
  refine (mirrors_isWordAt 0 "class").same fun _ => .ite ?_ ?_
  · have htype := h.typeDeclaration "" modifiers.1 pos
    rw [hf.empty] at htype
    refine htype.bind fun inner => ?_
    have hmembers := h.members isModule { ms with nested := ms.nested ++ [inner] }
    rw [Members.respell, typesRespellAll_append] at hmembers
    exact hmembers
  refine (mirrors_isWordAt 0 "sub").same fun _ => (mirrors_isWordAt 0 "function").same fun _ => ?_
  refine .ite ((mirrors_method _ _ pos).bind fun declared => ?_) ?_
  · have hmembers := h.members isModule { ms with methods := ms.methods ++ [declared] }
    rw [Members.respell, List.map_append] at hmembers
    exact hmembers
  · refine (mirrors_eatWord "dim").same fun _ => .same mirrors_remaining fun n => ?_
    refine (mirrors_fields _ _ n).bind fun declared => .same mirrors_endOfStatement fun _ => ?_
    have hmembers := h.members isModule { ms with fields := ms.fields ++ declared }
    rw [Members.respell, List.map_append] at hmembers
    exact hmembers

end TypeMirror

theorem typeMirror (f : String → String) (depth : Nat) : TypeMirror f depth := by
  induction depth with
  | zero => exact ⟨fun _ _ _ => .abort, fun _ _ => .abort⟩
  | succ depth ih => exact ⟨ih.typeDeclaration_succ, ih.members_succ⟩

theorem mirrors_importStatements (n : Nat) :
    Mirrors f (importStatements n) (importStatements n) (List.map (Import.respell f)) := by
  induction n with
  | zero => exact .pure rfl
  | succ n ih =>
    refine .same mirrors_position fun pos => (mirrors_eatWord "imports").same fun _ => ?_
    refine .ite (.bind mirrors_qualifiedName fun namespace_ => ?_) (.pure rfl)
    refine .same mirrors_endOfStatement fun _ => .same mirrors_skipNewlines fun _ => ?_
    exact ih.bind fun _ => .pure rfl

/-- The declarations of a file or of a namespace. -/
theorem mirrors_declarations (depth : Nat) (namespace_ : String) (opened : Option Position)
    (types : List TypeDecl) :
    Mirrors f (declarations depth namespace_ opened types)
      (declarations depth (f namespace_) opened (TypeDecl.respellAll f types))
      (TypeDecl.respellAll f) := by
  induction depth generalizing namespace_ opened types with
  | zero => exact .abort
  | succ depth ih =>
    have hnext :
        let reading (namespace_ : String) (types : List TypeDecl) : Parser (List TypeDecl) := do
          let pos ← position
          if ← eatWord "namespace" then
            let name ← qualifiedName
            endOfStatement
            let full := if namespace_.isEmpty then name else namespace_ ++ "." ++ name
            let types ← declarations depth full (some pos) types
            declarations depth namespace_ opened types
          else
            let modifiers ← modifiers
            unless (← isWord "module") || (← isWord "class") do fail pos .topLevelExpected
            let declared ← typeDeclaration namespace_ modifiers.1 pos (← depthBound)
            declarations depth namespace_ opened (types ++ [declared])
        Mirrors f (reading namespace_ types) (reading (f namespace_) (TypeDecl.respellAll f types))
          (TypeDecl.respellAll f) := by
      refine .same mirrors_position fun pos => (mirrors_eatWord "namespace").same fun _ => .ite ?_ ?_
      · refine .bind mirrors_qualifiedName fun name => .same mirrors_endOfStatement fun _ => ?_
        refine .spelling fun hf => ?_
        have hfull : (if (f namespace_).isEmpty then f name else f namespace_ ++ "." ++ f name) =
            f (if namespace_.isEmpty then name else namespace_ ++ "." ++ name) := by
          rw [hf.isEmpty]
          split
          · rfl
          · rw [hf.append, hf.append, hf.fixed "." (by simp)]
        dsimp only
        rw [hfull]
        exact (ih _ (some pos) types).bind fun types => ih namespace_ opened types
      · refine .same mirrors_modifiers fun modifiers => (mirrors_isWordAt 0 "module").same fun _ => ?_
        refine (mirrors_isWordAt 0 "class").same fun _ => .ite ?_ (.fail_bind pos rfl)
        refine .same mirrors_depthBound fun n => ?_
        refine ((typeMirror f n).typeDeclaration namespace_ modifiers.1 pos).bind fun declared => ?_
        have hall := ih namespace_ opened (types ++ [declared])
        rw [typesRespellAll_append] at hall
        exact hall
    rw [declarations, declarations]
    refine .same mirrors_skipNewlines fun _ => .same mirrors_atEof fun _ => ?_
    cases opened with
    | none => exact .ite (.pure rfl) hnext
    | some pos =>
      refine .ite (.fail pos rfl) ((mirrors_isWordAt 0 "end").same fun _ => .ite ?_ hnext)
      refine (mirrors_expectEnd "Namespace" pos).same fun _ => ?_
      exact .same mirrors_endOfStatement fun _ => .pure rfl

/-- **Respelled lexemes are read to the respelled syntax tree.** -/
theorem mirrors_compilationUnit :
    Mirrors f compilationUnit compilationUnit (CompilationUnit.respell f) := by
  refine .spelling fun hf => .same mirrors_skipNewlines fun _ => .same mirrors_remaining fun n => ?_
  refine (mirrors_importStatements n).bind fun imports => .same mirrors_depthBound fun depth => ?_
  have hdeclarations := mirrors_declarations (f := f) depth "" none []
  rw [hf.empty] at hdeclarations
  exact hdeclarations.bind fun _ => .pure rfl

end CilScope.Source.VisualBasic
