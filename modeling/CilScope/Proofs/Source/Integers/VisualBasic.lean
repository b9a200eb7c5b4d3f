import CilScope.Proofs.Source.Integers.Expression
import CilScope.Proofs.Source.Loops.VisualBasic

/-!
# The integers of Visual Basic programs

A `For` loop without a step adds one to its variable: no other integer is made by the parsers of statements
and declarations.
-/

namespace CilScope.Source.VisualBasic

open CilScope.Source.Parser

variable {ts : List Located} {N : Cursor → Prop} {depth : Nat}

/-! ### Line ends and keywords -/

theorem gives_skipNewlinesFrom (n : Nat) : Gives ts N Anything (skipNewlinesFrom n) := by
  induction n generalizing N with
  | zero => exact .pure trivial
  | succ n ih =>
    refine .looks (looks_lexemeAt 0) fun t => .ite (fun _ => ?_) fun _ => .pure trivial
    exact .skip gives_advance fun _ => ih

theorem gives_skipNewlines : Gives ts N Anything skipNewlines :=
  .looks looks_remaining fun _ => gives_skipNewlinesFrom _

theorem gives_endOfStatement : Gives ts N Anything endOfStatement := by
  refine .looks (looks_lexemeAt 0) fun t => ?_
  cases t with
  | newline => exact .skip gives_advance fun _ => .pure trivial
  | eof => exact .pure trivial
  | _ => exact .looks looks_position fun _ => .fail

theorem gives_expectWord (keyword : String) : Gives ts N Anything (expectWord keyword) :=
  .eatWord (.pure trivial) gives_unexpected

theorem gives_expectEnd (construct : String) (opened : Position) :
    Gives ts N Anything (expectEnd construct opened) := by
  refine .looks (looks_isWordAt 0 "end") fun _ => .looks (looks_isWordAt 1 construct) fun _ => ?_
  refine .ite (fun _ => ?_) fun _ => .fail
  exact .skip gives_advance fun _ => .skip gives_advance fun _ => .pure trivial

theorem gives_modifiersFrom (n : Nat) (access : Option Access) (shared : Bool) :
    Gives ts N Anything (modifiersFrom n access shared) := by
  induction n generalizing N access shared with
  | zero => exact .pure trivial
  | succ n ih =>
    refine .eatWord (ih _ _) (.looks (looks_lexemeAt 0) fun t => ?_)
    cases t with
    | word w =>
      dsimp only
      split
      · exact .skip gives_advance fun _ => ih _ _
      · exact .pure trivial
    | _ => exact .pure trivial

theorem gives_modifiers : Gives ts N Anything modifiers :=
  .looks looks_remaining fun _ => gives_modifiersFrom _ _ _

/-! ### Statements without bodies -/

theorem gives_declarator :
    Gives ts N (fun d => ∀ e ∈ d.init, e.Ints (Origin ts)) declarator := by
  refine .skip gives_identifier fun name => ?_
  refine .looks (looks_isPunctAt 0 "(") fun _ => .looks (looks_isPunctAt 1 ")") fun _ => ?_
  extract_lets isArray typed rest
  have hrest {M : Cursor → Prop} :
      Gives ts M (fun d => ∀ e ∈ d.init, e.Ints (Origin ts)) (rest ()) := by
    refine .optional gives_typeUse fun type => .looks looks_position fun pos => ?_
    exact .eatPunct (.bind gives_expression.some_ fun _ => .pure fun h _ => h) (.pure fun _ => by simp)
  refine .ite (fun _ => ?_) fun _ => hrest
  exact .skip gives_advance fun _ => .skip gives_advance fun _ => hrest

theorem gives_locals (n : Nat) : Gives ts N (Stmt.IntsAll (Origin ts)) (locals n) := by
  induction n generalizing N with
  | zero => exact .throw
  | succ n ih =>
    refine .looks looks_position fun _ => .bind gives_declarator fun d => ?_
    refine .eatPunct (.bind ih fun _ => ?_) (.pure fun hinit => ⟨hinit, trivial⟩)
    exact .pure fun hrest hinit => ⟨hinit, hrest⟩

theorem gives_loopKind? : Gives ts N Anything loopKind? :=
  .eatWord (.pure trivial) (.eatWord (.pure trivial) (.eatWord (.pure trivial) (.pure trivial)))

theorem gives_loopTest : Gives ts N (fun test => ∀ x ∈ test, x.1.Ints (Origin ts)) loopTest := by
  have htest (until_ : Bool) : Gives ts Anywhere (fun test => ∀ x ∈ test, x.1.Ints (Origin ts))
      (do return some (← expression, until_)) :=
    .bind gives_expression fun _ => .pure fun he => by simpa using he
  exact .eatWord (htest false).anywhere (.eatWord (htest true).anywhere (.pure (by simp)))

/-- Taking a name as a call leaves the integers alone. -/
theorem ints_asCall {P : Position → Int32 → Prop} {e : Expr} (h : e.Ints P) : (asCall e).Ints P := by
  unfold asCall
  split
  · exact ⟨h, trivial⟩
  · exact ⟨h, trivial⟩
  · exact h

theorem gives_simpleStatement : Gives ts N (Stmt.Ints (Origin ts)) simpleStatement := by
  refine .looks looks_position fun pos => .bind gives_operandExpression fun target => ?_
  refine .looks (looks_lexemeAt 0) fun t => ?_
  dsimp only
  split
  · refine .skip gives_advance fun _ => .bind gives_expression fun value => ?_
    exact .pure fun hvalue htarget => ⟨htarget, hvalue⟩
  · exact .ite (fun _ => .pure ints_asCall) fun _ => .skip .report fun _ => .pure ints_asCall

theorem gives_optionalValue :
    Gives ts N (fun value => ∀ e ∈ value, e.Ints (Origin ts)) optionalValue :=
  .looks looks_atStatementEnd fun _ => .ite (fun _ => .pure (by simp)) fun _ =>
    .bind gives_expression fun _ => .pure fun he => by simpa using he

/-- The integers of the head of a `For` loop that starts at a position. -/
structure ForHead.Ints (P : Position → Int32 → Prop) (pos : Position) (h : ForHead) : Prop where
  opened : h.opened = pos
  from_ : h.from_.Ints P
  limit : h.limit.Ints P
  step : ∀ e ∈ h.step, e.Ints P

theorem ForHead.Ints.loop {P : Position → Int32 → Prop} {pos : Position} {h : ForHead} {body : List Stmt}
    (hone : P pos 1) (hhead : h.Ints P pos) (hbody : Stmt.IntsAll P body) : (h.loop body).Ints P := by
  have hstep : Expr.Ints P (h.step.getD (.int h.opened 1)) := by
    cases hs : h.step with
    | some e => exact hhead.step e hs
    | none => exact hhead.opened ▸ hone
  refine ⟨?_, Stmt.ints_while.2 ⟨?_, hbody, ?_⟩, trivial⟩
  · cases h.type with
    | some type => simpa [Stmt.Ints] using hhead.from_
    | none => exact ⟨trivial, hhead.from_⟩
  · simpa [Expr.Ints] using hhead.limit
  · simpa [Stmt.Ints, Expr.Ints] using hstep

theorem gives_forHead (opened : Position) :
    Gives ts N (ForHead.Ints (Origin ts) opened) (forHead opened) := by
  refine .looks looks_position fun varPos => .skip gives_identifier fun var => ?_
  refine .optional gives_typeUse fun type => .skip (gives_expectPunct "=") fun _ => ?_
  refine .bind gives_expression fun from_ => .skip (gives_expectWord "to") fun _ => ?_
  refine .bind gives_expression fun limit => .optional gives_expression fun step => ?_
  refine .skip gives_endOfStatement fun _ => .pure fun hstep hlimit hfrom _ => ?_
  exact ⟨rfl, hfrom, hlimit, hstep⟩

theorem gives_eatLoopVariable (var : String) : Gives ts N Anything (eatLoopVariable var) := by
  refine .looks (looks_lexemeAt 0) fun t => ?_
  cases t with
  | word w => exact .ite (fun _ => .skip gives_advance fun _ => .pure trivial) fun _ => .pure trivial
  | _ => exact .pure trivial

theorem gives_catchHead (pos : Position) : Gives ts N Anything (catchHead pos) := by
  refine .looks (looks_isIdentifierAt 0) fun _ => .ite (fun _ => ?_) fun _ => .pure trivial
  refine .skip gives_identifier fun var => ?_
  exact .optional gives_typeUse fun _ => .pure fun _ => trivial

/-! ### Blocks -/

/-- The parsers of statements give trees whose integers come from the lexemes. -/
structure StatementOrigin (ts : List Located) (depth : Nat) : Prop where
  statement : ∀ {N}, Gives ts N (Stmt.IntsAll (Origin ts)) (VisualBasic.statement depth)
  statements : ∀ {N}, Gives ts N (Stmt.IntsAll (Origin ts)) (VisualBasic.statements depth)
  conditional : ∀ {N opened}, Gives ts N (Stmt.Ints (Origin ts)) (VisualBasic.conditional depth opened)
  doLoop : ∀ {N opened}, Gives ts N (Stmt.Ints (Origin ts)) (VisualBasic.doLoop depth opened)
  tryBlock : ∀ {N opened}, Gives ts N (Stmt.Ints (Origin ts)) (VisualBasic.tryBlock depth opened)

namespace StatementOrigin

theorem zero : StatementOrigin ts 0 where
  statement := .throw
  statements := .throw
  conditional := .throw
  doLoop := .throw
  tryBlock := .throw

theorem statements_succ (h : StatementOrigin ts depth) :
    Gives ts N (Stmt.IntsAll (Origin ts)) (VisualBasic.statements (depth + 1)) := by
  rw [VisualBasic.statements]
  refine .skip gives_skipNewlines fun _ => .looks looks_atBlockEnd fun _ => ?_
  refine .ite (fun _ => .pure trivial) fun _ => .bind h.statement fun first => ?_
  refine .skip gives_endOfStatement fun _ => .bind h.statements fun rest => ?_
  exact .pure fun hrest hfirst => Stmt.intsAll_append.2 ⟨hfirst, hrest⟩

theorem conditional_succ (h : StatementOrigin ts depth) {opened : Position} :
    Gives ts N (Stmt.Ints (Origin ts)) (VisualBasic.conditional (depth + 1) opened) := by
  rw [VisualBasic.conditional]
  refine .bind gives_expression fun cond => .skip (gives_expectWord "then") fun _ => ?_
  refine .looks looks_atLineEnd fun _ => .ite (fun _ => ?_) fun _ => ?_
  · refine .bind h.statement fun then_ => .optional h.statement fun else_ => ?_
    exact .pure fun helse hthen hcond => Stmt.ints_if.2 ⟨hcond, hthen, helse⟩
  refine .skip gives_endOfStatement fun _ => .bind h.statements fun then_ => ?_
  refine .looks looks_position fun pos => .eatWord ?_ ?_
  · exact .bind h.conditional fun _ => .pure fun hinner hthen hcond => ⟨hcond, hthen, hinner, trivial⟩
  refine .eatWord (.skip gives_endOfStatement fun _ => .bind h.statements fun else_ => ?_) ?_
  · refine .skip (gives_expectEnd "If" opened) fun _ => .pure fun helse hthen hcond => ?_
    exact ⟨hcond, hthen, helse⟩
  · exact .skip (gives_expectEnd "If" opened) fun _ => .pure fun hthen hcond => ⟨hcond, hthen, trivial⟩

theorem doLoop_succ (h : StatementOrigin ts depth) {opened : Position} :
    Gives ts N (Stmt.Ints (Origin ts)) (VisualBasic.doLoop (depth + 1) opened) := by
  rw [VisualBasic.doLoop]
  refine .bind gives_loopTest fun top => .skip gives_endOfStatement fun _ => ?_
  refine .bind h.statements fun body => .eatWord (.bind gives_loopTest fun bottom => ?_) .fail_bind
  split
  · refine .pure fun _ hbody htop => Stmt.ints_while.2 ⟨?_, hbody, by simp⟩
    have hcond := htop _ rfl
    rintro e ⟨⟩
    split <;> exact hcond
  · exact .pure fun hbottom hbody _ => ⟨hbody, hbottom _ rfl⟩
  · exact .pure fun _ hbody _ => Stmt.ints_while.2 ⟨by simp, hbody, by simp⟩
  · exact .looks looks_position fun _ => .fail

theorem tryBlock_succ (h : StatementOrigin ts depth) {opened : Position} :
    Gives ts N (Stmt.Ints (Origin ts)) (VisualBasic.tryBlock (depth + 1) opened) := by
  rw [VisualBasic.tryBlock]
  refine .skip gives_endOfStatement fun _ => .bind h.statements fun body => ?_
  refine .looks looks_position fun catchPos => ?_
  extract_lets rest
  have hrest {M : Cursor → Prop} (handler : Option (CatchHead × List Stmt)) : Gives ts M
      (fun s => (∀ x ∈ handler, Stmt.IntsAll (Origin ts) x.2) → Stmt.IntsAll (Origin ts) body →
        s.Ints (Origin ts)) (rest handler) := by
    have hend (finally_ : Option (List Stmt)) : Gives ts Anywhere
        (fun s => (∀ b ∈ finally_, Stmt.IntsAll (Origin ts) b) →
          (∀ x ∈ handler, Stmt.IntsAll (Origin ts) x.2) → Stmt.IntsAll (Origin ts) body →
          s.Ints (Origin ts))
        (do expectEnd "Try" opened; return Stmt.try_ opened body handler finally_) :=
      .skip (gives_expectEnd "Try" opened) fun _ => .pure fun hfinally hhandler hbody =>
        Stmt.ints_try.2 ⟨hbody, hhandler, hfinally⟩
    refine .eatWord (.skip gives_endOfStatement fun _ => .bind h.statements fun b => ?_) ?_
    · refine .bind (.pure (Q := fun x : Option (List Stmt) => x = some b) rfl) fun _ => ?_
      exact (hend _).mono fun s hs hx hb => hs (by simpa [hx] using hb)
    · exact .bind .none_ hend
  refine .eatWord (.skip (gives_catchHead catchPos) fun head => ?_) ?_
  · refine .skip gives_endOfStatement fun _ => .bind h.statements fun b => ?_
    refine .bind (.pure (Q := fun x : Option (CatchHead × List Stmt) => x = some (head, b)) rfl) fun _ => ?_
    exact (hrest _).mono fun s hs hx hb => hs (by simpa [hx] using hb)
  · exact .bind .none_ hrest

theorem statement_succ (h : StatementOrigin ts depth) :
    Gives ts N (Stmt.IntsAll (Origin ts)) (VisualBasic.statement (depth + 1)) := by
  have hone {M : Cursor → Prop} {p : Parser Stmt} (hp : Gives ts M (Stmt.Ints (Origin ts)) p) :
      Gives ts M (Stmt.IntsAll (Origin ts)) (do return [← p]) :=
    .bind hp fun _ => .pure fun hs => ⟨hs, trivial⟩
  rw [VisualBasic.statement]
  refine .position fun pos => .eatWord (.looks looks_remaining fun _ => gives_locals _) ?_
  refine .eatWord (hone h.conditional) ?_
  refine .eatWord (.bind gives_expression fun cond => ?_) ?_
  · refine .skip gives_endOfStatement fun _ => .bind h.statements fun body => ?_
    refine .skip (gives_expectEnd "While" pos) fun _ => .pure fun hbody hcond => ?_
    exact ⟨Stmt.ints_while.2 ⟨by simpa using hcond, hbody, by simp⟩, trivial⟩
  refine .eatWord (hone h.doLoop) (.eatWord (.assume (φ := Origin ts pos 1) (fun c hc hN => ?_) fun hone => ?_) ?_)
  · obtain ⟨c₀, t, ⟨-, hpos⟩, hc₀, hrest, w, hw, hfor⟩ := hN
    rw [Cursor.start, hrest] at hpos
    rw [hrest] at hc₀
    exact .step (hc₀.subset List.mem_cons_self) hpos hw hfor
  · refine .bind (gives_forHead pos) fun head => .bind h.statements fun body => ?_
    refine .eatWord (.skip (gives_eatLoopVariable head.var) fun _ => ?_) .fail_bind
    exact .pure fun hbody hhead => ⟨hhead.loop hone hbody, trivial⟩
  refine .eatWord (.skip gives_loopKind? fun kind => ?_) ?_
  · cases kind with
    | some kind => exact .pure ⟨trivial, trivial⟩
    | none =>
      refine .eatWord (.pure ⟨by simp [Stmt.Ints], trivial⟩) ?_
      exact .eatWord (.pure ⟨by simp [Stmt.Ints], trivial⟩) gives_unexpected
  refine .eatWord (.skip gives_loopKind? fun kind => ?_) ?_
  · cases kind with
    | some kind => exact .pure ⟨trivial, trivial⟩
    | none => exact gives_unexpected
  refine .eatWord (.bind gives_optionalValue fun _ => .pure fun he => ⟨he, trivial⟩) ?_
  refine .eatWord (.bind gives_optionalValue fun _ => .pure fun he => ⟨he, trivial⟩) ?_
  refine .eatWord (hone h.tryBlock) (.eatWord ?_ (hone gives_simpleStatement))
  exact .bind gives_operandExpression fun _ => .pure fun he => ⟨ints_asCall he, trivial⟩

theorem succ (h : StatementOrigin ts depth) : StatementOrigin ts (depth + 1) where
  statement := h.statement_succ
  statements := h.statements_succ
  conditional := h.conditional_succ
  doLoop := h.doLoop_succ
  tryBlock := h.tryBlock_succ

end StatementOrigin

theorem statementOrigin (depth : Nat) : StatementOrigin ts depth := by
  induction depth with
  | zero => exact .zero
  | succ depth ih => exact ih.succ

/-! ### Declarations -/

theorem gives_parameters (n : Nat) : Gives ts N Anything (parameters n) := by
  induction n generalizing N with
  | zero => exact .throw
  | succ n ih =>
    refine .skip (gives_eatWord "byval") fun _ => .looks looks_position fun pos => ?_
    refine .skip gives_declarator fun d => .eatPunct ?_ (.pure trivial)
    exact .skip ih fun _ => .pure trivial

theorem gives_parameterList : Gives ts N Anything parameterList := by
  have hclose (params : List Param) : Gives ts Anywhere Anything (do expectPunct ")"; return params) :=
    .skip (gives_expectPunct ")") fun _ => .pure trivial
  refine .eatPunct (.looks (looks_isPunctAt 0 ")") fun _ => .ite (fun _ => ?_) fun _ => ?_) (.pure trivial)
  · exact .skip (.pure (Q := Anything) trivial) hclose
  · exact .looks looks_remaining fun _ => .skip (gives_parameters _) hclose

theorem gives_returnType (isFunction : Bool) (pos : Position) :
    Gives ts N Anything (returnType isFunction pos) := by
  refine .ite (fun _ => .looks looks_position fun here => ?_) fun _ => .pure trivial
  exact .eatWord gives_typeUse (.pure trivial)

theorem gives_method {access : Option Access} {isStatic : Bool} {pos : Position} :
    Gives ts N (MethodDecl.Ints (Origin ts)) (method access isStatic pos) := by
  refine .looks (looks_isWordAt 0 "function") fun isFunction => .skip gives_advance fun _ => ?_
  refine .skip gives_identifier fun name => .skip gives_parameterList fun params => ?_
  refine .skip (gives_returnType isFunction pos) fun ret => .skip gives_endOfStatement fun _ => ?_
  refine .looks looks_depthBound fun _ => .bind (statementOrigin _).statements fun body => ?_
  refine .looks looks_position fun endPos => .skip (gives_expectEnd _ pos) fun _ => ?_
  exact .skip gives_endOfStatement fun _ => .pure id

theorem gives_fields {access : Option Access} {isStatic : Bool} (n : Nat) :
    Gives ts N (fun fs => ∀ f ∈ fs, f.Ints (Origin ts)) (fields access isStatic n) := by
  induction n generalizing N with
  | zero => exact .throw
  | succ n ih =>
    refine .looks looks_position fun pos => .bind gives_declarator fun d => ?_
    refine .eatPunct (.bind ih fun _ => ?_) (.pure fun hinit => List.forall_mem_singleton.2 hinit)
    exact .pure fun hrest hinit => List.forall_mem_cons.2 ⟨hinit, hrest⟩

/-- The integers of the members of a type. -/
structure Members.Ints (P : Position → Int32 → Prop) (ms : Members) : Prop where
  fields : ∀ f ∈ ms.fields, f.Ints P
  methods : ∀ m ∈ ms.methods, m.Ints P
  nested : TypeDecl.IntsAll P ms.nested

/-- The parsers of types give trees whose integers come from the lexemes. -/
structure TypeOrigin (ts : List Located) (depth : Nat) : Prop where
  typeDeclaration : ∀ {N namespace_ access pos},
    Gives ts N (TypeDecl.Ints (Origin ts)) (VisualBasic.typeDeclaration namespace_ access pos depth)
  members : ∀ {N isModule ms}, Gives ts N (fun ms' => ms.Ints (Origin ts) → ms'.Ints (Origin ts))
    (VisualBasic.members isModule depth ms)

namespace TypeOrigin

theorem zero : TypeOrigin ts 0 where
  typeDeclaration := .throw
  members := .throw

theorem typeDeclaration_succ (h : TypeOrigin ts depth) {namespace_ : String} {access : Option Access}
    {pos : Position} : Gives ts N (TypeDecl.Ints (Origin ts))
      (VisualBasic.typeDeclaration namespace_ access pos (depth + 1)) := by
  rw [VisualBasic.typeDeclaration]
  refine .looks (looks_isWordAt 0 "module") fun isModule => .skip gives_advance fun _ => ?_
  refine .skip gives_identifier fun name => .skip gives_endOfStatement fun _ => ?_
  refine .bind h.members fun ms => .skip (gives_expectEnd _ _) fun _ => ?_
  refine .skip gives_endOfStatement fun _ => .pure fun hms => ?_
  obtain ⟨hfields, hmethods, hnested⟩ := hms ⟨by simp, by simp, trivial⟩
  exact ⟨hfields, hmethods, hnested⟩

theorem members_succ (h : TypeOrigin ts depth) {isModule : Bool} {ms : Members} :
    Gives ts N (fun ms' => ms.Ints (Origin ts) → ms'.Ints (Origin ts))
      (VisualBasic.members isModule (depth + 1) ms) := by
  rw [VisualBasic.members]
  refine .skip gives_skipNewlines fun _ => .looks looks_atEof fun _ => ?_
  refine .looks (looks_isWordAt 0 "end") fun _ => .ite (fun _ => .pure id) fun _ => ?_
  refine .looks looks_position fun pos => .skip gives_modifiers fun _ => ?_
  refine .looks (looks_isWordAt 0 "class") fun _ => .ite (fun _ => ?_) fun _ => ?_
  · refine .bind h.typeDeclaration fun inner => ?_
    refine h.members.mono fun ms' hms' hinner hms => hms' { hms with nested := ?_ }
    exact TypeDecl.intsAll_append.2 ⟨hms.nested, hinner, trivial⟩
  refine .looks (looks_isWordAt 0 "sub") fun _ => .looks (looks_isWordAt 0 "function") fun _ => ?_
  refine .ite (fun _ => .bind gives_method fun declared => ?_) fun _ => ?_
  · refine h.members.mono fun ms' hms' hdeclared hms => hms' { hms with methods := ?_ }
    exact List.forall_mem_append.2 ⟨hms.methods, List.forall_mem_singleton.2 hdeclared⟩
  · refine .skip (gives_eatWord "dim") fun _ => .looks looks_remaining fun _ => ?_
    refine .bind (gives_fields _) fun declared => .skip gives_endOfStatement fun _ => ?_
    refine h.members.mono fun ms' hms' hdeclared hms => hms' { hms with fields := ?_ }
    exact List.forall_mem_append.2 ⟨hms.fields, hdeclared⟩

theorem succ (h : TypeOrigin ts depth) : TypeOrigin ts (depth + 1) where
  typeDeclaration := h.typeDeclaration_succ
  members := h.members_succ

end TypeOrigin

theorem typeOrigin (depth : Nat) : TypeOrigin ts depth := by
  induction depth with
  | zero => exact .zero
  | succ depth ih => exact ih.succ

theorem gives_importStatements (n : Nat) : Gives ts N Anything (importStatements n) := by
  induction n generalizing N with
  | zero => exact .pure trivial
  | succ n ih =>
    refine .looks looks_position fun pos => .eatWord ?_ (.pure trivial)
    refine .skip gives_qualifiedName fun _ => .skip gives_endOfStatement fun _ => ?_
    exact .skip gives_skipNewlines fun _ => .skip ih fun _ => .pure trivial

theorem gives_declared {namespace_ : String} {types : List TypeDecl}
    {again : List TypeDecl → Parser (List TypeDecl)}
    (hagain : ∀ {N types}, Gives ts N (fun ds => TypeDecl.IntsAll (Origin ts) types →
      TypeDecl.IntsAll (Origin ts) ds) (again types))
    (hinner : ∀ {N full opened types}, Gives ts N (fun ds => TypeDecl.IntsAll (Origin ts) types →
      TypeDecl.IntsAll (Origin ts) ds) (declarations depth full opened types)) :
    Gives ts N (fun ds => TypeDecl.IntsAll (Origin ts) types → TypeDecl.IntsAll (Origin ts) ds)
      (declaredTurn namespace_ depth again types) := by
  refine .looks looks_position fun pos => .eatWord ?_ ?_
  · refine .skip gives_qualifiedName fun name => .skip gives_endOfStatement fun _ => ?_
    exact .bind hinner fun _ => hagain.mono fun _ h hinner htypes => h (hinner htypes)
  · refine .skip gives_modifiers fun _ => .looks (looks_isWordAt 0 "module") fun _ => ?_
    refine .looks (looks_isWordAt 0 "class") fun _ => .ite (fun _ => ?_) fun _ => .fail_bind
    refine .looks looks_depthBound fun _ => .bind (typeOrigin _).typeDeclaration fun declared => ?_
    exact hagain.mono fun _ h hdeclared htypes => h (TypeDecl.intsAll_append.2 ⟨htypes, hdeclared, trivial⟩)

theorem gives_declarations {namespace_ : String} {opened : Option Position} {types : List TypeDecl} :
    Gives ts N (fun ds => TypeDecl.IntsAll (Origin ts) types → TypeDecl.IntsAll (Origin ts) ds)
      (declarations depth namespace_ opened types) := by
  induction depth generalizing N namespace_ opened types with
  | zero => exact .throw
  | succ depth ih =>
    rw [(loops_declarations namespace_ opened).unroll, declarationTurn]
    refine .skip gives_skipNewlines fun _ => .looks looks_atEof fun _ => ?_
    cases opened with
    | none => exact .ite (fun _ => .pure id) fun _ => gives_declared ih ih
    | some pos =>
      refine .ite (fun _ => .fail) fun _ => .looks (looks_isWordAt 0 "end") fun _ => ?_
      refine .ite (fun _ => .skip (gives_expectEnd "Namespace" pos) fun _ => ?_) fun _ => gives_declared ih ih
      exact .skip gives_endOfStatement fun _ => .pure id

theorem gives_compilationUnit : Gives ts N (CompilationUnit.Ints (Origin ts)) compilationUnit := by
  refine .skip gives_skipNewlines fun _ => .looks looks_remaining fun _ => ?_
  refine .skip (gives_importStatements _) fun imports => .looks looks_depthBound fun _ => ?_
  exact .bind gives_declarations fun _ => .pure fun h => h trivial

end CilScope.Source.VisualBasic
