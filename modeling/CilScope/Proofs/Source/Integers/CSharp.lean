import CilScope.Proofs.Source.Integers.Expression
import CilScope.Proofs.Source.Loops.CSharp

/-!
# The integers of C# programs

The parsers of statements and declarations make no integers of their own: those of their trees are those
of the expressions in them.
-/

namespace CilScope.Source.CSharp

open CilScope.Source.Parser

variable {ts : List Located} {N : Cursor → Prop} {depth : Nat}

/-! ### Statements without bodies -/

theorem gives_expectSemicolon : Gives ts N Anything expectSemicolon :=
  .eatPunct (.pure trivial) (.looks looks_previousStop fun _ => Gives.report.anything)

theorem gives_modifiersFrom (n : Nat) (access : Option Access) (isStatic : Bool) :
    Gives ts N Anything (modifiersFrom n access isStatic) := by
  induction n generalizing N access isStatic with
  | zero => exact .pure trivial
  | succ n ih =>
    refine .lexeme fun t => ?_
    cases t with
    | word w =>
      refine .ite (fun _ => .skip gives_advance fun _ => ih _ _) fun _ => ?_
      split
      · exact .skip gives_advance fun _ => ih _ _
      · exact .pure trivial
    | _ => exact .pure trivial

theorem gives_modifiers : Gives ts N Anything modifiers :=
  .looks looks_remaining fun _ => gives_modifiersFrom _ _ _

theorem gives_initializer : Gives ts N (fun init => ∀ e ∈ init, e.Ints (Origin ts)) initializer :=
  .eatPunct (.bind gives_expression fun _ => .pure fun he => by simpa using he) (.pure (by simp))

theorem gives_declarators (type : Option TypeUse) (n : Nat) :
    Gives ts N (Stmt.IntsAll (Origin ts)) (declarators type n) := by
  induction n generalizing N with
  | zero => exact .throw
  | succ n ih =>
    refine .looks looks_position fun _ => .skip gives_identifier fun name => ?_
    refine .bind gives_initializer fun init => .eatPunct ?_ (.pure fun hinit => ⟨hinit, trivial⟩)
    exact .bind ih fun _ => .pure fun hrest hinit => ⟨hinit, hrest⟩

theorem gives_localDeclaration : Gives ts N (Stmt.IntsAll (Origin ts)) localDeclaration := by
  refine .looks (looks_isWordAt 0 "var") fun _ => .looks (looks_isAnyWordAt 1) fun _ => ?_
  have hrest {type : Option TypeUse} : Gives ts Anywhere (Stmt.IntsAll (Origin ts))
      (do declarators type (← remaining)) :=
    .looks looks_remaining fun _ => gives_declarators type _
  refine .ite (fun _ => .skip gives_advance fun _ => ?_) fun _ => ?_
  · exact .skip (.pure (Q := Anything) trivial) fun _ => hrest
  · exact .skip (gives_typeUse.map (S := Anything) fun _ _ => trivial) fun _ => hrest

theorem gives_simpleStatement : Gives ts N (Stmt.Ints (Origin ts)) simpleStatement := by
  refine .looks looks_position fun pos => ?_
  have hincrement {delta : Int32} {target : Expr} : Gives ts Anywhere
      (fun s : Stmt => target.Ints (Origin ts) → s.Ints (Origin ts))
      (pure (.increment pos target delta)) := .pure id
  refine .eatPunct (.bind gives_unaryExpression fun _ => hincrement) ?_
  refine .eatPunct (.bind gives_unaryExpression fun _ => hincrement) ?_
  refine .bind gives_expression fun target => ?_
  refine .eatPunct hincrement.anywhere (.eatPunct hincrement.anywhere (.lexeme fun t => ?_))
  dsimp only
  split
  · refine .skip gives_advance fun _ => .bind gives_expression fun value => ?_
    exact .pure fun hvalue htarget => ⟨htarget, hvalue⟩
  · exact .ite (fun _ => .pure id) fun _ => .skip .report fun _ => .pure id

theorem gives_parenthesized : Gives ts N (Expr.Ints (Origin ts)) parenthesized := by
  refine .skip (gives_expectPunct "(") fun _ => .bind gives_expression fun e => ?_
  exact .skip (gives_expectPunct ")") fun _ => .pure id

theorem gives_valueAndSemicolon :
    Gives ts N (fun value => ∀ e ∈ value, e.Ints (Origin ts)) valueAndSemicolon := by
  refine .looks (looks_isPunctAt 0 ";") fun _ => .optUnless gives_expression fun value => ?_
  exact .skip gives_expectSemicolon fun _ => .pure id

theorem gives_catchHead (pos : Position) : Gives ts N Anything (catchHead pos) := by
  refine .eatPunct (.skip gives_typeUse fun type => .looks (looks_isPunctAt 0 ")") fun _ => ?_)
    (.pure trivial)
  refine .optUnless gives_identifier fun _ => ?_
  exact .skip (gives_expectPunct ")") fun _ => .pure fun _ => trivial

theorem gives_plain : Gives ts N (Stmt.IntsAll (Origin ts)) plain :=
  .looks looks_startsLocal fun _ => .ite (fun _ => gives_localDeclaration) fun _ =>
    .bind gives_simpleStatement fun _ => .pure fun hs => ⟨hs, trivial⟩

theorem gives_forInit : Gives ts N (Stmt.IntsAll (Origin ts)) forInit :=
  .looks (looks_isPunctAt 0 ";") fun _ => .ite (fun _ => .pure trivial) fun _ => gives_plain

theorem gives_forHead : Gives ts N (fun (init, cond, step) => Stmt.IntsAll (Origin ts) init ∧
    (∀ e ∈ cond, e.Ints (Origin ts)) ∧ ∀ s ∈ step, s.Ints (Origin ts)) forHead := by
  refine .skip (gives_expectPunct "(") fun _ => .bind gives_forInit fun init => ?_
  refine .skip (gives_expectPunct ";") fun _ => .looks (looks_isPunctAt 0 ";") fun _ => ?_
  refine .optUnless gives_expression fun cond => .skip (gives_expectPunct ";") fun _ => ?_
  refine .looks (looks_isPunctAt 0 ")") fun _ => .optUnless gives_simpleStatement fun step => ?_
  refine .skip (gives_expectPunct ")") fun _ => .pure fun hstep hcond hinit => ?_
  exact ⟨hinit, hcond, hstep⟩

/-! ### Blocks -/

/-- The parsers of statements give trees whose integers come from the lexemes. -/
structure StatementOrigin (ts : List Located) (depth : Nat) : Prop where
  block : ∀ {N}, Gives ts N (fun b => Stmt.IntsAll (Origin ts) b.1) (CSharp.block depth)
  statement : ∀ {N}, Gives ts N (Stmt.IntsAll (Origin ts)) (CSharp.statement depth)
  statements : ∀ {N}, Gives ts N (fun b => Stmt.IntsAll (Origin ts) b.1) (CSharp.statements depth)
  embedded : ∀ {N}, Gives ts N (Stmt.IntsAll (Origin ts)) (CSharp.embedded depth)

namespace StatementOrigin

theorem zero : StatementOrigin ts 0 where
  block := .throw
  statement := .throw
  statements := .throw
  embedded := .throw

theorem block_succ (h : StatementOrigin ts depth) :
    Gives ts N (fun b => Stmt.IntsAll (Origin ts) b.1) (CSharp.block (depth + 1)) := by
  rw [CSharp.block]
  exact .skip (gives_expectPunct _) fun _ => h.statements

theorem statements_succ (h : StatementOrigin ts depth) :
    Gives ts N (fun b => Stmt.IntsAll (Origin ts) b.1) (CSharp.statements (depth + 1)) := by
  rw [CSharp.statements]
  refine .looks looks_position fun pos => .eatPunct (.pure trivial) ?_
  refine .looks looks_atEof fun _ => .ite (fun _ => .fail_bind) fun _ => ?_
  refine .bind h.statement fun first => .bind h.statements fun rest => ?_
  exact .pure fun hrest hfirst => Stmt.intsAll_append.2 ⟨hfirst, hrest⟩

theorem embedded_succ (h : StatementOrigin ts depth) :
    Gives ts N (Stmt.IntsAll (Origin ts)) (CSharp.embedded (depth + 1)) := by
  rw [CSharp.embedded]
  refine .looks (looks_isPunctAt 0 _) fun _ => .ite (fun _ => ?_) fun _ => h.statement
  exact .looks looks_position fun pos => .bind h.block fun _ => .pure fun hbody => ⟨hbody, trivial⟩

theorem handler (h : StatementOrigin ts depth) :
    Gives ts N (fun x => ∀ y ∈ x, Stmt.IntsAll (Origin ts) y.2) (CSharp.handler depth) := by
  refine .looks looks_position fun pos => .eatWord ?_ (.pure (by simp))
  refine .skip (gives_catchHead pos) fun head => .bind h.block fun _ => ?_
  exact .pure fun hbody => by simpa using hbody

theorem tryEnd (h : StatementOrigin ts depth) (pos : Position) {body : List Stmt}
    {handler : Option (CatchHead × List Stmt)} :
    Gives ts N (fun ss => (∀ x ∈ handler, Stmt.IntsAll (Origin ts) x.2) → Stmt.IntsAll (Origin ts) body →
      Stmt.IntsAll (Origin ts) ss) (CSharp.tryEnd depth pos body handler) := by
  have hstop {finally_ : Option (List Stmt)} : Gives ts Anywhere
      (fun ss => (∀ b ∈ finally_, Stmt.IntsAll (Origin ts) b) →
        (∀ x ∈ handler, Stmt.IntsAll (Origin ts) x.2) → Stmt.IntsAll (Origin ts) body →
        Stmt.IntsAll (Origin ts) ss) (tryStatement pos body handler finally_) := by
    refine .ite (fun _ => .looks looks_position fun _ => .fail_bind) fun _ => ?_
    exact .pure fun hfinally hhandler hbody => ⟨Stmt.ints_try.2 ⟨hbody, hhandler, hfinally⟩, trivial⟩
  refine .eatWord (.bind h.block fun b => ?_) ?_
  · refine .bind (.pure (Q := fun x : Option (List Stmt) => x = some b.1) rfl) fun _ => ?_
    exact hstop.mono fun ss hss hx hb hhandler hbody => hss (by simpa [hx] using hb) hhandler hbody
  · refine .bind (.pure (Q := fun x : Option (List Stmt) => x = none) rfl) fun _ => ?_
    exact hstop.mono fun ss hss hx => hss (by simp [hx])

theorem statement_succ (h : StatementOrigin ts depth) :
    Gives ts N (Stmt.IntsAll (Origin ts)) (CSharp.statement (depth + 1)) := by
  rw [statement_eq]
  refine .looks looks_position fun pos => .lexeme fun t => ?_
  have hjump {s : Stmt} (hs : s.Ints (Origin ts)) : Gives ts Anywhere (Stmt.IntsAll (Origin ts))
      (do expectSemicolon; return [s]) :=
    .skip gives_expectSemicolon fun _ => .pure ⟨hs, trivial⟩
  unfold statementFrom
  split
  · exact .bind h.block fun _ => .pure fun hbody => ⟨hbody, trivial⟩
  · exact .skip gives_advance fun _ => .pure ⟨trivial, trivial⟩
  · refine .skip gives_advance fun _ => .bind gives_parenthesized fun cond => ?_
    refine .bind h.embedded fun then_ => .optional h.embedded fun else_ => ?_
    exact .pure fun helse hthen hcond => ⟨Stmt.ints_if.2 ⟨hcond, hthen, helse⟩, trivial⟩
  · refine .skip gives_advance fun _ => .bind gives_parenthesized fun cond => ?_
    refine .bind h.embedded fun body => .pure fun hbody hcond => ?_
    exact ⟨Stmt.ints_while.2 ⟨by simpa using hcond, hbody, by simp⟩, trivial⟩
  · refine .skip gives_advance fun _ => .bind h.embedded fun body => ?_
    refine .eatWord (.bind gives_parenthesized fun cond => .skip gives_expectSemicolon fun _ => ?_)
      .unexpected_bind
    exact .pure fun hcond hbody => ⟨⟨hbody, hcond⟩, trivial⟩
  · refine .skip gives_advance fun _ => .bind gives_forHead fun head => .bind h.embedded fun body => ?_
    refine .pure fun hbody ⟨hinit, hcond, hstep⟩ => ⟨Stmt.intsAll_append.2 ⟨hinit, ?_⟩, trivial⟩
    exact ⟨Stmt.ints_while.2 ⟨hcond, hbody, hstep⟩, trivial⟩
  · exact .skip gives_advance fun _ => hjump trivial
  · exact .skip gives_advance fun _ => hjump trivial
  · exact .skip gives_advance fun _ => .bind gives_valueAndSemicolon fun _ => .pure fun he => ⟨he, trivial⟩
  · exact .skip gives_advance fun _ => .bind gives_valueAndSemicolon fun _ => .pure fun he => ⟨he, trivial⟩
  · refine .skip gives_advance fun _ => .bind h.block fun body => .bind h.handler fun handler => ?_
    exact h.tryEnd pos
  · exact .bind gives_plain fun _ => .skip gives_expectSemicolon fun _ => .pure id

theorem succ (h : StatementOrigin ts depth) : StatementOrigin ts (depth + 1) where
  block := h.block_succ
  statement := h.statement_succ
  statements := h.statements_succ
  embedded := h.embedded_succ

end StatementOrigin

theorem statementOrigin (depth : Nat) : StatementOrigin ts depth := by
  induction depth with
  | zero => exact .zero
  | succ depth ih => exact ih.succ

/-! ### Declarations -/

theorem gives_parameters (n : Nat) : Gives ts N Anything (parameters n) := by
  induction n generalizing N with
  | zero => exact .throw
  | succ n ih =>
    refine .skip gives_typeUse fun type => .looks looks_position fun pos => ?_
    refine .skip gives_identifier fun name => .eatPunct ?_ (.pure trivial)
    exact .skip ih fun _ => .pure trivial

theorem gives_parameterList : Gives ts N Anything parameterList := by
  refine .skip (gives_expectPunct "(") fun _ => .looks (looks_isPunctAt 0 ")") fun _ => ?_
  have hclose (params : List Param) : Gives ts Anywhere Anything (do expectPunct ")"; return params) :=
    .skip (gives_expectPunct ")") fun _ => .pure trivial
  refine .ite (fun _ => .skip (.pure (Q := Anything) trivial) hclose) fun _ => ?_
  exact .looks looks_remaining fun _ => .skip (gives_parameters _) hclose

theorem gives_method {name : String} {ret : TypeUse} {access : Option Access} {isStatic : Bool}
    {pos : Position} :
    Gives ts N (MethodDecl.Ints (Origin ts)) (method name ret access isStatic pos) := by
  rw [method_eq]
  refine .skip gives_parameterList fun params => .looks looks_depthBound fun _ => ?_
  exact .bind (statementOrigin _).block fun _ => .pure id

theorem gives_fields {type : TypeUse} {access : Option Access} {isStatic : Bool} (n : Nat) {name : String}
    {pos : Position} : Gives ts N (fun fs => ∀ f ∈ fs, f.Ints (Origin ts))
      (fields type access isStatic n name pos) := by
  induction n generalizing N name pos with
  | zero => exact .throw
  | succ n ih =>
    refine .bind gives_initializer fun init => .eatPunct ?_ (.pure fun hinit => ?_)
    · refine .looks looks_position fun pos => .skip gives_identifier fun name => .bind ih fun rest => ?_
      exact .pure fun hrest hinit => List.forall_mem_cons.2 ⟨hinit, hrest⟩
    · exact List.forall_mem_singleton.2 hinit

/-- The integers of the members of a type. -/
structure Members.Ints (P : Position → Int32 → Prop) (ms : Members) : Prop where
  fields : ∀ f ∈ ms.fields, f.Ints P
  methods : ∀ m ∈ ms.methods, m.Ints P
  nested : TypeDecl.IntsAll P ms.nested

theorem gives_memberHead (pos : Position) : Gives ts N Anything (memberHead pos) := by
  refine .looks looks_typeKeyword? fun type => .looks (looks_isIdentifierAt 0) fun _ => ?_
  refine .ite (fun _ => ?_) fun _ => .looks looks_describe fun _ => .fail_bind
  refine .skip gives_typeUse fun _ => .looks looks_position fun _ => ?_
  exact .skip gives_identifier fun _ => .pure trivial

theorem gives_member {access : Option Access} {isStatic : Bool} {pos : Position} {ms : Members} :
    Gives ts N (fun ms' => ms.Ints (Origin ts) → ms'.Ints (Origin ts))
      (member access isStatic pos ms) := by
  rw [member_eq]
  refine .skip (gives_memberHead pos) fun (type, namePos, name) => ?_
  refine .looks (looks_isPunctAt 0 "(") fun _ => .ite (fun _ => ?_) fun _ => ?_
  · refine .bind gives_method fun declared => .pure fun hdeclared hms => { hms with methods := ?_ }
    exact List.forall_mem_append.2 ⟨hms.methods, List.forall_mem_singleton.2 hdeclared⟩
  · refine .looks looks_remaining fun _ => .bind (gives_fields _) fun declared => ?_
    refine .skip gives_expectSemicolon fun _ => .pure fun hdeclared hms => { hms with fields := ?_ }
    exact List.forall_mem_append.2 ⟨hms.fields, hdeclared⟩

/-- The parsers of classes give trees whose integers come from the lexemes. -/
structure ClassOrigin (ts : List Located) (depth : Nat) : Prop where
  typeDeclaration : ∀ {N namespace_ access isStatic pos},
    Gives ts N (TypeDecl.Ints (Origin ts)) (CSharp.typeDeclaration namespace_ access isStatic pos depth)
  members : ∀ {N ms}, Gives ts N (fun ms' => ms.Ints (Origin ts) → ms'.Ints (Origin ts))
    (CSharp.members depth ms)

namespace ClassOrigin

theorem zero : ClassOrigin ts 0 where
  typeDeclaration := .throw
  members := .throw

theorem typeDeclaration_succ (h : ClassOrigin ts depth) {namespace_ : String} {access : Option Access}
    {isStatic : Bool} {pos : Position} : Gives ts N (TypeDecl.Ints (Origin ts))
      (CSharp.typeDeclaration namespace_ access isStatic pos (depth + 1)) := by
  rw [CSharp.typeDeclaration]
  refine .skip gives_advance fun _ => .skip gives_identifier fun _ => ?_
  refine .skip (gives_expectPunct _) fun _ => .bind h.members fun ms => .pure fun hms => ?_
  obtain ⟨hfields, hmethods, hnested⟩ := hms ⟨by simp, by simp, trivial⟩
  exact ⟨hfields, hmethods, hnested⟩

theorem members_succ (h : ClassOrigin ts depth) {ms : Members} :
    Gives ts N (fun ms' => ms.Ints (Origin ts) → ms'.Ints (Origin ts)) (CSharp.members (depth + 1) ms) := by
  rw [CSharp.members]
  refine .eatPunct (.pure id) (.looks looks_position fun pos => ?_)
  refine .looks looks_atEof fun _ => .ite (fun _ => .fail_bind) fun _ => ?_
  refine .skip gives_modifiers fun _ => .looks (looks_isWordAt 0 "class") fun _ => ?_
  refine .ite (fun _ => .bind h.typeDeclaration fun inner => ?_) fun _ => ?_
  · refine h.members.mono fun ms' hms' hinner hms => hms' { hms with nested := ?_ }
    exact TypeDecl.intsAll_append.2 ⟨hms.nested, hinner, trivial⟩
  · exact .bind gives_member fun ms' => h.members.mono fun _ h hms' hms => h (hms' hms)

theorem succ (h : ClassOrigin ts depth) : ClassOrigin ts (depth + 1) where
  typeDeclaration := h.typeDeclaration_succ
  members := h.members_succ

end ClassOrigin

theorem classOrigin (depth : Nat) : ClassOrigin ts depth := by
  induction depth with
  | zero => exact .zero
  | succ depth ih => exact ih.succ

theorem gives_usingDirective (pos : Position) : Gives ts N Anything (usingDirective pos) :=
  .skip gives_qualifiedName fun _ => .skip gives_expectSemicolon fun _ => .pure trivial

theorem gives_usingDirectives (n : Nat) : Gives ts N Anything (usingDirectives n) := by
  induction n generalizing N with
  | zero => exact .pure trivial
  | succ n ih =>
    refine .looks looks_position fun pos => .eatWord ?_ (.pure trivial)
    exact .skip (gives_usingDirective pos) fun _ => .skip ih fun _ => .pure trivial

theorem gives_declared {namespace_ : String} {unit : CompilationUnit} (pos : Position)
    {again : CompilationUnit → Parser CompilationUnit}
    (hagain : ∀ {N unit}, Gives ts N (fun unit' => unit.Ints (Origin ts) → unit'.Ints (Origin ts)) (again unit))
    (hinner : ∀ {N full nested unit}, Gives ts N (fun unit' => unit.Ints (Origin ts) → unit'.Ints (Origin ts))
      (declarations depth full nested unit)) :
    Gives ts N (fun unit' => unit.Ints (Origin ts) → unit'.Ints (Origin ts))
      (declaredTurn namespace_ depth pos again unit) := by
  refine .eatWord (.skip gives_qualifiedName fun name => .skip (gives_expectPunct _) fun _ => ?_) ?_
  · refine .bind hinner fun _ => .skip (gives_expectPunct _) fun _ => ?_
    exact hagain.mono fun _ h hinner hunit => h (hinner hunit)
  · refine .skip gives_modifiers fun _ => .looks (looks_isWordAt 0 "class") fun _ => ?_
    refine .ite (fun _ => ?_) fun _ => .fail_bind
    refine .looks looks_depthBound fun _ => .bind (classOrigin _).typeDeclaration fun declared => ?_
    exact hagain.mono fun _ h hdeclared hunit => h (TypeDecl.intsAll_append.2 ⟨hunit, hdeclared, trivial⟩)

theorem gives_declarations {namespace_ : String} {nested : Bool} {unit : CompilationUnit} :
    Gives ts N (fun unit' => unit.Ints (Origin ts) → unit'.Ints (Origin ts))
      (declarations depth namespace_ nested unit) := by
  induction depth generalizing N namespace_ nested unit with
  | zero => exact .throw
  | succ depth ih =>
    rw [(loops_declarations namespace_ nested).unroll, declarationTurn]
    cases nested with
    | false =>
      simp only [Bool.false_eq_true, if_false]
      refine .looks looks_position fun pos => .looks looks_atEof fun _ => ?_
      exact .ite (fun _ => .pure id) fun _ => gives_declared pos ih ih
    | true =>
      simp only [if_true]
      refine .looks (looks_isPunctAt 0 _) fun _ => .ite (fun _ => .pure id) fun _ => ?_
      refine .looks looks_position fun pos => .looks looks_atEof fun _ => ?_
      refine .ite (fun _ => .fail_bind) fun _ => .eatWord ?_ (gives_declared pos ih ih)
      exact .skip (gives_usingDirective pos) fun _ => ih

theorem gives_compilationUnit : Gives ts N (CompilationUnit.Ints (Origin ts)) compilationUnit := by
  refine .looks looks_remaining fun _ => .skip (gives_usingDirectives _) fun imports => ?_
  refine .looks looks_depthBound fun _ => ?_
  exact gives_declarations.mono fun _ h => h trivial

end CilScope.Source.CSharp
