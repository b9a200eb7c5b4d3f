import CilScope.Proofs.Source.CSharp
import CilScope.Proofs.Source.Lockstep.Expression

/-!
# C# programs are read in step

A statement, a member and a declaration read a lexeme at least, so none of them starts at a gap and ends
in front of it. Where one may start at a gap, the semicolon of the first run either belongs to it or is
nothing it could begin with.
-/

namespace CilScope.Source.CSharp

open CilScope.Source.Parser

variable {g : Gap} {N : Lexeme → Lexeme → Prop} {r depth m : Nat}

/-! ### Statements without bodies -/

theorem run_expectSemicolon {c : Cursor} (hc : c.log.language = .csharp) (hnext : c.next = .punct ";") :
    expectSemicolon.run.run c = (.ok (), c.skip) :=
  run_bind_of_ok ((takes_eatPunct ";").yes c hc (decide_eq_true hnext))

/-- At a semicolon the first run passes the gap. -/
theorem lockstep_expectSemicolon : Lockstep g N r 0 expectSemicolon expectSemicolon := by
  refine .cases_next (fun t => ?_) (.passes fun c hc hl hnext x c' hrun => ?_)
  · refine .imp (.eatPunct_same (fun _ => .pure ()) ?_) same_of_next
    exact .looks looks_previousStop looks_previousStop fun _ _ => .report _ _ _
  · rw [run_expectSemicolon hl hnext] at hrun
    cases hrun
    exact Cursor.onward_skip hc (hnext ▸ by simp)

theorem lockstep_semicolon :
    Lockstep g (Next (.punct ";") (.punct ";")) r 1 expectSemicolon expectSemicolon :=
  .taken (takes_eatPunct ";") rfl fun _ => .pure ()

theorem lockstep_modifiers : Lockstep g N r 0 modifiers modifiers := by
  refine .remaining fun n m _ hm hm' => ?_
  refine Lockstep.loop (F := fun n (i : Option Access × Bool) => modifiersFrom n i.1 i.2) (i := (none, false))
    (fun {N n m r i} hn hm ih => ?_) (by omega) hm'
  rw [modifiersFrom, modifiersFrom]
  refine .cases_next (fun t => .lexeme ?_) (.lexeme (.pure i))
  cases t with
  | word w =>
    refine .ite (fun _ => .read (by simp) fun _ _ => ih (i := (i.1, true)) (by omega) (by omega)) fun _ => ?_
    split
    · exact .read (by simp) fun _ _ => ih (i := (some _, i.2)) (by omega) (by omega)
    · exact .pure _
  | _ => exact .pure _

/-- Whether a lexeme is a modifier. -/
def isModifier : Lexeme → Bool
  | .word w => w = "static" || (accessOf.lookup w).isSome
  | _ => false

theorem run_modifiers_of_not {c : Cursor} (h : isModifier c.next = false) :
    modifiers.run.run c = (.ok (none, false), c) := by
  have hremaining : remaining.run.run c = (.ok c.rest.length, c) := rfl
  rw [modifiers, run_bind_of_ok hremaining]
  cases c.rest.length with
  | zero => rfl
  | succ n =>
    rw [modifiersFrom, lexeme, run_bind_of_ok (run_lexeme c)]
    cases hnext : c.next with
    | word w =>
      rw [hnext, isModifier, Bool.or_eq_false_iff, decide_eq_false_iff_not, Option.isSome_eq_false_iff,
        Option.isNone_iff_eq_none] at h
      dsimp only
      rw [if_neg h.1, h.2]
      rfl
    | _ => rfl

/-- Whether the lexemes from the `n`th on are a member or brackets of a type name. -/
def goesOn (c : Cursor) (n : Nat) : Bool :=
  decide (c.ahead n = .punct ".") && isAnyWord (c.ahead (n + 1)) ||
    decide (c.ahead n = .punct "[") && decide (c.ahead (n + 1) = .punct "]")

theorem run_typeNameEnd_succ (steps n : Nat) (c : Cursor) :
    (typeNameEnd (steps + 1) n).run.run c =
      if goesOn c n then (typeNameEnd steps (n + 2)).run.run c else (.ok n, c) := by
  have hpunct : ∀ i s, (isPunctAt i s).run.run c = (.ok (decide (c.ahead i = .punct s)), c) :=
    fun _ _ => rfl
  rw [typeNameEnd, run_bind_of_ok (hpunct n "."), run_bind_of_ok (run_isAnyWordAt (n + 1) c), goesOn]
  cases decide (c.ahead n = .punct ".") && isAnyWord (c.ahead (n + 1)) with
  | true => rfl
  | false =>
    rw [if_neg Bool.false_ne_true, run_bind_of_ok (hpunct n "["), run_bind_of_ok (hpunct (n + 1) "]"),
      Bool.false_or]
    split <;> rfl

theorem run_typeNameEnd_of_not {c : Cursor} {n : Nat} (h : goesOn c n = false) (steps : Nat) :
    (typeNameEnd steps n).run.run c = (.ok n, c) := by
  cases steps with
  | zero => rfl
  | succ steps => rw [run_typeNameEnd_succ, h, if_neg Bool.false_ne_true]

theorem goesOn_of_length_le {c : Cursor} {n : Nat} (h : c.rest.length ≤ n) : goesOn c n = false := by
  have heof : c.ahead n = .eof := by rw [Cursor.ahead, List.getElem?_eq_none h]; rfl
  rw [goesOn, heof]
  rfl

/-- A type name goes on in both runs or in neither, and never into the gap. -/
theorem goesOn_agrees {c d : Cursor} {n : Nat} (h : g.Related c d)
    (hn : ∀ i < n, c.ahead i = d.ahead i) :
    goesOn d n = goesOn c n ∧ (goesOn c n = true → ∀ i < n + 2, c.ahead i = d.ahead i) := by
  rcases h.ahead hn with hfirst | ⟨hc, hd⟩
  · have hn' : ∀ i < n + 1, c.ahead i = d.ahead i := fun i hi => by
      rcases Nat.lt_succ_iff_lt_or_eq.mp hi with hi | rfl
      · exact hn i hi
      · exact hfirst
    rcases h.ahead hn' with hsecond | ⟨hc, hd⟩
    · refine ⟨by rw [goesOn, goesOn, hfirst, hsecond], fun _ i hi => ?_⟩
      rcases Nat.lt_succ_iff_lt_or_eq.mp hi with hi | rfl
      · exact hn' i hi
      · exact hsecond
    · have hno : ∀ {e : Cursor} {s}, s = ";" ∨ s = "\x7d" → e.ahead (n + 1) = .punct s →
          goesOn e n = false := fun hs he => by
        rw [goesOn, he]
        rcases hs with rfl | rfl <;> simp [isAnyWord]
      rw [hno (.inl rfl) hc, hno (.inr rfl) hd]
      exact ⟨rfl, fun h => absurd h Bool.false_ne_true⟩
  · have hno : ∀ {e : Cursor} {s}, s = ";" ∨ s = "\x7d" → e.ahead n = .punct s →
        goesOn e n = false := fun hs he => by
      rw [goesOn, he]
      rcases hs with rfl | rfl <;> rfl
    rw [hno (.inl rfl) hc, hno (.inr rfl) hd]
    exact ⟨rfl, fun h => absurd h Bool.false_ne_true⟩

/-- A type name ends at the same place in both runs, in front of the gap or at it. -/
theorem typeNameEnd_agrees {c d : Cursor} (h : g.Related c d) (steps steps' : Nat) {n : Nat}
    (hsteps : c.rest.length ≤ n + steps) (hsteps' : d.rest.length ≤ n + steps')
    (hn : ∀ i < n, c.ahead i = d.ahead i) :
    ∃ e, (typeNameEnd steps n).run.run c = (.ok e, c) ∧
      (typeNameEnd steps' n).run.run d = (.ok e, d) ∧ ∀ i < e, c.ahead i = d.ahead i := by
  induction steps generalizing steps' n with
  | zero =>
    obtain ⟨hsame, -⟩ := goesOn_agrees h hn
    exact ⟨n, rfl, run_typeNameEnd_of_not (hsame.trans (goesOn_of_length_le hsteps)) steps', hn⟩
  | succ steps ih =>
    obtain ⟨hsame, htwo⟩ := goesOn_agrees h hn
    cases hgoes : goesOn c n with
    | false =>
      exact ⟨n, run_typeNameEnd_of_not hgoes _, run_typeNameEnd_of_not (hsame.trans hgoes) _, hn⟩
    | true =>
      cases steps' with
      | zero =>
        rw [goesOn_of_length_le (n := n) hsteps', hgoes] at hsame
        cases hsame
      | succ steps' =>
        rw [run_typeNameEnd_succ, run_typeNameEnd_succ, hsame, hgoes, if_pos rfl, if_pos rfl]
        exact ih _ (by omega) (by omega) (htwo hgoes)

/-- No declaration of a local variable starts with punctuation. -/
theorem run_startsLocal_punct {c : Cursor} {s : String} (hc : c.log.language = .csharp)
    (hnext : c.next = .punct s) : startsLocal.run.run c = (.ok false, c) := by
  have hasked := tells_isIdentifier c hc
  rw [hnext] at hasked
  rw [startsLocal, run_bind_of_ok (tells_typeKeyword? c hc), hnext]
  exact run_bind_of_ok hasked

theorem asks_startsLocal : Asks g N startsLocal startsLocal where
  looks := looks_startsLocal
  agrees {c d} hcd _ := by
    have hremaining : ∀ c : Cursor, remaining.run.run c = (.ok c.rest.length, c) := fun _ => rfl
    rcases hcd.next with hnext | ⟨hc, hd⟩
    · rw [startsLocal, run_bind_of_ok (tells_typeKeyword? c hcd.left),
        run_bind_of_ok (tells_typeKeyword? d hcd.right), ← hnext]
      cases keywordType? c.next with
      | some type => exact ⟨_, rfl, rfl⟩
      | none =>
        dsimp only
        rw [run_bind_of_ok (tells_isIdentifier c hcd.left),
          run_bind_of_ok (tells_isIdentifier d hcd.right), ← hnext]
        cases isIdentifier c.next with
        | false => exact ⟨_, rfl, rfl⟩
        | true =>
          have hfirst : ∀ i < 1, c.ahead i = d.ahead i := fun i hi => by
            obtain rfl : i = 0 := by omega
            exact hnext
          obtain ⟨e, hce, hde, he⟩ := typeNameEnd_agrees hcd c.rest.length d.rest.length
            (Nat.le_add_left _ 1) (Nat.le_add_left _ 1) hfirst
          rw [if_pos rfl, run_bind_of_ok (hremaining c), run_bind_of_ok (hremaining d),
            run_bind_of_ok hce, run_bind_of_ok hde, run_isIdentifierAt e hcd.left,
            run_isIdentifierAt e hcd.right]
          rcases hcd.ahead he with h | ⟨h, h'⟩
          · rw [h]
            exact ⟨_, rfl, rfl⟩
          · rw [h, h']
            exact ⟨_, rfl, rfl⟩
    · exact ⟨false, run_startsLocal_punct hcd.left hc, run_startsLocal_punct hcd.right hd⟩

theorem lockstep_initializer : Lockstep g N r 0 initializer initializer :=
  .eatPunct (by decide) (fun _ => lockstep_expression.bind fun _ _ => .pure _) (.pure none)

theorem lockstep_declarators (type : Option TypeUse) {n m : Nat} (hn : r < n)
    (hm : r < m + g.removed.length) :
    Lockstep g N r 1 (declarators type n) (declarators type m) := by
  refine Lockstep.loop (F := fun n (_ : Unit) => declarators type n) (i := ())
    (fun {N n m r i} hn hm ih => ?_) hn hm
  rw [declarators, declarators]
  refine .of_same le_rfl (.position fun _ => lockstep_identifier.bind fun _ name => ?_)
  refine lockstep_initializer.bind fun _ init => ?_
  refine .eatPunct (by decide) (fun _ => ?_) (.pure _)
  exact ((ih (i := i) (by omega) (by omega)).bind fun _ _ => .pure _).weaken (Nat.zero_le 1)

theorem lockstep_localDeclaration : Lockstep g N r 1 localDeclaration localDeclaration := by
  refine .pair (tells_isWord "var") asks_isAnyWord ⟨rfl, rfl⟩ (fun t ht => ?_) ?_
  · refine .read (fun h => ?_) fun _ _ => ?_
    · rw [h] at ht
      cases ht
    refine (Lockstep.pure none).bind fun _ type => .remaining fun n m _ hm hm' => ?_
    exact (lockstep_declarators type (Nat.lt_succ_self n) hm').weaken (Nat.zero_le 1)
  · refine lockstep_typeUse.map.bind fun _ type => .remaining fun n m _ hm hm' => ?_
    exact (lockstep_declarators type (Nat.lt_succ_self n) hm').weaken (Nat.zero_le 1)

theorem lockstep_simpleStatement : Lockstep g N r 1 simpleStatement simpleStatement := by
  refine .of_same le_rfl (.position fun pos => ?_)
  refine .eatPunct (by decide)
    (fun _ => .weaken (j := 0) (lockstep_unaryExpression.bind fun _ _ => .pure _) (Nat.zero_le 1)) ?_
  refine .eatPunct (by decide)
    (fun _ => .weaken (j := 0) (lockstep_unaryExpression.bind fun _ _ => .pure _) (Nat.zero_le 1)) ?_
  refine lockstep_expression.bind fun _ target => ?_
  refine .eatPunct (by decide) (fun _ => .pure _) (.eatPunct (by decide) (fun _ => .pure _) ?_)
  have hexpr : ∀ {M}, Lockstep g M (r - 1) 0
      (do
        unless isEffect target do report target.pos .notAStatement
        return Stmt.expr pos target)
      (do
        unless isEffect target do report target.pos .notAStatement
        return Stmt.expr pos target) :=
    .ite (fun _ => .pure _) fun _ => (Lockstep.report _ _ _).bind fun _ _ => .pure _
  refine .cases_next (fun t => .lexeme ?_) (.lexeme ?_)
  · dsimp only
    cases t with
    | punct p =>
      dsimp only
      split
      · exact .read (by simp) fun _ _ => lockstep_expression.bind fun _ _ => .weaken (.pure _) (Nat.zero_le _)
      · exact hexpr
    | _ => exact hexpr
  · exact hexpr

theorem lockstep_parenthesized : Lockstep g N r 1 parenthesized parenthesized := by
  refine (lockstep_expectPunct "(").bind fun _ _ => ?_
  refine (lockstep_expression.weaken (Nat.zero_le 1)).bind fun _ e => ?_
  exact ((lockstep_expectPunct ")").bind fun _ _ => .pure e).weaken (Nat.zero_le 1)

theorem lockstep_valueAndSemicolon : Lockstep g N r 1 valueAndSemicolon valueAndSemicolon := by
  refine .of_same le_rfl (.cases_same fun t => .told (tells_isPunct ";") ?_)
  by_cases ht : t = .punct ";"
  · subst ht
    exact .pure_bind (lockstep_semicolon.bind fun _ _ => .pure none)
  · rw [decide_eq_false ht]
    refine lockstep_expression.map.bind fun _ value => ?_
    exact lockstep_expectSemicolon.bind fun _ _ => .pure value

theorem lockstep_catchHead (pos : Position) : Lockstep g N r 0 (catchHead pos) (catchHead pos) := by
  refine .eatPunct (by decide) (fun _ => ?_) (.pure _)
  refine (lockstep_typeUse.weaken (Nat.zero_le 1)).bind fun _ type => ?_
  refine .asks (asks_isPunct (by decide)) fun _ => ?_
  refine .ite_bind (.pure none) (lockstep_identifier.map.weaken (Nat.zero_le 1)) fun _ var => ?_
  exact ((lockstep_expectPunct ")").bind fun _ _ => .pure _).weaken (Nat.zero_le 1)

/-- At a semicolon nothing initialises the loop, so this is asked in front of the gap only. -/
theorem lockstep_forInit : Lockstep g Same r 0 forInit forInit := by
  refine .asks (.of_tells (tells_isPunct ";") (looks_isPunctAt 0 ";")
    fun h => absurd h not_same_torn) fun _ => .ite (fun _ => .pure []) fun _ => ?_
  refine .asks asks_startsLocal fun _ => ?_
  exact .ite (fun _ => lockstep_localDeclaration.weaken (Nat.zero_le 1))
    fun _ => (lockstep_simpleStatement.bind fun _ _ => .pure _).weaken (Nat.zero_le 1)

/-! ### Heads of statements -/

theorem ite_bind {α β : Type} {b : Prop} [Decidable b] (p q : Parser α) (f : α → Parser β) :
    (if b then p else q) >>= f = if b then p >>= f else q >>= f := by
  split <;> rfl

/-- A statement without a keyword, without its semicolon. -/
def plain : Parser (List Stmt) := do
  if ← startsLocal then localDeclaration else return [← simpleStatement]

/-- What stands in front of the body of a `for` loop, behind its keyword. -/
def forHead : Parser (List Stmt × Option Expr × Option Stmt) := do
  expectPunct "("
  let init ← forInit
  expectPunct ";"
  let cond ← if ← isPunct ";" then pure none else some <$> expression
  expectPunct ";"
  let step ← if ← isPunct ")" then pure none else some <$> simpleStatement
  expectPunct ")"
  return (init, cond, step)

/-- The handler of a `try` statement, if there is one. -/
def handler (depth : Nat) : Parser (Option (CatchHead × List Stmt)) := do
  let catchPos ← position
  if ← eatWord "catch" then
    let head ← catchHead catchPos
    return some (head, (← block depth).1)
  return none

/-- A `try` statement behind its parts. -/
def tryStatement (pos : Position) (body : List Stmt) (handler : Option (CatchHead × List Stmt))
    (finally_ : Option (List Stmt)) : Parser (List Stmt) := do
  if handler.isNone && finally_.isNone then fail (← position) .expectedOpenBrace
  return [.try_ pos body handler finally_]

/-- A `try` statement behind its handler. -/
def tryEnd (depth : Nat) (pos : Position) (body : List Stmt)
    (handler : Option (CatchHead × List Stmt)) : Parser (List Stmt) := do
  let finally_ ← if ← eatWord "finally" then do pure (some (← block depth).1) else pure none
  tryStatement pos body handler finally_

/-- A statement that starts with this lexeme. -/
def statementFrom (depth : Nat) (pos : Position) : Lexeme → Parser (List Stmt)
  | .punct "\x7b" => do return [.block pos (← block depth).1]
  | .punct ";" => do
    let _ ← advance
    return [.block pos []]
  | .word "if" => do
    let _ ← advance
    let cond ← parenthesized
    let then_ ← embedded depth
    let else_ ← if ← eatWord "else" then some <$> embedded depth else pure none
    return [.if_ pos cond then_ else_]
  | .word "while" => do
    let _ ← advance
    let cond ← parenthesized
    return [.while_ pos .while_ (some cond) (← embedded depth) none]
  | .word "do" => do
    let _ ← advance
    let body ← embedded depth
    unless ← eatWord "while" do unexpected
    let cond ← parenthesized
    expectSemicolon
    return [.doWhile pos body cond false]
  | .word "for" => do
    let _ ← advance
    let (init, cond, step) ← forHead
    let body ← embedded depth
    return [.block pos (init ++ [.while_ pos .for_ cond body step])]
  | .word "break" => do
    let _ ← advance
    expectSemicolon
    return [.break_ pos none]
  | .word "continue" => do
    let _ ← advance
    expectSemicolon
    return [.continue_ pos none]
  | .word "return" => do
    let _ ← advance
    return [.return_ pos (← valueAndSemicolon)]
  | .word "throw" => do
    let _ ← advance
    return [.throw_ pos (← valueAndSemicolon)]
  | .word "try" => do
    let _ ← advance
    let (body, _) ← block depth
    tryEnd depth pos body (← handler depth)
  | _ => do
    let declared ← plain
    expectSemicolon
    return declared

theorem statement_eq (depth : Nat) :
    statement (depth + 1) = (do statementFrom depth (← position) (← lexeme)) := by
  rw [statement]
  refine congrArg _ (funext fun pos => congrArg _ (funext fun t => ?_))
  split
  case h_6 | h_11 | h_12 =>
    simp only [statementFrom, plain, forHead, handler, tryEnd, tryStatement, bind_assoc, pure_bind,
      ite_bind]
  all_goals rfl

theorem lockstep_plain : Lockstep g N r 1 plain plain :=
  .asks asks_startsLocal fun _ =>
    .ite (fun _ => lockstep_localDeclaration) fun _ => lockstep_simpleStatement.bind fun _ _ => .pure _

theorem lockstep_tryStatement (pos : Position) (body : List Stmt)
    (handler : Option (CatchHead × List Stmt)) (finally_ : Option (List Stmt)) :
    Lockstep g N r 0 (tryStatement pos body handler finally_) (tryStatement pos body handler finally_) :=
  .ite (fun _ => .looks looks_position looks_position fun _ _ => .fail_bind _) fun _ => .pure _

theorem lockstep_forHead : Lockstep g N r 1 forHead forHead := by
  refine (lockstep_expectPunct "(").bind fun _ _ => .weaken (.of_same le_rfl ?_) (Nat.zero_le 1)
  refine lockstep_forInit.bind fun _ init => (lockstep_expectPunct ";").bind fun _ _ => ?_
  refine .weaken (.of_same le_rfl (.asks ?_ fun _ => ?_)) (Nat.zero_le 1)
  · exact .of_tells (tells_isPunct ";") (looks_isPunctAt 0 ";") fun h => absurd h not_same_torn
  refine .ite_bind (.pure none) (lockstep_expression.map.weaken (Nat.zero_le 1)) fun _ cond => ?_
  refine (lockstep_expectPunct ";").bind fun _ _ => .asks (asks_isPunct (by decide)) fun _ => ?_
  refine .ite_bind (.pure none) (lockstep_simpleStatement.map.weaken (Nat.zero_le 1))
    fun _ step => ?_
  exact ((lockstep_expectPunct ")").bind fun _ _ => .pure _).weaken (Nat.zero_le 1)

/-! ### Blocks -/

/-- The depth that the second run of the parsers of statements needs with `r` lexemes before the end of
the file. -/
structure StatementSteps (g : Gap) (depth m : Nat) : Prop where
  block : ∀ {N r}, 16 * r + 1 ≤ m → Lockstep g N r 1 (CSharp.block depth) (CSharp.block m)
  statement : ∀ {N r}, 16 * r + 2 ≤ m → Lockstep g N r 1 (CSharp.statement depth) (CSharp.statement m)
  statements : ∀ {N r}, 16 * r + 3 ≤ m →
    Lockstep g N r 1 (CSharp.statements depth) (CSharp.statements m)
  embedded : ∀ {N r}, 16 * r + 3 ≤ m → Lockstep g N r 1 (CSharp.embedded depth) (CSharp.embedded m)

namespace StatementSteps

theorem zero_left : StatementSteps g 0 m where
  block _ := by rw [CSharp.block]; exact .throw _
  statement _ := by rw [CSharp.statement]; exact .throw _
  statements _ := by rw [CSharp.statements]; exact .throw _
  embedded _ := by rw [CSharp.embedded]; exact .throw _

theorem zero_right : StatementSteps g depth 0 where
  block h := by omega
  statement h := by omega
  statements h := by omega
  embedded h := by omega

theorem block_succ (h : StatementSteps g depth m) (hm : 16 * r + 1 ≤ m + 1) :
    Lockstep g N r 1 (CSharp.block (depth + 1)) (CSharp.block (m + 1)) := by
  rw [CSharp.block, CSharp.block]
  exact (lockstep_expectPunct _).bind fun _ _ => (h.statements (by omega)).weaken (Nat.zero_le 1)

theorem statements_succ (h : StatementSteps g depth m) (hm : 16 * r + 3 ≤ m + 1) :
    Lockstep g N r 1 (CSharp.statements (depth + 1)) (CSharp.statements (m + 1)) := by
  rw [CSharp.statements, CSharp.statements]
  refine .of_same le_rfl (.position fun pos => .eatPunct_same (fun _ => .pure _) ?_)
  refine .asks (.of_tells tells_atEof looks_atEof fun h => absurd h not_same_torn) fun _ => ?_
  refine .ite (fun _ => .fail_bind _) fun _ => (h.statement (by omega)).bind fun _ first => ?_
  exact ((h.statements (by omega)).bind fun _ _ => .pure _).weaken (Nat.zero_le 1)

theorem embedded_succ (h : StatementSteps g depth m) (hm : 16 * r + 3 ≤ m + 1) :
    Lockstep g N r 1 (CSharp.embedded (depth + 1)) (CSharp.embedded (m + 1)) := by
  rw [CSharp.embedded, CSharp.embedded]
  refine .of_same le_rfl (.asks (asks_isPunct (by decide)) fun _ => .ite (fun _ => ?_) fun _ => ?_)
  · exact .position fun pos => (h.block (by omega)).bind fun _ _ => .pure _
  · exact h.statement (by omega)

theorem handler (h : StatementSteps g depth m) (hm : 16 * r + 1 ≤ m) :
    Lockstep g N r 0 (CSharp.handler depth) (CSharp.handler m) := by
  refine .cases_next (fun t => ?_) ?_
  · refine .imp (.position fun catchPos => .eatWord (fun _ => ?_) (.pure none)) same_of_next
    refine (lockstep_catchHead catchPos).bind fun _ _ => ?_
    exact ((h.block (by omega)).weaken (Nat.zero_le 1)).bind fun _ _ => .pure _
  · refine .looks looks_position looks_position fun _ _ => ?_
    exact .untaken (takes_eatWord "catch") rfl rfl (.pure none)

theorem tryEnd (h : StatementSteps g depth m) (hm : 16 * r ≤ m) (pos : Position)
    (body : List Stmt) (handler : Option (CatchHead × List Stmt)) :
    Lockstep g N r 0 (CSharp.tryEnd depth pos body handler) (CSharp.tryEnd m pos body handler) := by
  refine .eatWord (fun _ => ((h.block (by omega)).weaken (Nat.zero_le 1)).bind fun _ _ => ?_)
    (.pure_bind (lockstep_tryStatement pos body handler none))
  exact .pure_bind (lockstep_tryStatement pos body handler _)

theorem statement_succ (h : StatementSteps g depth m) (hm : 16 * r + 2 ≤ m + 1) :
    Lockstep g N r 1 (CSharp.statement (depth + 1)) (CSharp.statement (m + 1)) := by
  rw [statement_eq, statement_eq]
  refine .of_same le_rfl (.position fun pos => .cases_same fun t => .lexeme ?_)
  unfold statementFrom
  split
  · exact (h.block (by omega)).bind fun _ _ => .pure _
  · exact .read (by simp) fun _ _ => .pure _
  · refine .read (by simp) fun _ _ => (lockstep_parenthesized.weaken (Nat.zero_le 1)).bind fun _ cond => ?_
    refine ((h.embedded (by omega)).weaken (Nat.zero_le 1)).bind fun _ then_ => ?_
    exact .optional (takes_eatWord "else") (fun _ => ⟨rfl, rfl⟩) (fun _ => h.embedded (by omega))
      fun _ _ => .pure _
  · refine .read (by simp) fun _ _ => (lockstep_parenthesized.weaken (Nat.zero_le 1)).bind fun _ cond => ?_
    exact ((h.embedded (by omega)).weaken (Nat.zero_le 1)).bind fun _ _ => .pure _
  · refine .read (by simp) fun _ _ => ((h.embedded (by omega)).weaken (Nat.zero_le 1)).bind fun _ body => ?_
    refine .eatWord (fun _ => ?_) .unexpected_bind
    refine (lockstep_parenthesized.weaken (Nat.zero_le 1)).bind fun _ cond => ?_
    exact lockstep_expectSemicolon.bind fun _ _ => .pure _
  · refine .read (by simp) fun _ _ => (lockstep_forHead.weaken (Nat.zero_le 1)).bind fun _ head => ?_
    exact ((h.embedded (by omega)).weaken (Nat.zero_le 1)).bind fun _ _ => .pure _
  · exact .read (by simp) fun _ _ => lockstep_expectSemicolon.bind fun _ _ => .pure _
  · exact .read (by simp) fun _ _ => lockstep_expectSemicolon.bind fun _ _ => .pure _
  · exact .read (by simp) fun _ _ =>
      (lockstep_valueAndSemicolon.weaken (Nat.zero_le 1)).bind fun _ _ => .pure _
  · exact .read (by simp) fun _ _ =>
      (lockstep_valueAndSemicolon.weaken (Nat.zero_le 1)).bind fun _ _ => .pure _
  · refine .read (by simp) fun _ _ => ((h.block (by omega)).weaken (Nat.zero_le 1)).bind fun _ body => ?_
    exact (h.handler (by omega)).bind fun _ handler => h.tryEnd (by omega) pos body.1 handler
  · exact lockstep_plain.bind fun _ _ => lockstep_expectSemicolon.bind fun _ _ => .pure _

theorem succ (h : StatementSteps g depth m) : StatementSteps g (depth + 1) (m + 1) where
  block := h.block_succ
  statement := h.statement_succ
  statements := h.statements_succ
  embedded := h.embedded_succ

end StatementSteps

theorem statementSteps (g : Gap) (depth m : Nat) : StatementSteps g depth m := by
  induction depth generalizing m with
  | zero => exact .zero_left
  | succ depth ih =>
    cases m with
    | zero => exact .zero_right
    | succ m => exact (ih m).succ

/-! ### Members -/

theorem lockstep_parameters {n m : Nat} (hn : r < n) (hm : r < m + g.removed.length) :
    Lockstep g N r 1 (parameters n) (parameters m) := by
  refine Lockstep.loop (F := fun n (_ : Unit) => parameters n) (i := ())
    (fun {N n m r i} hn hm ih => ?_) hn hm
  rw [parameters, parameters]
  refine lockstep_typeUse.bind fun _ type => .weaken (.of_same le_rfl ?_) (Nat.zero_le 1)
  refine .position fun pos => lockstep_identifier.bind fun _ name => ?_
  refine .eatPunct (by decide) (fun _ => ?_) (.pure _)
  exact ((ih (i := i) (by omega) (by omega)).weaken (Nat.zero_le 1)).bind fun _ _ => .pure _

/-- What stands between the name of a method and its body. -/
def parameterList : Parser (List Param) := do
  expectPunct "("
  let params ← if ← isPunct ")" then pure [] else do parameters (← remaining)
  expectPunct ")"
  return params

theorem method_eq (name : String) (ret : TypeUse) (access : Option Access) (isStatic : Bool)
    (pos : Position) : method name ret access isStatic pos = (do
      let params ← parameterList
      let (body, endPos) ← block (← depthBound)
      return { name, ret, params, access, isStatic, body, pos, endPos }) := by
  simp only [method, parameterList, bind_assoc, pure_bind, ite_bind]

theorem lockstep_parameterList : Lockstep g N r 1 parameterList parameterList := by
  refine (lockstep_expectPunct "(").bind fun _ _ => .asks (asks_isPunct (by decide)) fun _ => ?_
  have hclose : ∀ {M n} (params : List Param), Lockstep g M n 0 (do expectPunct ")"; return params)
      (do expectPunct ")"; return params) := fun params =>
    ((lockstep_expectPunct ")").weaken (Nat.zero_le 1)).bind fun _ _ => .pure params
  refine .ite (fun _ => .pure_bind (hclose [])) fun _ => .remaining fun n m _ _ hm => ?_
  exact ((lockstep_parameters (Nat.lt_succ_self n) hm).weaken (Nat.zero_le 1)).bind fun _ _ => hclose _

theorem lockstep_method {name : String} {ret : TypeUse} {access : Option Access} {isStatic : Bool}
    {pos : Position} : Lockstep g N r 1 (method name ret access isStatic pos)
      (method name ret access isStatic pos) := by
  rw [method_eq]
  refine lockstep_parameterList.bind fun _ params => .depthBound fun n m _ hm => ?_
  exact (((statementSteps g _ _).block (by omega)).weaken (Nat.zero_le 1)).bind fun _ _ => .pure _

theorem lockstep_fields {type : TypeUse} {access : Option Access} {isStatic : Bool} {n m : Nat}
    {name : String} {pos : Position} (hn : r < n) (hm : r < m + g.removed.length) :
    Lockstep g N r 0 (fields type access isStatic n name pos) (fields type access isStatic m name pos) := by
  refine Lockstep.loop (F := fun n (i : String × Position) => fields type access isStatic n i.1 i.2)
    (i := (name, pos)) (fun {N n m r i} hn hm ih => ?_) hn hm
  rw [fields, fields]
  refine lockstep_initializer.bind fun _ init => ?_
  refine .eatPunct (by decide) (fun _ => .weaken (.of_same le_rfl ?_) (Nat.zero_le 1)) (.pure _)
  refine .position fun pos => lockstep_identifier.bind fun _ name => ?_
  exact (ih (i := (name, pos)) (by omega) (by omega)).bind fun _ _ => .pure _

/-- What stands in front of a field or a method behind its modifiers: its type, the position of its name
and the name. -/
def memberHead (pos : Position) : Parser (TypeUse × Position × String) := do
  unless (← typeKeyword?).isSome || (← isIdentifierAt 0) do
    fail pos (.syntaxError (← describe))
  let type ← typeUse
  let namePos ← position
  let name ← identifier
  return (type, namePos, name)

theorem member_eq (access : Option Access) (isStatic : Bool) (pos : Position) (ms : Members) :
    member access isStatic pos ms = (do
      let (type, namePos, name) ← memberHead pos
      if ← isPunct "(" then
        let declared ← method name type access isStatic namePos
        return { ms with methods := ms.methods ++ [declared] }
      else
        let declared ← fields type access isStatic (← remaining) name namePos
        expectSemicolon
        return { ms with fields := ms.fields ++ declared }) := by
  simp only [member, memberHead, bind_assoc, pure_bind, ite_bind]

theorem lockstep_memberHead (pos : Position) : Lockstep g N r 1 (memberHead pos) (memberHead pos) := by
  refine .asks (.of_tells tells_typeKeyword? looks_typeKeyword? fun _ => rfl) fun _ => ?_
  refine .asks (.of_tells tells_isIdentifier (looks_isIdentifierAt 0) fun _ => rfl) fun _ => ?_
  refine .ite (fun _ => ?_) fun _ => .looks looks_describe looks_describe fun _ _ => .fail_bind _
  refine lockstep_typeUse.bind fun _ type => .weaken (.of_same le_rfl ?_) (Nat.zero_le 1)
  exact .position fun namePos => lockstep_identifier.bind fun _ name => .pure _

theorem lockstep_member {access : Option Access} {isStatic : Bool} {pos : Position}
    {ms : Members} : Lockstep g N r 1 (member access isStatic pos ms) (member access isStatic pos ms) := by
  rw [member_eq]
  refine (lockstep_memberHead pos).bind fun _ head => .asks (asks_isPunct (by decide)) fun _ => ?_
  refine .ite (fun _ => (lockstep_method.weaken (Nat.zero_le 1)).bind fun _ _ => .pure _) fun _ => ?_
  refine .remaining fun n m _ _ hm => (lockstep_fields (Nat.lt_succ_self n) hm).bind fun _ _ => ?_
  exact lockstep_expectSemicolon.bind fun _ _ => .pure _

/-! ### Declarations -/

/-- The depth that the second run of the parsers of classes needs with `r` lexemes before the end of the
file. -/
structure ClassSteps (g : Gap) (depth m : Nat) : Prop where
  typeDeclaration : ∀ {N r namespace_ access isStatic pos}, 16 * r + 1 ≤ m →
    Lockstep g N r 1 (CSharp.typeDeclaration namespace_ access isStatic pos depth)
      (CSharp.typeDeclaration namespace_ access isStatic pos m)
  members : ∀ {N r ms}, 16 * r + 2 ≤ m →
    Lockstep g N r 1 (CSharp.members depth ms) (CSharp.members m ms)

namespace ClassSteps

theorem typeDeclaration_succ (h : ClassSteps g depth m) {namespace_ : String}
    {access : Option Access} {isStatic : Bool} {pos : Position} (hm : 16 * r + 1 ≤ m + 1) :
    Lockstep g N r 1 (CSharp.typeDeclaration namespace_ access isStatic pos (depth + 1))
      (CSharp.typeDeclaration namespace_ access isStatic pos (m + 1)) := by
  rw [CSharp.typeDeclaration, CSharp.typeDeclaration]
  refine Lockstep.advance.bind fun _ _ => lockstep_identifier.bind fun _ name => ?_
  refine ((lockstep_expectPunct _).bind fun _ _ => ?_).weaken (Nat.zero_le 1)
  exact ((h.members (by omega)).weaken (Nat.zero_le 1)).bind fun _ ms => .pure _

theorem members_succ (h : ClassSteps g depth m) {ms : Members} (hm : 16 * r + 2 ≤ m + 1) :
    Lockstep g N r 1 (CSharp.members (depth + 1) ms) (CSharp.members (m + 1) ms) := by
  rw [CSharp.members, CSharp.members]
  refine .of_same le_rfl (.eatPunct_same (fun _ => .pure _) (.position fun pos => ?_))
  refine .asks (.of_tells tells_atEof looks_atEof fun h => absurd h not_same_torn) fun _ => ?_
  refine .ite (fun _ => .fail_bind _) fun _ => lockstep_modifiers.bind fun _ _ => ?_
  refine .asks (.of_tells (tells_isWord "class") (looks_isWordAt 0 "class") fun _ => rfl) fun _ => ?_
  refine .ite (fun _ => ?_) fun _ => lockstep_member.bind fun _ ms => ?_
  · refine (h.typeDeclaration (by omega)).bind fun _ inner => ?_
    exact (h.members (by omega)).weaken (Nat.zero_le 1)
  · exact (h.members (by omega)).weaken (Nat.zero_le 1)

end ClassSteps

theorem classSteps (g : Gap) (depth m : Nat) : ClassSteps g depth m := by
  induction depth generalizing m with
  | zero =>
    exact ⟨fun _ => by rw [typeDeclaration]; exact .throw _, fun _ => by rw [members]; exact .throw _⟩
  | succ depth ih =>
    cases m with
    | zero => exact ⟨fun h => by omega, fun h => by omega⟩
    | succ m => exact ⟨(ih m).typeDeclaration_succ, (ih m).members_succ⟩

theorem lockstep_usingDirective (pos : Position) :
    Lockstep g N r 1 (usingDirective pos) (usingDirective pos) :=
  lockstep_qualifiedName.bind fun _ _ => lockstep_expectSemicolon.bind fun _ _ => .pure _

theorem lockstep_usingDirectives {n m : Nat} (hn : r < n) (hm : r < m + g.removed.length) :
    Lockstep g N r 0 (usingDirectives n) (usingDirectives m) := by
  refine Lockstep.loop (F := fun n (_ : Unit) => usingDirectives n) (i := ())
    (fun {N n m r i} hn hm ih => ?_) hn hm
  rw [usingDirectives, usingDirectives]
  refine .cases_next (fun t => ?_) ?_
  · refine .imp (.position fun pos => .eatWord (fun _ => ?_) (.pure [])) same_of_next
    refine ((lockstep_usingDirective pos).weaken (Nat.zero_le 1)).bind fun _ _ => ?_
    exact (ih (i := i) (by omega) (by omega)).bind fun _ _ => .pure _
  · refine .looks looks_position looks_position fun _ _ => ?_
    exact .untaken (takes_eatWord "using") rfl rfl (.pure [])

/-- A namespace or a class with what follows it. -/
def declaration (depth : Nat) (namespace_ : String) (nested : Bool) (unit : CompilationUnit)
    (pos : Position) : Parser CompilationUnit := do
  if ← eatWord "namespace" then
    let name ← qualifiedName
    let full := if namespace_.isEmpty then name else namespace_ ++ "." ++ name
    expectPunct "\x7b"
    let unit ← declarations depth full true unit
    expectPunct "\x7d"
    declarations depth namespace_ nested unit
  else
    let (access, isStatic) ← modifiers
    unless ← isWord "class" do fail pos .topLevelExpected
    let declared ← typeDeclaration namespace_ access isStatic pos (← depthBound)
    declarations depth namespace_ nested { unit with types := unit.types ++ [declared] }

theorem declarations_top (depth : Nat) (namespace_ : String) (unit : CompilationUnit) :
    declarations (depth + 1) namespace_ false unit = (do
      let pos ← position
      if ← atEof then return unit
      declaration depth namespace_ false unit pos) := by
  rw [declarations]
  rfl

theorem declarations_nested (depth : Nat) (namespace_ : String) (unit : CompilationUnit) :
    declarations (depth + 1) namespace_ true unit = (do
      if ← isPunct "\x7d" then return unit
      let pos ← position
      if ← atEof then fail pos .expectedCloseBrace
      if ← eatWord "using" then
        let directive ← usingDirective pos
        declarations depth namespace_ true { unit with imports := unit.imports ++ [directive] }
      else declaration depth namespace_ true unit pos) := by
  rw [declarations]
  simp only [if_true]
  rfl

/-- No declaration starts with a semicolon. -/
theorem declaration_fails {c : Cursor} (hc : c.log.language = .csharp) (hnext : c.next = .punct ";")
    {namespace_ : String} {nested : Bool} {unit x : CompilationUnit} {pos : Position} {c' : Cursor} :
    (declaration depth namespace_ nested unit pos).run.run c ≠ (.ok x, c') := by
  have hnamespace := (takes_eatWord "namespace").no c hc (hnext ▸ rfl)
  have hclass : (isWord "class").run.run c = (.ok false, c) := by
    rw [tells_isWord "class" c hc, hnext]
    rfl
  rw [declaration, run_bind_of_ok hnamespace, if_neg Bool.false_ne_true,
    run_bind_of_ok (run_modifiers_of_not (hnext ▸ rfl)), run_bind_of_ok hclass]
  rintro ⟨⟩

theorem declarations_fail {c : Cursor} (hc : c.log.language = .csharp) (hnext : c.next = .punct ";")
    {namespace_ : String} {nested : Bool} {unit x : CompilationUnit} {c' : Cursor} :
    (declarations depth namespace_ nested unit).run.run c ≠ (.ok x, c') := by
  have hposition : position.run.run c = (.ok (c.rest.headD ⟨.eof, {}, {}⟩).start, c) := rfl
  have heof : atEof.run.run c = (.ok false, c) := by
    rw [tells_atEof c hc, hnext]
    rfl
  cases depth with
  | zero =>
    rw [declarations]
    rintro ⟨⟩
  | succ depth =>
    cases nested with
    | false =>
      rw [declarations_top, run_bind_of_ok hposition, run_bind_of_ok heof]
      exact declaration_fails hc hnext
    | true =>
      have hclose : (isPunct "\x7d").run.run c = (.ok false, c) := by
        rw [tells_isPunct "\x7d" c hc, hnext]
        rfl
      have husing := (takes_eatWord "using").no c hc (hnext ▸ rfl)
      rw [declarations_nested, run_bind_of_ok hclose, if_neg Bool.false_ne_true,
        run_bind_of_ok hposition, run_bind_of_ok heof, if_neg Bool.false_ne_true,
        run_bind_of_ok husing]
      exact declaration_fails hc hnext

theorem lockstep_declaration {namespace_ : String} {nested : Bool} {unit : CompilationUnit}
    (pos : Position) (hm : 16 * r + 1 ≤ m + 1)
    (ih : ∀ {N n namespace_ nested unit}, 16 * n + 1 ≤ m →
      Lockstep g N n 0 (declarations depth namespace_ nested unit) (declarations m namespace_ nested unit)) :
    Lockstep g N r 1 (declaration depth namespace_ nested unit pos)
      (declaration m namespace_ nested unit pos) := by
  rw [declaration, declaration]
  refine .eatWord (fun _ => (lockstep_qualifiedName.weaken (Nat.zero_le 1)).bind fun _ name => ?_) ?_
  · refine ((lockstep_expectPunct _).weaken (Nat.zero_le 1)).bind fun _ _ => ?_
    refine (ih (by omega)).bind fun _ unit => ?_
    exact ((lockstep_expectPunct _).weaken (Nat.zero_le 1)).bind fun _ _ => ih (by omega)
  · refine lockstep_modifiers.bind fun _ _ => ?_
    refine .asks (.of_tells (tells_isWord "class") (looks_isWordAt 0 "class") fun _ => rfl) fun _ => ?_
    refine .ite (fun _ => .depthBound fun n m _ _ => ?_) fun _ => .fail_bind _
    refine ((classSteps g _ _).typeDeclaration (by omega)).bind fun _ _ => ?_
    exact ih (by omega)

theorem lockstep_declarations {namespace_ : String} {nested : Bool} {unit : CompilationUnit}
    (hm : 16 * r + 1 ≤ m) :
    Lockstep g N r 0 (declarations depth namespace_ nested unit)
      (declarations m namespace_ nested unit) := by
  induction depth generalizing N r m namespace_ nested unit with
  | zero => rw [declarations]; exact .throw _
  | succ depth ih =>
    cases m with
    | zero => omega
    | succ m =>
      refine .cases_next (fun t => ?_) (.of_fails fun c hc hnext _ _ => declarations_fail hc hnext)
      refine .imp ?_ same_of_next
      have hrest : ∀ {M n} pos, n ≤ r → Lockstep g M n 0 (declaration depth namespace_ nested unit pos)
          (declaration m namespace_ nested unit pos) := fun pos hn =>
        (lockstep_declaration pos (by omega) ih).weaken (Nat.zero_le 1)
      have heof : Asks g Same atEof atEof :=
        .of_tells tells_atEof looks_atEof fun h => absurd h not_same_torn
      cases nested with
      | false =>
        rw [declarations_top, declarations_top]
        refine .position fun pos => .asks heof fun _ => ?_
        exact .ite (fun _ => .pure unit) fun _ => hrest pos le_rfl
      | true =>
        rw [declarations_nested, declarations_nested]
        refine .asks (.of_tells (tells_isPunct _) (looks_isPunctAt 0 _)
          fun h => absurd h not_same_torn) fun _ => .ite (fun _ => .pure unit) fun _ => ?_
        refine .position fun pos => .asks heof fun _ => .ite (fun _ => .fail_bind _) fun _ => ?_
        refine .eatWord (fun _ => ?_) (hrest pos le_rfl)
        refine ((lockstep_usingDirective pos).weaken (Nat.zero_le 1)).bind fun _ _ => ih (by omega)

end CilScope.Source.CSharp
