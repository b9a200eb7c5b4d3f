import CilScope.Proofs.Core.Basis
import CilScope.Proofs.Except
import CilScope.Proofs.Source.Grouping

/-!
# For loops

A `For` loop is brought to a loop tested at its top, whose test evaluates the limit and whose step
evaluates the step. `ForHead.meaning` is what such a loop does. It is the loop of the language,
`ForHead.basicMeaning`, which evaluates both once, if the limit and the step are steady.
-/

namespace CilScope.Source.VisualBasic

open CilScope.Source.Parser

variable {Scope Value State Failure : Type}

/-! ## Turns -/

/-- At most `n` turns of a loop over the variable `x`. The body runs while the variable has not passed
the limit; where it ends normally or continues the loop, the step is added to the variable, and where it
exits the loop, the loop ends. Any other end of the body is that of the loop. -/
def turns (M : Basis Scope Value State Failure) (σ : Scope) (x : String) (descending : Bool)
    (limit step : Run State Failure Value) (body : Run State Failure (Ending Value)) :
    (n : Nat) → Run State Failure (Ending Value)
  | 0 => M.giveUp
  | n + 1 => do
    let v ← M.read σ x
    let last ← limit
    if ← M.truth (← M.operate (if descending then .ge else .le) v last) then
      match ← body with
      | .normal | .continue_ none | .continue_ (some .for_) =>
        let v ← M.read σ x
        M.write σ x (← M.operate .add v (← step))
        turns M σ x descending limit step body n
      | .break_ none | .break_ (some .for_) => return .normal
      | e => return e
    else return .normal

namespace ForHead

variable (h : ForHead) (M : Basis Scope Value State Failure)

/-- The scope of a loop, with the variable that its head declares. -/
def scope (σ : Scope) : Scope :=
  match h.type with
  | some type => M.after σ (.local_ h.varPos h.var (some type) (some h.from_))
  | none => σ

/-- The value of the step, which is one if none is written. -/
def stepValue (σ : Scope) : Run State Failure Value :=
  match h.step with
  | some step => M.eval σ step
  | none => return M.int 1

/-- A loop that evaluates its limit before every turn, and its step behind every turn. It counts down if
its step is a negative literal. -/
def meaning (n : Nat) (body : List Stmt) (σ : Scope) : Run State Failure (Ending Value) := do
  M.write (h.scope M σ) h.var (← M.eval (h.scope M σ) h.from_)
  turns M (h.scope M σ) h.var h.descending (M.eval (h.scope M σ) h.limit)
    (h.stepValue M (h.scope M σ)) (execAll M n body (h.scope M σ)) n

/-- A loop that evaluates its limit and its step once, before the first turn, and counts down if the step
is negative. -/
def basicMeaning (n : Nat) (body : List Stmt) (σ : Scope) : Run State Failure (Ending Value) := do
  let first ← M.eval (h.scope M σ) h.from_
  let last ← M.eval (h.scope M σ) h.limit
  let step ← h.stepValue M (h.scope M σ)
  M.write (h.scope M σ) h.var first
  turns M (h.scope M σ) h.var (M.isNegative step) (return last) (return step)
    (execAll M n body (h.scope M σ)) n

/-- The limit and the step have one value, and are evaluated without effect, in the states of `P`; these
are left neither by a turn nor by counting. A step that is negative is a literal. -/
structure Steady (n : Nat) (body : List Stmt) (σ : Scope) (P : State → Prop) (last step : Value) :
    Prop where
  sign : M.isNegative step = h.descending
  limit : ∀ s, P s → M.eval σ h.limit s = .ok (last, s)
  step : ∀ s, P s → h.stepValue M σ s = .ok (step, s)
  body : ∀ s e s', P s → execAll M n body σ s = .ok (e, s') → e.leaves .for_ = none → P s'
  write : ∀ s v u s', P s → M.write σ h.var v s = .ok (u, s') → P s'

end ForHead

/-! ## The loop of the tree -/

/-- A top-tested loop that compares and counts is a loop of turns. -/
theorem topRounds_eq_turns (M : Basis Scope Value State Failure) (σ : Scope) (x : String)
    (descending : Bool) (limit step : Run State Failure Value)
    (body : Run State Failure (Ending Value)) (n : Nat) :
    M.topRounds .for_
      (do M.truth (← M.operate (if descending then .ge else .le) (← M.read σ x) (← limit))) body
      (do M.write σ x (← M.operate .add (← M.read σ x) (← step))) n =
    turns M σ x descending limit step body n := by
  induction n with
  | zero => rfl
  | succ n ih =>
    rw [Basis.topRounds, turns]
    simp only [bind_assoc]
    refine bind_congr fun v => bind_congr fun last => bind_congr fun r => bind_congr fun goes => ?_
    cases goes with
    | false => rfl
    | true =>
      refine bind_congr fun e => ?_
      rw [← ih]
      cases e with
      | normal => simp only [Ending.unlessLeft, Ending.leaves]
      | return_ v => rfl
      | continue_ kind | break_ kind =>
        cases kind with
        | none => simp [Ending.unlessLeft, Ending.leaves]
        | some kind => cases kind <;> simp [Ending.unlessLeft, Ending.leaves]

namespace ForHead

variable {h : ForHead} {M : Basis Scope Value State Failure} {n : Nat} {body : List Stmt}
  {σ : Scope} {descending : Bool}

/-- The statement behind the first value. -/
def rounds (h : ForHead) (body : List Stmt) : Stmt :=
  .while_ h.opened .for_
    (some (.binary h.opened (if h.descending then .ge else .le) (.name h.varPos h.var) h.limit)) body
    (some (.assign h.opened (.name h.varPos h.var) .add (h.step.getD (.int h.opened 1))))

/-- A single statement. -/
theorem execAll_singleton (s : Stmt) : execAll M n [s] σ = exec M n s σ := by
  rw [execAll]
  conv_rhs => rw [← bind_pure (exec M n s σ)]
  refine bind_congr fun e => ?_
  cases e <;> rfl

/-- A loop stores its first value before all else. -/
theorem exec_loop_eq : exec M n (h.loop body) σ = (do
    M.write (h.scope M σ) h.var (← M.eval (h.scope M σ) h.from_)
    exec M n (h.rounds body) (h.scope M σ)) := by
  rw [loop, exec, execAll, scope]
  cases h.type with
  | some type =>
    rw [exec]
    simp only [bind_assoc, pure_bind, execAll_singleton]
    rfl
  | none =>
    rw [exec, Basis.assign]
    simp only [Lowering.compoundOperator?, bind_assoc, pure_bind, execAll_singleton, M.after_assign]
    rfl

/-- The rounds compare the variable with the limit, and add the step to it. -/
theorem exec_rounds : exec M n (h.rounds body) σ =
    turns M σ h.var h.descending (M.eval σ h.limit) (h.stepValue M σ) (execAll M n body σ) n := by
  have hstep : M.eval σ (h.step.getD (.int h.opened 1)) = h.stepValue M σ := by
    unfold stepValue
    cases h.step with
    | none => exact M.eval_int _ _ _
    | some step => rfl
  have hcomparison : (if h.descending then BinaryOp.ge else .le).isComparison := by
    cases h.descending <;> rfl
  rw [← topRounds_eq_turns, rounds, exec, exec, discard_normal, Basis.topTest, Basis.test,
    M.eval_comparison _ _ _ _ _ hcomparison, M.eval_name, Basis.assign, hstep]
  simp only [Lowering.compoundOperator?, bind_assoc]

/-- **A loop of the tree is a loop that evaluates its limit and its step in every turn.** -/
theorem exec_loop : exec M n (h.loop body) σ = h.meaning M n body σ := by
  rw [exec_loop_eq, exec_rounds, meaning]

/-! ## Steady loops -/

variable {P : State → Prop} {last step : Value}

/-- A successful computation has a first part that was successful. -/
theorem exists_of_bind_run {α β : Type} {p : Run State Failure α} {f : α → Run State Failure β} {b : β}
    {s s' : State} (h : (p >>= f) s = .ok (b, s')) :
    ∃ a s₁, p s = .ok (a, s₁) ∧ f a s₁ = .ok (b, s') := by
  change (p s >>= fun r => f r.1 r.2) = _ at h
  obtain ⟨⟨a, s₁⟩, hp, hf⟩ := bind_eq_ok h
  exact ⟨a, s₁, hp, hf⟩

theorem Steady.turns_eq (hs : h.Steady M n body σ P last step) (k : Nat) {s : State} (hP : P s) :
    turns M σ h.var descending (M.eval σ h.limit) (h.stepValue M σ) (execAll M n body σ) k s =
      turns M σ h.var descending (return last) (return step) (execAll M n body σ) k s := by
  rw [← topRounds_eq_turns, ← topRounds_eq_turns]
  refine M.topRounds_congr (fun s hP => ?_) (fun s hP => ?_) (fun s goes s' hP htest => ?_) hs.body
    (fun s u s' hP hstep => ?_) k hP
  · refine bind_congr_run rfl fun v s₁ hread => ?_
    obtain rfl := M.read_keeps _ _ _ _ _ hread
    rw [bind_of_unchanged (hs.limit _ hP), pure_bind]
  · refine bind_congr_run rfl fun v s₁ hread => ?_
    obtain rfl := M.read_keeps _ _ _ _ _ hread
    rw [bind_of_unchanged (hs.step _ hP), pure_bind]
  · obtain ⟨v, s₁, hread, hcomparison⟩ := exists_of_bind_run htest
    rw [pure_bind] at hcomparison
    obtain ⟨r, s₂, hcompare, htruth⟩ := exists_of_bind_run hcomparison
    rwa [M.truth_keeps _ _ _ _ htruth, M.operate_keeps _ _ _ _ _ _ hcompare,
      M.read_keeps _ _ _ _ _ hread]
  · obtain ⟨v, s₁, hread, hsum⟩ := exists_of_bind_run hstep
    rw [pure_bind] at hsum
    obtain ⟨w, s₂, hadd, hwrite⟩ := exists_of_bind_run hsum
    rw [M.operate_keeps _ _ _ _ _ _ hadd, M.read_keeps _ _ _ _ _ hread] at hwrite
    exact hs.write _ w u s' hP hwrite

/-- **A steady loop is the loop of the language**: it does as if the limit and the step were evaluated
once. -/
theorem Steady.meaning_eq (hs : h.Steady M n body (h.scope M σ) P last step) {s : State}
    (hstart : ∀ v s', M.eval (h.scope M σ) h.from_ s = .ok (v, s') → P s') :
    h.meaning M n body σ s = h.basicMeaning M n body σ s := by
  refine bind_congr_run rfl fun first s₁ hfirst => ?_
  have hP := hstart first s₁ hfirst
  rw [bind_of_unchanged (hs.limit _ hP), bind_of_unchanged (hs.step _ hP), hs.sign]
  exact bind_congr_run rfl fun u s₂ hwrite => hs.turns_eq n (hs.write _ first u s₂ hP hwrite)

end ForHead

/-! ## Reading a loop -/

/-- A keyword that is not next. -/
theorem run_unless_word {α : Type} {k : String} {p q : Parser α} {c : Cursor}
    (h : matchesWord c.log.language k (front c.rest) = false) :
    (do if ← eatWord k then p else q : Parser α).run.run c = q.run.run c :=
  run_bind_of_ok (peeks_not_eatWord h c.previousStop c.log rfl)

/-- Reads a loop behind its keyword. -/
def forLoop (depth : Nat) (opened : Position) : Parser (ForHead × List Stmt) := do
  let head ← forHead opened
  let body ← statements depth
  unless ← eatWord "next" do fail opened (.missingEnd "For")
  eatLoopVariable head.var
  return (head, body)

/-- What is read from the keyword of a loop on is the loop of a head and a body. -/
theorem run_statement_for {depth : Nat} {t : Located} {rest : List Located} {stop : Position}
    {log : Log} {w : String} (hlog : log.language = .visualBasic) (ht : t.lexeme = .word w)
    (hw : Language.visualBasic.sameName w "for") :
    (statement (depth + 1)).run.run ⟨t :: rest, stop, log⟩ = (do
      let (head, body) ← forLoop depth t.start
      return [head.loop body] : Parser (List Stmt)).run.run ⟨rest, t.stop, log⟩ := by
  have hskip (k : String) (hk : Language.visualBasic.sameName "for" k = false) :
      matchesWord log.language k (front (t :: rest)) = false := by
    rw [front_cons, ht, matchesWord, hlog, Language.sameName_congr hw, hk]
  rw [statement, run_bind_of_ok (peeks_position _ _ rfl),
    run_unless_word (hskip "dim" (by simp [Language.sameName_visualBasic])),
    run_unless_word (hskip "if" (by simp [Language.sameName_visualBasic])),
    run_unless_word (hskip "while" (by simp [Language.sameName_visualBasic])),
    run_unless_word (hskip "do" (by simp [Language.sameName_visualBasic]))]
  have heat : Reads .visualBasic (eatWord "for") [t] rest true := reads_eatWord ht hw
  obtain ⟨log', -, hfits, hfor⟩ := heat stop log hlog
  rw [hfits (by simp [Fits, ht]), List.singleton_append] at hfor
  rw [run_bind_of_ok hfor, if_pos rfl, forLoop]
  simp only [bind_assoc]
  refine congrArg (fun p : Parser (List Stmt) => p.run.run _) ?_
  refine bind_congr fun head => bind_congr fun body => bind_congr fun found => ?_
  cases found with
  | true => simp only [if_true, bind_assoc, pure_bind]
  | false => simp only [Bool.false_eq_true, if_false, bind_assoc, pure_bind, List.headD_cons]

/-- **What a `For` statement does.** The statement that is built for it stores the first value once,
compares the variable with the limit anew before every turn, and adds the step anew behind every turn and
where the body continues the loop; an exit of the loop ends it. If the limit and the step are steady, it
does what a loop does that evaluates both once. -/
theorem for_meaning {depth : Nat} {t : Located} {rest : List Located} {stop : Position} {log : Log}
    {w : String} {stmts : List Stmt} {c : Cursor} (hlog : log.language = .visualBasic)
    (ht : t.lexeme = .word w) (hw : Language.visualBasic.sameName w "for")
    (hrun : (statement (depth + 1)).run.run ⟨t :: rest, stop, log⟩ = (.ok stmts, c)) :
    ∃ head body, (forLoop depth t.start).run.run ⟨rest, t.stop, log⟩ = (.ok (head, body), c) ∧
      ∀ {Scope Value State Failure : Type} (M : Basis Scope Value State Failure) (n : Nat) (σ : Scope),
        execAll M n stmts σ = head.meaning M n body σ ∧
        ∀ (P : State → Prop) (last step : Value) (s : State),
          head.Steady M n body (head.scope M σ) P last step →
          (∀ v s', M.eval (head.scope M σ) head.from_ s = .ok (v, s') → P s') →
          execAll M n stmts σ s = head.basicMeaning M n body σ s := by
  rw [run_statement_for hlog ht hw] at hrun
  obtain ⟨⟨head, body⟩, c', hloop, hrun⟩ := exists_of_run_bind hrun
  cases hrun
  refine ⟨head, body, hloop, fun M n σ => ?_⟩
  have hexec : execAll M n [head.loop body] σ = head.meaning M n body σ := by
    rw [ForHead.execAll_singleton, ForHead.exec_loop]
  exact ⟨hexec, fun P last step s hs hstart => (congrFun hexec s).trans (hs.meaning_eq hstart)⟩

/-! ### A limit that shrinks -/

/-- The keyword of a loop. -/
def forKeyword : Located := ⟨.word "For", {}, {}⟩

theorem sameName_for : Language.visualBasic.sameName "For" "for" := by
  rw [Language.sameName_visualBasic]
  decide

/-- The lines `For i = 1 To n`, `n -= 1` and `Next` behind the keyword. -/
def shrinking : List Located :=
  [.word "i", .punct "=", .int 1, .word "To", .word "n", .newline, .word "n", .punct "-=", .int 1,
    .newline, .word "Next", .newline, .eof].map (⟨·, {}, {}⟩)

/-- A method of the integers `i` and `n`. -/
def shrinkingSite : Core.Site where
  program := { language := .visualBasic, imports := [], types := #[], members := #[] }
  inferLocals := true
  owner := 0
  method :=
    { name := "M", params := [.int, .int], paramNames := ["i", "n"], isStatic := true,
      visibility := .public_, origin := .ctor }

/-- The arguments 0 and 3. -/
def shrinkingStore : Core.Store := { args := [.int 0, .int 3] }

/-- A loop that is read behind its keyword is a statement. -/
theorem exists_of_forLoop {depth : Nat} {t : Located} {rest : List Located} {stop : Position} {log : Log}
    {w : String} {holds : ForHead → List Stmt → Bool} (hlog : log.language = .visualBasic)
    (ht : t.lexeme = .word w) (hw : Language.visualBasic.sameName w "for")
    (h : (match (forLoop depth t.start).run.run ⟨rest, t.stop, log⟩ with
      | (.ok (head, body), _) => holds head body
      | _ => false) = true) :
    ∃ head body c, (forLoop depth t.start).run.run ⟨rest, t.stop, log⟩ = (.ok (head, body), c) ∧
      (statement (depth + 1)).run.run ⟨t :: rest, stop, log⟩ = (.ok [head.loop body], c) ∧
      holds head body = true := by
  split at h
  next head body c hrun =>
    refine ⟨head, body, c, hrun, ?_, h⟩
    rw [run_statement_for hlog ht hw, run_bind_of_ok hrun]
    rfl
  next => cases h

/-- Whether the loop of the tree ends with 3 in `i` and 1 in `n`, and one that evaluates its limit once
with 4 and 0. On 3 as `n` the limit has become 1 when `i` has become 3; evaluated once, it allows three
turns. -/
def shrinks (head : ForHead) (body : List Stmt) : Bool :=
  (execAll (Core.basis shrinkingSite) 5 [head.loop body] {} shrinkingStore).toOption.map
      (·.2.args) == some [.int 3, .int 1] &&
    (head.basicMeaning (Core.basis shrinkingSite) 5 body {} shrinkingStore).toOption.map
      (·.2.args) == some [.int 4, .int 0]

theorem exists_shrinking : ∃ head body c,
    (forLoop 3 forKeyword.start).run.run ⟨shrinking, forKeyword.stop, .forSnippet .visualBasic⟩ =
      (.ok (head, body), c) ∧
    (statement 4).run.run ⟨forKeyword :: shrinking, {}, .forSnippet .visualBasic⟩ =
      (.ok [head.loop body], c) ∧
    shrinks head body = true :=
  exists_of_forLoop rfl rfl sameName_for (by decide +kernel)

theorem for_meaning_shrinking : ∃ head body stmts c,
    (statement 4).run.run ⟨forKeyword :: shrinking, {}, .forSnippet .visualBasic⟩ = (.ok stmts, c) ∧
    (forLoop 3 forKeyword.start).run.run ⟨shrinking, forKeyword.stop, .forSnippet .visualBasic⟩ =
      (.ok (head, body), c) ∧
    execAll (Core.basis shrinkingSite) 5 stmts {} shrinkingStore =
      head.meaning (Core.basis shrinkingSite) 5 body {} shrinkingStore := by
  obtain ⟨_, _, c, -, hrun, -⟩ := exists_shrinking
  obtain ⟨head, body, hloop, hmeaning⟩ := for_meaning rfl rfl sameName_for hrun
  exact ⟨head, body, _, c, hrun, hloop, congrFun (hmeaning (Core.basis shrinkingSite) 5 {}).1 _⟩

/-- The loop does not do what a loop does that evaluates its limit once. -/
theorem for_limit_shrinks : ∃ head body stmts c,
    (statement 4).run.run ⟨forKeyword :: shrinking, {}, .forSnippet .visualBasic⟩ = (.ok stmts, c) ∧
    (forLoop 3 forKeyword.start).run.run ⟨shrinking, forKeyword.stop, .forSnippet .visualBasic⟩ =
      (.ok (head, body), c) ∧
    execAll (Core.basis shrinkingSite) 5 stmts {} shrinkingStore ≠
      head.basicMeaning (Core.basis shrinkingSite) 5 body {} shrinkingStore := by
  obtain ⟨head, body, c, hloop, hrun, hargs⟩ := exists_shrinking
  refine ⟨head, body, _, c, hrun, hloop, fun heq => ?_⟩
  rw [shrinks, heq, Bool.and_eq_true, beq_iff_eq, beq_iff_eq] at hargs
  have habsurd := hargs.1.symm.trans hargs.2
  revert habsurd
  decide

end CilScope.Source.VisualBasic
