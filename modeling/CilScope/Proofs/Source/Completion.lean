import CilScope.Source.Completion
import Mathlib

/-!
# Statements that do not complete do not run off their end

`completesNormally` judges a list of statements by its form. Here the statements run: every test takes
either value, a statement may raise, a jump goes to the innermost loop that it means, and what stands
in a `finally` always follows. The judgement is compared with these executions (`RunsAll`).

A list that is judged not to complete has no execution that gets behind its end (`not_runsAll_off`) as
long as every jump means the innermost loop around it, which holds of all jumps without a name, and no
loop that is tested at its bottom has a `continue` of its own. The judgement overlooks both: a
`continue` goes on with the test, which may fail (`exists_runsAll_off_of_continue`), and a `break` that
names an outer loop leaves that loop from within an inner one (`exists_runsAll_off_of_outer_break`).
-/

namespace CilScope.Source

/-- How the execution of statements ends. -/
inductive Exit
  /-- Behind the last statement. -/
  | off
  | break_ (kind : Option LoopKind)
  | continue_ (kind : Option LoopKind)
  | returned
  | raised
  deriving DecidableEq, Repr

/-- Whether a jump means a loop of this kind. -/
def LoopKind.isMeant (loop : LoopKind) (jump : Option LoopKind) : Bool := jump.all (· = loop)

namespace Exit

/-- Whether a loop goes on behind its body. -/
def repeats (loop : LoopKind) : Exit → Bool
  | off => true
  | continue_ kind => loop.isMeant kind
  | _ => false

/-- What the end of its body is outside a loop that does not go on. -/
def outside (loop : LoopKind) : Exit → Exit
  | break_ kind => if loop.isMeant kind then off else break_ kind
  | e => e

/-- How a statement ends that is followed by what always runs. -/
def followedBy (e : Exit) : Exit → Exit
  | off => e
  | f => f

end Exit

/-- A test is there and is not the literal `true`. -/
def MayFail (cond : Option Expr) : Prop := cond ≠ none ∧ ∀ pos, cond ≠ some (.bool pos true)

mutual

/-- The executions of a statement. A test takes any value, apart from the literal `true` and a test
that is absent, which do not end a loop. -/
inductive Stmt.Runs : Stmt → Exit → Prop
  | local_ {pos name type init} : Stmt.Runs (.local_ pos name type init) .off
  | assign {pos target op value} : Stmt.Runs (.assign pos target op value) .off
  | increment {pos target delta} : Stmt.Runs (.increment pos target delta) .off
  | expr {pos e} : Stmt.Runs (.expr pos e) .off
  | break_ {pos kind} : Stmt.Runs (.break_ pos kind) (.break_ kind)
  | continue_ {pos kind} : Stmt.Runs (.continue_ pos kind) (.continue_ kind)
  | return_ {pos value} : Stmt.Runs (.return_ pos value) .returned
  | raises {s} : Stmt.Runs s .raised
  | block {pos body e} (h : RunsAll body e) : Stmt.Runs (.block pos body) e
  | then_ {pos cond then_ else_ e} (h : RunsAll then_ e) : Stmt.Runs (.if_ pos cond then_ else_) e
  | else_ {pos cond then_ else_ e} (h : RunsAll else_ e) :
      Stmt.Runs (.if_ pos cond then_ (some else_)) e
  | skip {pos cond then_} : Stmt.Runs (.if_ pos cond then_ none) .off
  | whileFails {pos kind cond body step} (h : MayFail cond) :
      Stmt.Runs (.while_ pos kind cond body step) .off
  | whileLeft {pos kind cond body step e} (h : RunsAll body e) (he : e.repeats kind = false) :
      Stmt.Runs (.while_ pos kind cond body step) (e.outside kind)
  | whileStep {pos kind cond body step e f} (h : RunsAll body e) (he : e.repeats kind)
      (hstep : Stmt.Runs step f) (hf : f ≠ .off) : Stmt.Runs (.while_ pos kind cond body (some step)) f
  | whileAgain {pos kind cond body step e f} (h : RunsAll body e) (he : e.repeats kind)
      (hstep : RunsAll step.toList .off) (again : Stmt.Runs (.while_ pos kind cond body step) f) :
      Stmt.Runs (.while_ pos kind cond body step) f
  | doLeft {pos body cond until_ e} (h : RunsAll body e) (he : e.repeats .do_ = false) :
      Stmt.Runs (.doWhile pos body cond until_) (e.outside .do_)
  | doEnds {pos body cond until_ e} (h : RunsAll body e) (he : e.repeats .do_) :
      Stmt.Runs (.doWhile pos body cond until_) .off
  | doAgain {pos body cond until_ e f} (h : RunsAll body e) (he : e.repeats .do_)
      (again : Stmt.Runs (.doWhile pos body cond until_) f) :
      Stmt.Runs (.doWhile pos body cond until_) f
  | try_ {pos body handler finally_ e f} (h : RunsAll body e) (hfinally : RunsAll (finally_.getD []) f) :
      Stmt.Runs (.try_ pos body handler finally_) (e.followedBy f)
  | caught {pos body head handler finally_ e f} (h : RunsAll body .raised) (hhandler : RunsAll handler e)
      (hfinally : RunsAll (finally_.getD []) f) :
      Stmt.Runs (.try_ pos body (some (head, handler)) finally_) (e.followedBy f)

/-- The executions of a list of statements. -/
inductive RunsAll : List Stmt → Exit → Prop
  | nil : RunsAll [] .off
  | stop {s rest e} (h : Stmt.Runs s e) (he : e ≠ .off) : RunsAll (s :: rest) e
  | cons {s rest e} (h : Stmt.Runs s .off) (hrest : RunsAll rest e) : RunsAll (s :: rest) e

end

/-- Whether a statement is one that the step of a loop can be. -/
def Stmt.isSimple : Stmt → Bool
  | .local_ .. | .assign .. | .increment .. | .expr .. => true
  | _ => false

mutual

/-- Whether the jumps in a statement mean the innermost loop around them. The loop is given with
whether it may have a `continue`; without a loop, a jump leaves the statement. -/
def Stmt.tidy (loop : Option (LoopKind × Bool)) : Stmt → Bool
  | .break_ _ kind => loop.all (·.1.isMeant kind)
  | .continue_ _ kind => loop.all fun l => l.2 && l.1.isMeant kind
  | .block _ body => allTidy loop body
  | .if_ _ _ then_ none => allTidy loop then_
  | .if_ _ _ then_ (some else_) => allTidy loop then_ && allTidy loop else_
  | .while_ _ kind _ body step => allTidy (some (kind, true)) body && step.all (·.isSimple)
  | .doWhile _ body _ _ => allTidy (some (.do_, false)) body
  | .try_ _ body handler finally_ =>
    allTidy loop body &&
    (match handler with
      | some (_, body) => allTidy loop body
      | none => true) &&
    (match finally_ with
      | some body => allTidy loop body
      | none => true)
  | _ => true

/-- Whether the jumps in some statements mean the innermost loop around them. -/
def allTidy (loop : Option (LoopKind × Bool)) : List Stmt → Bool
  | [] => true
  | s :: rest => s.tidy loop && allTidy loop rest

end

/-- What is known of tidy statements that have an execution with this end: how they are judged, and
which loop a jump out of them means. -/
def Exit.Justified (loop : Option (LoopKind × Bool)) (completes holdsBreak : Bool) : Exit → Prop
  | .off => completes
  | .break_ kind => holdsBreak ∧ loop.all (·.1.isMeant kind)
  | .continue_ kind => loop.all fun l => l.2 && l.1.isMeant kind
  | .returned | .raised => True

namespace Exit

variable {loop : Option (LoopKind × Bool)} {completes completes' holds holds' : Bool} {e f : Exit}

theorem Justified.mono (h : e.Justified loop completes holds) (hcompletes : completes → completes')
    (hholds : holds → holds') : e.Justified loop completes' holds' := by
  cases e with
  | off => exact hcompletes h
  | break_ kind => exact ⟨hholds h.1, h.2⟩
  | continue_ kind => exact h
  | returned | raised => trivial

theorem Justified.of_ne_off (h : e.Justified loop completes holds) (he : e ≠ .off)
    (hholds : holds → holds') : e.Justified loop completes' holds' := by
  cases e with
  | off => exact absurd rfl he
  | break_ kind => exact ⟨hholds h.1, h.2⟩
  | continue_ kind => exact h
  | returned | raised => trivial

/-- A loop that its body ends without going on ends behind itself only by a `break`. -/
theorem Justified.outside {kind : LoopKind} {goesOn : Bool}
    (h : e.Justified (some (kind, goesOn)) completes holds) (he : e.repeats kind = false)
    (hholds : holds → completes') : (e.outside kind).Justified loop completes' holds' := by
  cases e with
  | off => cases he
  | break_ jump =>
    have hmeant : kind.isMeant jump := h.2
    rw [Exit.outside, if_pos hmeant]
    exact hholds h.1
  | continue_ jump =>
    have hjump : (goesOn && kind.isMeant jump) = true := h
    rw [repeats, ((Bool.and_eq_true _ _).mp hjump).2] at he
    cases he
  | returned | raised => trivial

/-- A body that its loop goes on behind ends at its end, or at a `continue` that is allowed. -/
theorem Justified.goesOn {kind : LoopKind} {goesOn : Bool}
    (h : e.Justified (some (kind, goesOn)) completes holds) (he : e.repeats kind) :
    completes ∨ goesOn := by
  cases e with
  | off => exact .inl h
  | continue_ jump =>
    have hjump : (goesOn && kind.isMeant jump) = true := h
    exact .inr ((Bool.and_eq_true _ _).mp hjump).1
  | break_ | returned | raised => cases he

theorem Justified.followedBy (h : e.Justified loop completes holds)
    (hf : f.Justified loop completes' holds') :
    (e.followedBy f).Justified loop (completes' && completes) (holds || holds') := by
  cases f with
  | off =>
    have hf : completes' = true := hf
    exact h.mono (by simp [hf]) (by simp +contextual)
  | break_ kind => exact ⟨by simp [hf.1], hf.2⟩
  | continue_ kind => exact hf
  | returned | raised => trivial

end Exit

theorem Stmt.Runs.of_isSimple {s : Stmt} {e : Exit} (h : s.Runs e) (hs : s.isSimple) :
    e = .off ∨ e = .raised := by
  cases h with
  | local_ | assign | increment | expr => exact .inl rfl
  | raises => exact .inr rfl
  | _ => cases hs

section Try

variable {loop : Option (LoopKind × Bool)} {pos : Position} {body : List Stmt}
  {handler : Option (CatchHead × List Stmt)} {finally_ : Option (List Stmt)}

theorem Stmt.completes_try : (Stmt.try_ pos body handler finally_).completes =
    (completesNormally (finally_.getD []) &&
      (completesNormally body || handler.any (completesNormally ·.2))) := by
  cases handler <;> cases finally_ <;> rfl

theorem Stmt.holdsBreak_try : (Stmt.try_ pos body handler finally_).holdsBreak =
    (anyHoldsBreak body || handler.any (anyHoldsBreak ·.2) || anyHoldsBreak (finally_.getD [])) := by
  cases handler <;> cases finally_ <;> rfl

theorem Stmt.tidy_try : (Stmt.try_ pos body handler finally_).tidy loop =
    (allTidy loop body && handler.all (allTidy loop ·.2) && allTidy loop (finally_.getD [])) := by
  cases handler <;> cases finally_ <;> rfl

end Try

theorem neverFails_of_mayFail {cond : Option Expr} (h : MayFail cond) : neverFails cond = false := by
  cases cond with
  | none => exact absurd rfl h.1
  | some cond =>
    cases cond with
    | bool pos value =>
      cases value with
      | false => rfl
      | true => exact absurd rfl (h.2 pos)
    | _ => rfl

mutual

/-- By the execution, with the executions of the parts: a loop that goes on has the later rounds as
an execution of its own. -/
theorem Stmt.Runs.justified {loop : Option (LoopKind × Bool)} :
    ∀ {s : Stmt} {e : Exit}, s.Runs e → s.tidy loop → e.Justified loop s.completes s.holdsBreak
  | _, _, .local_, _ | _, _, .assign, _ | _, _, .increment, _ | _, _, .expr, _ | _, _, .skip, _ => rfl
  | _, _, .break_, ht => ⟨rfl, ht⟩
  | _, _, .continue_, ht => ht
  | _, _, .return_, _ | _, _, .raises, _ => trivial
  | _, _, .block h, ht => h.justified ht
  | .if_ _ _ _ none, _, .then_ h, ht => (h.justified ht).mono (fun _ => rfl) id
  | .if_ _ _ _ (some _), _, .then_ h, ht => by
    rw [Stmt.tidy, Bool.and_eq_true] at ht
    refine (h.justified ht.1).mono (fun h => ?_) (fun h => ?_)
    · rw [Stmt.completes, h, Bool.true_or]
    · rw [Stmt.holdsBreak, h, Bool.true_or]
  | _, _, .else_ h, ht => by
    rw [Stmt.tidy, Bool.and_eq_true] at ht
    refine (h.justified ht.2).mono (fun h => ?_) (fun h => ?_)
    · rw [Stmt.completes, h, Bool.or_true]
    · rw [Stmt.holdsBreak, h, Bool.or_true]
  | .while_ .., _, .whileFails h, _ => by
    show (Stmt.completes _) = true
    rw [Stmt.completes, neverFails_of_mayFail h, Bool.not_false, Bool.true_or]
  | _, _, .whileLeft h he, ht => by
    rw [Stmt.tidy, Bool.and_eq_true] at ht
    refine (h.justified ht.1).outside he fun h => ?_
    rw [Stmt.completes, h, Bool.or_true]
  | _, _, .whileStep _ _ hstep hf, ht => by
    rw [Stmt.tidy, Bool.and_eq_true] at ht
    rcases hstep.of_isSimple ht.2 with rfl | rfl
    · exact absurd rfl hf
    · trivial
  | _, _, .whileAgain _ _ _ again, ht => again.justified ht
  | .doWhile _ body _ _, _, .doLeft h he, ht => by
    have ht : allTidy (some (.do_, false)) body := ht
    refine (h.justified ht).outside he fun h => ?_
    rw [Stmt.completes, h, Bool.or_true]
  | .doWhile _ body _ _, _, .doEnds h he, ht => by
    have ht : allTidy (some (.do_, false)) body := ht
    show (Stmt.completes _) = true
    rcases (h.justified ht).goesOn he with h | h
    · rw [Stmt.completes, h, Bool.true_or]
    · cases h
  | _, _, .doAgain _ _ again, ht => again.justified ht
  | .try_ .., _, .try_ h hfinally, ht => by
    rw [Stmt.tidy_try, Bool.and_eq_true, Bool.and_eq_true] at ht
    rw [Stmt.completes_try, Stmt.holdsBreak_try]
    refine ((h.justified ht.1.1).mono (fun h => ?_) (fun h => ?_)).followedBy
      (hfinally.justified ht.2)
    · rw [h, Bool.true_or]
    · rw [h, Bool.true_or]
  | .try_ .., _, .caught _ hhandler hfinally, ht => by
    rw [Stmt.tidy_try, Bool.and_eq_true, Bool.and_eq_true] at ht
    rw [Stmt.completes_try, Stmt.holdsBreak_try]
    refine ((hhandler.justified ht.1.2).mono (fun h => ?_) (fun h => ?_)).followedBy
      (hfinally.justified ht.2)
    · rw [Option.any_some, h, Bool.or_true]
    · rw [Option.any_some, h, Bool.or_true]

theorem RunsAll.justified {loop : Option (LoopKind × Bool)} :
    ∀ {ss : List Stmt} {e : Exit}, RunsAll ss e → allTidy loop ss →
      e.Justified loop (completesNormally ss) (anyHoldsBreak ss)
  | _, _, .nil, _ => rfl
  | _, _, .stop h he, ht => by
    rw [allTidy, Bool.and_eq_true] at ht
    refine (h.justified ht.1).of_ne_off he fun h => ?_
    rw [anyHoldsBreak, h, Bool.true_or]
  | s :: rest, _, .cons h hrest, ht => by
    rw [allTidy, Bool.and_eq_true] at ht
    have hs : s.completes = true := h.justified ht.1
    refine (hrest.justified ht.2).mono (fun h => ?_) (fun h => ?_)
    · rw [completesNormally, hs, h, Bool.true_and]
    · rw [anyHoldsBreak, h, Bool.or_true]

end

/-- What is judged not to complete does not run off its end. -/
theorem not_runsAll_off {ss : List Stmt} (h : completesNormally ss = false) (ht : allTidy none ss) :
    ¬RunsAll ss .off := by
  intro hoff
  have hcompletes : completesNormally ss = true := hoff.justified ht
  rw [h] at hcompletes
  cases hcompletes

/-- `do { continue; return; } while (false);` is judged not to complete, and does. -/
theorem exists_runsAll_off_of_continue (pos : Position) :
    completesNormally [.doWhile pos [.continue_ pos none, .return_ pos none] (.bool pos false) false] =
        false ∧
      RunsAll [.doWhile pos [.continue_ pos none, .return_ pos none] (.bool pos false) false] .off :=
  ⟨rfl, .cons (.doEnds (.stop .continue_ (by decide)) rfl) .nil⟩

/-- A `Do` without a test that leaves the `While True` around it is judged not to complete, and the
outer loop ends. -/
theorem exists_runsAll_off_of_outer_break (pos : Position) :
    completesNormally [.while_ pos .while_ (some (.bool pos true))
          [.while_ pos .do_ none [.break_ pos (some .while_)] none] none] = false ∧
      RunsAll [.while_ pos .while_ (some (.bool pos true))
          [.while_ pos .do_ none [.break_ pos (some .while_)] none] none] .off :=
  ⟨rfl, .cons (.whileLeft (.stop (.whileLeft (.stop .break_ (by decide)) rfl) (by decide)) rfl) .nil⟩

end CilScope.Source
