import CilScope.Proofs.Core.Control

/-!
# Methods of the core

Every statement of the core is realized by its code, by induction over the syntax. The code of a method
starts with nothing in scope and ends with a return, so from its start the machine does what `call` says
the method does.
-/

namespace CilScope.Core

open Source (Expr Stmt)
open Machine (Memory Status Reach)
open Lowering

/-! ## Statements -/

theorem next_after (x : Site) (σ : Scope) (s : Stmt) : (after x σ s).next = σ.next + cells s := by
  cases s <;> rfl

/-- The scope behind some statements. -/
def afterAll (x : Site) (σ : Scope) : List Stmt → Scope
  | [] => σ
  | s :: rest => afterAll x (after x σ s) rest

theorem next_afterAll (x : Site) (σ : Scope) (ss : List Stmt) :
    (afterAll x σ ss).next = σ.next + cellsAll ss := by
  induction ss generalizing σ with
  | nil => rfl
  | cons s rest ih => rw [afterAll, ih, next_after, cellsAll, Nat.add_assoc]

theorem skip_skip (σ : Scope) (j k : Nat) : (σ.skip j).skip k = σ.skip (j + k) := by
  simp only [Scope.skip, Nat.add_assoc]

theorem walk_body (ss : List Stmt) (p : Program) :
    Walk p (fun _ => True) (fun _ => True) .declares (statements ss) fun _ => True :=
  walk_statements (typing_any p) ss _

/-- Assignments and increments are statements that end normally. -/
theorem realizes_update {x : Site} {F : Draft} {n : Nat} {σ : Scope} {c : Context} {stmt : Stmt}
    (h : coreUpdate x σ stmt) : Realizes x F n σ (after x σ stmt) c (statement stmt) (exec x n stmt σ) := by
  have hrealizes := (updates_statement (F := F) h).realizes n (c := c) (walk_update h (by decide))
  unfold coreUpdate at h
  split at h
  · exact hrealizes
  · exact hrealizes
  · cases h

mutual

/-- **The code of a statement of the core does what the statement does.** -/
theorem realizes_statement {x : Site} (F : Draft) (n : Nat) (c : Context) (stmt : Stmt) {σ : Scope}
    (h : coreStmt x stmt σ) :
    Realizes x F n σ (after x σ stmt) c (statement stmt) (exec x n stmt σ) := by
  match stmt with
  | .local_ pos name type init =>
    rw [coreStmt] at h
    cases ht : localType? x σ type init with
    | none => rw [ht] at h; cases h
    | some t =>
      rw [ht] at h
      have hlocal := (realizes_local (F := F) (c := c) n name pos ht
        fun e he => by subst he; exact h).point pos
      simp only [after, ht, Option.getD_some]
      cases init with
      | none =>
        simp only [exec, ht]
        exact hlocal
      | some e =>
        simp only [bind_assoc] at hlocal
        simp only [exec, ht]
        exact hlocal
  | .if_ pos cond then_ none =>
    rw [coreStmt, Bool.and_eq_true] at h
    exact (realizes_if h.1 (realizes_statements F n c then_ h.2) (walk_body then_)
      (next_afterAll x σ then_)).point pos
  | .if_ pos cond then_ (some else_) =>
    rw [coreStmt, Bool.and_eq_true, Bool.and_eq_true] at h
    have hif := (realizes_ifElse h.1.1 (realizes_statements F n c then_ h.1.2)
      (realizes_statements F n c else_ h.2) (walk_body then_) (walk_body else_)
      (next_afterAll x σ then_) (next_afterAll x _ else_)).point pos
    rw [skip_skip] at hif
    exact hif
  | .while_ pos kind cond body step =>
    rw [coreStmt, Bool.and_eq_true, Bool.and_eq_true] at h
    have hloop := (realizes_while kind h.1.1 (fun f => realizes_statements F n (inside f c) body h.1.2)
      (walk_body body) h.2 (next_afterAll x σ body)).point pos
    cases step with
    | none => exact hloop
    | some step => exact hloop
  | .doWhile pos body cond until_ =>
    rw [coreStmt, Bool.and_eq_true] at h
    exact (realizes_do h.2 (fun f => realizes_statements F n (inside f c) body h.1) (walk_body body)
      (next_afterAll x σ body)).point pos
  | .break_ pos kind => exact (realizes_jump n kind true pos).point pos
  | .continue_ pos kind => exact (realizes_jump n kind false pos).point pos
  | .return_ pos none => exact (realizes_returnNone n pos).point pos
  | .return_ pos (some e) => exact (realizes_returnSome n pos h).point pos
  | .block pos body =>
    exact (realizes_statements F n c body h).inScope (walk_body body _) (next_afterAll x σ body)
  | .assign .. | .increment .. | .expr .. | .throw_ .. | .try_ .. => exact realizes_update h

/-- Statements one after the other. -/
theorem realizes_statements {x : Site} (F : Draft) (n : Nat) (c : Context) (stmts : List Stmt)
    {σ : Scope} (h : coreAll x stmts σ) :
    Realizes x F n σ (afterAll x σ stmts) c (statements stmts) (execAll x n stmts σ) := by
  match stmts with
  | [] => exact fun s hat hF => ⟨hat, fun st m hs hm hstack => ⟨hs, m, hm, hstack, .refl _⟩⟩
  | s :: rest =>
    rw [coreAll, Bool.and_eq_true] at h
    exact (realizes_statement F n c s h.1).seq (realizes_statements F n c rest h.2) (walk_body rest _)

end

/-! ## Bodies -/

section

variable {x : Site} {F : Draft} {c : Context} {s : State} {m : Memory} {decl : Source.MethodDecl}

/-- What a method returns whose end is reached. -/
def atEnd (x : Site) : Option Value := (Ty.ofStatic? x.method.ret).map Ty.default

/-- The return at the end of a method. -/
theorem returns_finalReturn (hhere : Here x c) (hs : Live s) (hstack : m.stack = [])
    (hF : Final F (finalReturn decl c s).2) :
    Returns x (atEnd x) ∧ Reach F.fetch 0 (here s m) (.returned (resultWords (atEnd x))) := by
  obtain ⟨s₁, hs₁⟩ : ∃ s₁, (point decl.endPos c s).2 = s₁ := ⟨_, rfl⟩
  obtain ⟨hcode, hlive⟩ := code_point decl.endPos c s
  rw [hs₁] at hcode hlive
  have hlive₁ : Live s₁ := hlive.trans hs
  have hhere₁ : here s m = here s₁ m := by rw [here, here, hcode]
  have happly : finalReturn decl c s = (do
      if c.method.ret = .void then blockMark
      else
        report decl.pos (.notAllPathsReturn c.method.name)
        loadDefault c.method.ret
      emit .ret : Gen Unit) c s₁ := by
    show (if s.draft.isReachable = true then _ else _ : Gen Unit) c s = _
    rw [Draft.isReachable, show s.draft.unreachable = false from hs, ← hs₁]
    rfl
  rw [happly, hhere.method] at hF
  rw [hhere₁]
  rcases hhere.ret with hret | ⟨t, hret⟩
  · rw [hret, if_pos rfl] at hF
    have hF₂ : Final F (blockMark c s₁).2 := final_before c (.ret trivial) hF
    have hreach := (passes_blockMark hlive₁ hF₂ m).2.trans (reach_ret hF)
    rw [hstack] at hreach
    have hend : atEnd x = none := by rw [atEnd, hret]; rfl
    rw [hend]
    exact ⟨hret, hreach.weaken (Nat.zero_le _)⟩
  · -- what is missing is reported, and the default takes its place
    obtain ⟨s₂, hs₂⟩ : ∃ s₂, (report decl.pos (.notAllPathsReturn x.method.name) c s₁).2 = s₂ := ⟨_, rfl⟩
    have hdraft : s₂.draft = s₁.draft := by
      rw [← hs₂, report_apply]
      cases c.muted <;> rfl
    have hload : loadDefault t.static = edit (·.loadInt t.default.word) := by cases t <;> rfl
    have hF' : Final F (emit .ret c (edit (·.loadInt t.default.word) c s₂).2).2 := by
      rw [hret, if_neg (by cases t <;> decide), hload] at hF
      rw [← hs₂]
      exact hF
    have hlive₂ : Live s₂ := by rw [Live, hdraft]; exact hlive₁
    have hF₂ := final_before c (.ret trivial) hF'
    have hpush := pushes_loadInt (m := m) c hlive₂ hF₂
    have hreach := hpush.reach.trans (reach_ret hF')
    have hhere₂ : here s₁ m = here s₂ m := by rw [here, here, hdraft]
    have hend : atEnd x = some t.default := by rw [atEnd, hret]; cases t <;> rfl
    rw [hend, hhere₂]
    rw [hstack] at hreach
    refine ⟨?_, hreach.weaken (Nat.zero_le _)⟩
    rw [Returns, hret]
    cases t <;> rfl

/-- **The code of a method of the core does what the method does.** It starts at place 0, since it is the
first to be drafted. -/
theorem follows_mainPart (hhere : Here x c) (hloud : c.muted = false) (hloops : c.loops = [])
    (hcore : coreAll x decl.body {}) (hdraft : s.draft = {}) (hscopes : s.scopes = [])
    (hexit : s.exit = none) (hF : Final F (mainPart decl c s).2) (n : Nat) :
    (mainPart decl c s).2.exit = none ∧ ∀ ⦃args m⦄, Holds x F { args } m → m.stack = [] →
      Follows F n (.running 0 m) (call x decl.body args n) fun v =>
        Returns x v ∧ Reach F.fetch 0 (.running 0 m) (.returned (resultWords v)) := by
  obtain ⟨s₁, hs₁⟩ : ∃ s₁, (point decl.pos c s).2 = s₁ := ⟨_, rfl⟩
  obtain ⟨s₂, hs₂⟩ : ∃ s₂, (blockMark c s₁).2 = s₂ := ⟨_, rfl⟩
  obtain ⟨s₃, hs₃⟩ : ∃ s₃, (inScope (statements decl.body) c s₂).2 = s₃ := ⟨_, rfl⟩
  have happly : (mainPart decl c s).2 = (finalReturn decl c s₃).2 := by
    subst hs₁ hs₂ hs₃
    rfl
  rw [happly] at hF ⊢
  have hwalk := walk_body decl.body c.program
  have hF₃ : Final F s₃ := final_before c (walk_finalReturn decl trivial) hF
  have hF₂ : Final F s₂ := final_before c (.inScope hwalk) (hs₃ ▸ hF₃)
  have hstart : Around x F {} c s := by
    refine ⟨⟨hhere, hloud, fun name => ?_, fun v hv => absurd hv List.not_mem_nil⟩, ?_, ?_, hexit⟩
    · rw [findView, State.view, hscopes]
      rfl
    · rw [hdraft]
      rfl
    · rw [hloops]
      exact fun f hf => absurd hf List.not_mem_nil
  have hat₁ : Around x F {} c s₁ := hs₁ ▸ hstart.walk (walk_point decl.pos)
  have hat₂ : Around x F {} c s₂ := hs₂ ▸ hat₁.walk walk_blockMark
  obtain ⟨hat₃, -, hsim⟩ := (realizes_statements F n c decl.body hcore).scoped hwalk
    (next_afterAll x {} decl.body) hat₂ (hs₃ ▸ hF₃)
  rw [hs₃] at hat₃ hsim
  refine ⟨(hat₃.walk (walk_finalReturn decl trivial)).exit, fun args m hm hstack => ?_⟩
  have hpoint := code_point decl.pos c s
  rw [hs₁, hdraft] at hpoint
  have hzero : here s₁ m = .running 0 m := by rw [here, hpoint.1]; rfl
  have hmark := passes_blockMark hpoint.2 (hs₂ ▸ hF₂) m
  rw [hs₂, hzero] at hmark
  refine Follows.bind ((Follows.after hmark.2 (hsim hmark.1 hm hstack) fun p hp => hp.after hmark.2).weaken
    (Nat.le_add_left ..)) fun p hp => ?_
  obtain ⟨o, st⟩ := p
  cases o with
  | normal =>
    obtain ⟨hlive, m', hm', hstack', hreach⟩ := hp
    obtain ⟨hreturns, hreach'⟩ := returns_finalReturn hhere hlive hstack' hF
    exact ⟨hreturns, hreach.trans hreach'⟩
  | return_ v => exact hp
  | break_ kind =>
    obtain ⟨f, hf, -⟩ := hp
    rw [loopOf, hloops] at hf
    cases hf
  | continue_ kind =>
    obtain ⟨f, hf, -⟩ := hp
    rw [loopOf, hloops] at hf
    cases hf

end

end CilScope.Core
