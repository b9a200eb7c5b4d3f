import CilScope.Proofs.Core.Expression

/-!
# Steps and outcomes

`Realizes` relates a step of lowering to what a statement does to the store: wherever the step starts
with the scopes of the lowering in order, it leaves them in order, and its code does what the
statement does. The outcome of a statement decides where the machine goes: to the end of the code, to
a label of a loop around it, or out of the method.
-/

namespace CilScope.Core

open Source (Stmt LoopKind)
open Machine (Memory Status Reach)
open Lowering

/-! ## Points between statements -/

/-- The labels of a loop are there, and bound for good. -/
structure Looped (F : Draft) (s : State) (f : LoopFrame) : Prop where
  exit : s.draft.Has f.exit
  next : s.draft.Has f.next
  exitBound : ∃ k, F.target? f.exit = some k
  nextBound : ∃ k, F.target? f.next = some k

/-- Lowering stands outside of statements, with the variables of `σ` in scope. -/
structure Around (x : Site) (F : Draft) (σ : Scope) (c : Context) (s : State) : Prop where
  ready : Ready x F σ c s
  next : σ.next = s.draft.locals.size
  loops : ∀ f ∈ c.loops, Looped F s f
  exit : s.exit = none

/-- Lowering stands between two statements, in a scope that they can declare locals in. -/
structure At (x : Site) (F : Draft) (σ : Scope) (c : Context) (s : State) : Prop
    extends Around x F σ c s where
  inner : s.view ≠ []

section

variable {x : Site} {F : Draft} {σ : Scope} {c : Context} {s s' : State}

theorem Looped.mono {f : LoopFrame} (h : Looped F s f)
    (hlabels : s.draft.labels.size ≤ s'.draft.labels.size) : Looped F s' f :=
  ⟨Nat.lt_of_lt_of_le h.exit hlabels, Nat.lt_of_lt_of_le h.next hlabels, h.exitBound, h.nextBound⟩

/-- Steps that declare nothing lead from point to point. -/
theorem Around.still (h : Around x F σ c s) (hs : Still s s')
    (hlabels : s.draft.labels.size ≤ s'.draft.labels.size) : Around x F σ c s' where
  ready := h.ready.still hs
  next := by rw [hs.locals]; exact h.next
  loops := fun f hf => (h.loops f hf).mono hlabels
  exit := hs.exit.trans h.exit

theorem Around.walk {α : Type} {g : Gen α} {Q : α → Prop} (h : Around x F σ c s)
    (hg : Walk c.program (fun _ => True) (fun _ => True) .assigns g Q) : Around x F σ c (g c s).2 :=
  h.still (still_walk hg s) (frame_walk hg s).draft.labels

theorem At.still (h : At x F σ c s) (hs : Still s s')
    (hlabels : s.draft.labels.size ≤ s'.draft.labels.size) : At x F σ c s' where
  toAround := h.toAround.still hs hlabels
  inner := by rw [hs.view]; exact h.inner

theorem At.walk {α : Type} {g : Gen α} {Q : α → Prop} (h : At x F σ c s)
    (hg : Walk c.program (fun _ => True) (fun _ => True) .assigns g Q) : At x F σ c (g c s).2 :=
  h.still (still_walk hg s) (frame_walk hg s).draft.labels

end

/-! ## Outcomes -/

/-- From `a` the machine comes to the end of `s'`, with the store `st`. -/
def Arrives (x : Site) (F : Draft) (a : Status Nat) (s' : State) (st : Store) : Prop :=
  Live s' ∧ ∃ m, Holds x F st m ∧ m.stack = [] ∧ Reach F.fetch 0 a (here s' m)

/-- From `a` the machine jumps to the label `l`, with the store `st`. -/
def Leaves (x : Site) (F : Draft) (a : Status Nat) (s' : State) (l : Label) (st : Store) : Prop :=
  s'.draft.Targeted l ∧
    ∃ k m, F.target? l = some k ∧ Holds x F st m ∧ m.stack = [] ∧ Reach F.fetch 1 a (.running k m)

/-- What a method can return. -/
def Returns (x : Site) : Option Value → Prop
  | none => x.method.ret = .void
  | some v => v.type.static = x.method.ret

/-- The words of what a method returns. -/
def resultWords (v : Option Value) : List Int32 := (v.map Value.word).toList

/-- The loop that a jump goes to. -/
def loopOf (c : Context) (kind : Option LoopKind) : Option LoopFrame :=
  c.loops.find? fun f => kind.all (· = f.kind)

/-- From `a` the machine goes where the outcome says, and the code ends at `s'`. -/
def Ends (x : Site) (F : Draft) (c : Context) (a : Status Nat) (s' : State) (p : Outcome × Store) :
    Prop :=
  match p.1 with
  | .normal => Arrives x F a s' p.2
  | .break_ kind => ∃ f, loopOf c kind = some f ∧ Leaves x F a s' f.exit p.2
  | .continue_ kind => ∃ f, loopOf c kind = some f ∧ Leaves x F a s' f.next p.2
  | .return_ v => Returns x v ∧ Reach F.fetch 0 a (.returned (resultWords v))

section

variable {x : Site} {F : Draft} {c : Context} {a b : Status Nat} {s' s'' : State} {st : Store} {l : Label}
  {j : Nat} {p : Outcome × Store}

theorem Arrives.after (hab : Reach F.fetch j a b) (h : Arrives x F b s' st) : Arrives x F a s' st := by
  obtain ⟨hlive, m, hm, hstack, hreach⟩ := h
  exact ⟨hlive, m, hm, hstack, (hab.trans hreach).weaken (Nat.zero_le _)⟩

theorem Leaves.after (hab : Reach F.fetch j a b) (h : Leaves x F b s' l st) : Leaves x F a s' l st := by
  obtain ⟨htargeted, k, m, hk, hm, hstack, hreach⟩ := h
  exact ⟨htargeted, k, m, hk, hm, hstack, (hab.trans hreach).weaken (Nat.le_add_left ..)⟩

theorem Leaves.later (h : Leaves x F a s' l st)
    (ht : ∀ l, s'.draft.Targeted l → s''.draft.Targeted l) : Leaves x F a s'' l st :=
  ⟨ht l h.1, h.2⟩

theorem Ends.after (hab : Reach F.fetch j a b) (h : Ends x F c b s' p) : Ends x F c a s' p := by
  obtain ⟨o, st⟩ := p
  cases o with
  | normal => exact Arrives.after hab h
  | break_ kind => exact h.imp fun f hf => ⟨hf.1, hf.2.after hab⟩
  | continue_ kind => exact h.imp fun f hf => ⟨hf.1, hf.2.after hab⟩
  | return_ v => exact ⟨h.1, (hab.trans h.2).weaken (Nat.zero_le _)⟩

/-- A jump stays a jump when more code follows. -/
theorem Ends.later (h : Ends x F c a s' p) (hp : p.1 ≠ .normal)
    (ht : ∀ l, s'.draft.Targeted l → s''.draft.Targeted l) : Ends x F c a s'' p := by
  obtain ⟨o, st⟩ := p
  cases o with
  | normal => exact absurd rfl hp
  | break_ kind => exact h.imp fun f hf => ⟨hf.1, hf.2.later ht⟩
  | continue_ kind => exact h.imp fun f hf => ⟨hf.1, hf.2.later ht⟩
  | return_ v => exact h

end

/-! ## Realization -/

/-- The step `g` realizes what `r` does to the store, with at most `n` rounds of every loop, and leads
from the scope `σ` to `σ'`. -/
def Realizes (x : Site) (F : Draft) (n : Nat) (σ σ' : Scope) (c : Context) (g : Gen Unit)
    (r : Store → Result) : Prop :=
  ∀ ⦃s⦄, At x F σ c s → Final F (g c s).2 → At x F σ' c (g c s).2 ∧
    ∀ ⦃st m⦄, Live s → Holds x F st m → m.stack = [] →
      Follows F n (here s m) (r st) (Ends x F c (here s m) (g c s).2)

theorem code_point (pos : Source.Position) (c : Context) (s : State) :
    (Lowering.point pos c s).2.draft.code = s.draft.code ∧
      (Lowering.point pos c s).2.draft.unreachable = s.draft.unreachable := by
  show (((if c.options.debug then _ else _) : Gen Unit) c s).2.draft.code = _ ∧
    (((if c.options.debug then _ else _) : Gen Unit) c s).2.draft.unreachable = _
  cases c.options.debug <;> exact ⟨rfl, rfl⟩

/-- The mark at the start of a block does nothing. -/
theorem passes_blockMark {F : Draft} {c : Context} {s : State} (hs : Live s)
    (hF : Final F (Lowering.blockMark c s).2) (m : Memory) :
    Live (Lowering.blockMark c s).2 ∧
      Reach F.fetch 0 (here s m) (here (Lowering.blockMark c s).2 m) := by
  have happly : Lowering.blockMark c s =
      ((if c.options.optimize then pure () else emit .nop : Gen Unit) c s) := by
    show ((if c.options.optimize = true then _ else _ : Gen Unit) c s) = _
    cases c.options.optimize <;> rfl
  rw [happly] at hF ⊢
  cases ho : c.options.optimize with
  | true => exact ⟨hs, .refl _⟩
  | false =>
    rw [ho] at hF
    have happ : Draft.Appends ⟨.nop, .none⟩ s.draft (s.draft.emit .nop) := Draft.appends_emit _ rfl
    exact ⟨live_edit (f := (·.emit .nop)) ⟨_, happ, rfl⟩ trivial hs,
      (reach_edit (f := (·.emit .nop)) ⟨_, happ, rfl⟩ hF rfl).weaken (Nat.zero_le _)⟩

namespace Realizes

variable {x : Site} {F : Draft} {n : Nat} {σ σ' σ'' : Scope} {c : Context} {g g' : Gen Unit}
  {r r' : Store → Result}

theorem seq (hg : Realizes x F n σ σ' c g r) (hg' : Realizes x F n σ' σ'' c g' r')
    (hwalk : Walk c.program (fun _ => True) (fun _ => True) .declares g' fun _ => True) :
    Realizes x F n σ σ'' c (g >>= fun _ => g') fun st => do
      match ← r st with
      | (.normal, st) => r' st
      | result => return result := by
  intro s hat hF
  have hF₁ : Final F (g c s).2 := final_before c hwalk hF
  obtain ⟨hat₁, hsim₁⟩ := hg hat hF₁
  obtain ⟨hat₂, hsim₂⟩ := hg' hat₁ hF
  refine ⟨hat₂, fun st m hs hm hstack => (hsim₁ hs hm hstack).bind fun p hp => ?_⟩
  obtain ⟨o, st'⟩ := p
  cases o with
  | normal =>
    obtain ⟨hlive, m', hm', hstack', hreach⟩ := hp
    refine (Follows.after hreach (hsim₂ hlive hm' hstack') ?_).weaken (Nat.le_add_left ..)
    exact fun p hp => hp.after hreach
  | break_ | continue_ | return_ =>
    exact Ends.later hp (by simp) (frame_walk hwalk (g c s).2).draft.targeted

/-- The start of a statement is noted without code. -/
theorem point (hg : Realizes x F n σ σ' c g r) (pos : Source.Position) :
    Realizes x F n σ σ' c (Lowering.point pos >>= fun _ => g) r := by
  intro s hat hF
  obtain ⟨hcode, hlive⟩ := code_point pos c s
  obtain ⟨hat', hsim⟩ := hg (hat.walk (walk_point pos)) hF
  refine ⟨hat', fun st m hs hm hstack => ?_⟩
  have hhere : here (Lowering.point pos c s).2 m = here s m := by rw [here, hcode, here]
  rw [← hhere]
  exact hsim (hlive.trans hs) hm hstack

theorem blockMark (hg : Realizes x F n σ σ' c g r)
    (hwalk : Walk c.program (fun _ => True) (fun _ => True) .declares g fun _ => True) :
    Realizes x F n σ σ' c (Lowering.blockMark >>= fun _ => g) r := by
  intro s hat hF
  obtain ⟨hat', hsim⟩ := hg (hat.walk walk_blockMark) hF
  refine ⟨hat', fun st m hs hm hstack => ?_⟩
  have hF₁ : Final F (Lowering.blockMark c s).2 := final_before c hwalk hF
  have hmark := passes_blockMark hs hF₁ m
  refine (Follows.after hmark.2 (hsim hmark.1 hm hstack) ?_).weaken (Nat.le_add_left ..)
  exact fun p hp => hp.after hmark.2

end Realizes

/-! ## Scopes -/

section

variable {x : Site} {F : Draft} {n k : Nat} {σ σ' : Scope} {c : Context} {g : Gen Unit}
  {r : Store → Result}

/-- What is declared inside a scope of its own is gone behind it; its cells are not used again. -/
theorem Realizes.scoped (hg : Realizes x F n σ σ' c g r)
    (hwalk : Walk c.program (fun _ => True) (fun _ => True) .declares g fun _ => True)
    (hk : σ'.next = σ.next + k) {s : State} (hat : Around x F σ c s)
    (hF : Final F (Lowering.inScope g c s).2) :
    Around x F (σ.skip k) c (Lowering.inScope g c s).2 ∧ (Lowering.inScope g c s).2.view = s.view ∧
      ∀ ⦃st m⦄, Live s → Holds x F st m → m.stack = [] →
        Follows F n (here s m) (r st) (Ends x F c (here s m) (Lowering.inScope g c s).2) := by
  obtain ⟨s₀, hs₀⟩ : ∃ s₀ : State, { s with scopes := [] :: s.scopes } = s₀ := ⟨_, rfl⟩
  obtain ⟨s₁, hs₁⟩ : ∃ s₁, (g c s₀).2 = s₁ := ⟨_, rfl⟩
  obtain ⟨log, hlog⟩ := complain_apply (s₁.scopes.headD []) c { s₁ with scopes := s₁.scopes.tail }
  have happly : (Lowering.inScope g c s).2 = { s₁ with scopes := s₁.scopes.tail, log } := by
    rw [inScope_apply, hs₀, hs₁, hlog]
  have hat₀ : At x F σ c s₀ := by
    subst hs₀
    exact ⟨⟨⟨hat.ready.here, hat.ready.loud, hat.ready.names, hat.ready.celled⟩, hat.next,
      fun f hf => (hat.loops f hf).mono (Nat.le_refl _), hat.exit⟩, by simp [State.view]⟩
  have hframe : Frame (fun _ => True) s₀.draft.labels.size .declares s₀ s₁ := hs₁ ▸ frame_walk hwalk s₀
  have hview : ({ s₁ with scopes := s₁.scopes.tail, log } : State).view = s.view := by
    obtain ⟨new, -, -, hview⟩ := hframe.scopes
    have htail := congrArg List.tail hview
    subst hs₀
    simpa only [State.view, List.map_tail, List.map_cons, extend, List.tail_cons] using htail
  have hF₁ : Final F s₁ := by
    have hwarn := (framed_complain (p := c.program) (T := fun _ => True) (b := .declares)
      (s₁.scopes.headD []) c { s₁ with scopes := s₁.scopes.tail } (sees_any _ _) (Nat.le_refl _)).1
    rw [hlog] at hwarn
    rw [happly] at hF
    have := hF.back hwarn
    exact ⟨this.clean, this.within⟩
  rw [happly]
  obtain ⟨hat₁, hsim⟩ := hg hat₀ (hs₁ ▸ hF₁)
  rw [hs₁] at hat₁ hsim
  refine ⟨⟨⟨hat.ready.here, hat.ready.loud, hat.ready.names.of_view hview, hat.ready.celled⟩,
    hk.symm.trans hat₁.next, fun f hf => (hat₁.loops f hf).mono (Nat.le_refl _), hat₁.exit⟩, hview,
    fun st m hs hm hstack => ?_⟩
  subst hs₀
  refine (hsim hs hm hstack).imp fun p hp => ?_
  obtain ⟨o, st'⟩ := p
  cases o <;> exact hp

theorem Realizes.inScope (hg : Realizes x F n σ σ' c g r)
    (hwalk : Walk c.program (fun _ => True) (fun _ => True) .declares g fun _ => True)
    (hk : σ'.next = σ.next + k) : Realizes x F n σ (σ.skip k) c (Lowering.inScope g) r := by
  intro s hat hF
  obtain ⟨hat', hview, hsim⟩ := hg.scoped hwalk hk hat.toAround hF
  exact ⟨⟨hat', by rw [hview]; exact hat.inner⟩, hsim⟩

/-- The body of a compound statement. -/
theorem Realizes.nested (hg : Realizes x F n σ σ' c g r)
    (hwalk : ∀ p, Walk p (fun _ => True) (fun _ => True) .declares g fun _ => True)
    (hk : σ'.next = σ.next + k) : Realizes x F n σ (σ.skip k) c (Lowering.nested g) r :=
  (hg.blockMark (hwalk _)).inScope (walk_blockMark.seq (hwalk _)) hk

end

end CilScope.Core
