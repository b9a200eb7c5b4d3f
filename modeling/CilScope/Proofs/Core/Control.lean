import CilScope.Proofs.Core.Declaration

/-!
# Control flow of the core

Choices and loops become labels and branches. A label is open from its creation until it is bound, and
code behind it can be reached if the code before it could or if some branch goes there; both are kept
along the steps between. A loop goes round by round, and every round takes the machine at least one
step, so a loop that is out of rounds has kept the machine running for as many steps.
-/

namespace CilScope.Core

open Source (Expr Stmt LoopKind)
open Machine (Memory Status Reach)
open Lowering

/-! ## Labels between statements -/

section

variable {x : Site} {F : Draft} {σ : Scope} {c : Context} {s : State} {l : Label}

theorem At.made {s' : State} (h : At x F σ c s) (hmade : Made l s s') : At x F σ c s' :=
  h.still hmade.still hmade.frame.draft.labels

theorem At.mark (h : At x F σ c s) (l : Label) : At x F σ c (mark l c s).2 :=
  h.still ⟨Draft.locals_mark s.draft, rfl, rfl⟩ (Nat.le_of_eq (Draft.size_labels_mark s.draft).symm)

theorem Arrives.mark {a : Status Nat} {st : Store} (h : Arrives x F a s st) (l : Label) :
    Arrives x F a (Lowering.mark l c s).2 st := by
  obtain ⟨hlive, m, hm, hstack, hreach⟩ := h
  refine ⟨live_mark.2 (.inl hlive), m, hm, hstack, ?_⟩
  rw [here_mark]
  exact hreach

theorem Ends.mark {a : Status Nat} {p : Outcome × Store} (h : Ends x F c a s p) (l : Label) :
    Ends x F c a (Lowering.mark l c s).2 p := by
  obtain ⟨o, st⟩ := p
  cases o with
  | normal => exact Arrives.mark h l
  | break_ | continue_ | return_ =>
    exact h.later (by simp) fun l' hl' => Draft.targeted_mark s.draft hl'

/-- A jump to a label that is bound next leads on behind the label. -/
theorem arrives_of_jump {a : Status Nat} {st : Store} {m : Memory} (htargeted : s.draft.Targeted l)
    (hm : Holds x F st m) (hstack : m.stack = [])
    (hreach : Reach F.fetch 1 a (.running s.draft.code.size m)) :
    Arrives x F a (Lowering.mark l c s).2 st := by
  refine ⟨live_mark.2 (.inr htargeted), m, hm, hstack, ?_⟩
  rw [here_mark]
  exact hreach.weaken (Nat.zero_le _)

end

/-! ## Choices -/

section

variable {x : Site} {F : Draft} {n : Nat} {σ σ' σ'' : Scope} {c : Context}

theorem walk_nested {p : Program} {g : Gen Unit}
    (hg : Walk p (fun _ => True) (fun _ => True) .declares g fun _ => True) :
    Walk p (fun _ => True) (fun _ => True) .declares (nested g) fun _ => True :=
  .inScope (walk_blockMark.seq hg)

theorem at_jump {s : State} (h : At x F σ c s) (e : Expr) (l : Label) (w : Bool) :
    At x F σ c ((compile e).jump l w c s).2 :=
  h.still (still_jump c s e l w) (frame_jump c s e l w).draft.labels

/-- A choice without an alternative. -/
theorem realizes_if {e : Expr} {g : Gen Unit} {r : Store → Result} {k : Nat} (he : coreExpr x σ e)
    (hg : Realizes x F n σ σ' c g r)
    (hwalk : ∀ p, Walk p (fun _ => True) (fun _ => True) .declares g fun _ => True)
    (hk : σ'.next = σ.next + k) :
    Realizes x F n σ (σ.skip k) c (ifStatement (compile e) g none) fun st =>
      test x σ e st >>= fun b => if b then r st else .ok (.normal, st) := by
  intro s hat hF
  obtain ⟨otherwise, s₁, hnew, hmade⟩ := made_newLabel c s
  obtain ⟨s₂, hs₂⟩ : ∃ s₂, ((compile e).jump otherwise false c s₁).2 = s₂ := ⟨_, rfl⟩
  obtain ⟨s₃, hs₃⟩ : ∃ s₃, (nested g c s₂).2 = s₃ := ⟨_, rfl⟩
  have happly : (ifStatement (compile e) g none c s).2 = (mark otherwise c s₃).2 := by
    subst hs₂ hs₃
    cases hnew
    rfl
  have hframe₂ := hs₂ ▸ frame_jump c s₁ e otherwise false
  have hframe₃ : Frame (fun _ => True) s₂.draft.labels.size .declares s₂ s₃ :=
    hs₃ ▸ frame_walk (walk_nested (hwalk _)) s₂
  have hopen₃ := (hmade.opened.frame hframe₂).frame hframe₃
  rw [happly] at hF ⊢
  have hF₃ := hF.back_mark hopen₃
  have hF₂ := hF₃.back hframe₃
  have hat₁ := hat.made hmade
  have hat₂ : At x F σ c s₂ := hs₂ ▸ at_jump hat₁ e otherwise false
  obtain ⟨hat₃, hsim⟩ := hg.nested hwalk hk hat₂ (hs₃ ▸ hF₃)
  rw [hs₃] at hat₃ hsim
  refine ⟨hat₃.mark otherwise, fun st m hs hm hstack => ?_⟩
  have hjump := (simulates_compile e he).jump false hat₁.ready (hmade.live hs) hm hmade.opened.has
    (target_of_mark hF hopen₃) (hs₂ ▸ hF₂) n
  rw [hs₂] at hjump
  rw [hmade.here]
  refine hjump.bind fun b hb => ?_
  cases b with
  | false =>
    obtain ⟨htargeted, hreach⟩ := hb.taken rfl
    exact arrives_of_jump (hframe₃.draft.targeted _ htargeted) hm hstack hreach
  | true =>
    obtain ⟨hlive, hreach⟩ := hb.passed (by decide)
    refine (Follows.after hreach (hsim hlive hm hstack) ?_).weaken (Nat.le_add_left ..)
    exact fun p hp => (hp.after hreach).mark otherwise

/-- The jump over the alternative, where there is something to jump from. -/
def skipTo (stop : Label) : Gen Unit := do
  if ← isReachable then branch .br stop

theorem walk_skipTo {p : Program} {b : Freedom} (stop : Label) :
    Walk p (fun _ => True) (fun _ => True) b (skipTo stop) fun _ => True := by
  refine walk_isReachable.bind fun r _ => ?_
  cases r with
  | true => exact .branch rfl trivial
  | false => exact .pure trivial

theorem skipTo_apply (stop : Label) {s : State} (hs : Live s) :
    skipTo stop c s = branch .br stop c s := by
  show (if s.draft.isReachable = true then _ else _ : Gen Unit) c s = _
  rw [Draft.isReachable, show s.draft.unreachable = false from hs]
  rfl

theorem ifStatement_some (cond : ExprCode) (g g' : Gen Unit) :
    ifStatement cond g (some g') = (do
      let otherwise ← newLabel
      cond.jump otherwise false
      nested g
      let stop ← newLabel
      skipTo stop
      mark otherwise
      nested g'
      mark stop) := by
  simp only [ifStatement, skipTo, bind_assoc]
  refine bind_congr fun otherwise => bind_congr fun _ => bind_congr fun _ => bind_congr fun stop =>
    bind_congr fun reachable => ?_
  cases reachable <;> rfl

/-- A choice between two bodies. -/
theorem realizes_ifElse {e : Expr} {g g' : Gen Unit} {r r' : Store → Result} {k k' : Nat}
    (he : coreExpr x σ e) (hg : Realizes x F n σ σ' c g r)
    (hg' : Realizes x F n (σ.skip k) σ'' c g' r')
    (hwalk : ∀ p, Walk p (fun _ => True) (fun _ => True) .declares g fun _ => True)
    (hwalk' : ∀ p, Walk p (fun _ => True) (fun _ => True) .declares g' fun _ => True)
    (hk : σ'.next = σ.next + k) (hk' : σ''.next = (σ.skip k).next + k') :
    Realizes x F n σ ((σ.skip k).skip k') c (ifStatement (compile e) g (some g')) fun st =>
      test x σ e st >>= fun b => if b then r st else r' st := by
  intro s hat hF
  obtain ⟨otherwise, s₁, hotherwise, hmade₁⟩ := made_newLabel c s
  obtain ⟨s₂, hs₂⟩ : ∃ s₂, ((compile e).jump otherwise false c s₁).2 = s₂ := ⟨_, rfl⟩
  obtain ⟨s₃, hs₃⟩ : ∃ s₃, (nested g c s₂).2 = s₃ := ⟨_, rfl⟩
  obtain ⟨stop, s₄, hstop, hmade₄⟩ := made_newLabel c s₃
  obtain ⟨s₅, hs₅⟩ : ∃ s₅, (skipTo stop c s₄).2 = s₅ := ⟨_, rfl⟩
  obtain ⟨s₆, hs₆⟩ : ∃ s₆, (mark otherwise c s₅).2 = s₆ := ⟨_, rfl⟩
  obtain ⟨s₇, hs₇⟩ : ∃ s₇, (nested g' c s₆).2 = s₇ := ⟨_, rfl⟩
  have happly : (ifStatement (compile e) g (some g') c s).2 = (mark stop c s₇).2 := by
    rw [ifStatement_some]
    subst hs₂ hs₃ hs₅ hs₆ hs₇
    cases hotherwise
    cases hstop
    rfl
  have hframe₂ := hs₂ ▸ frame_jump c s₁ e otherwise false
  have hframe₃ : Frame (fun _ => True) s₂.draft.labels.size .declares s₂ s₃ :=
    hs₃ ▸ frame_walk (walk_nested (hwalk _)) s₂
  have hframe₄ := hmade₄.frame
  have hframe₅ : Frame (fun _ => True) s₄.draft.labels.size .declares s₄ s₅ :=
    hs₅ ▸ frame_walk (c := c) (walk_skipTo stop) s₄
  have hframe₇ : Frame (fun _ => True) s₆.draft.labels.size .declares s₆ s₇ :=
    hs₇ ▸ frame_walk (walk_nested (hwalk' _)) s₆
  have hopen₃ := (hmade₁.opened.frame hframe₂).frame hframe₃
  have hopen₅ := (hopen₃.frame hframe₄).frame hframe₅
  have hne := hmade₄.fresh otherwise hopen₃.has
  have hopen₆ : Open stop s₆ := hs₆ ▸ (hmade₄.opened.frame hframe₅).mark hne
  have hopen₇ := hopen₆.frame hframe₇
  rw [happly] at hF ⊢
  have hF₇ := hF.back_mark hopen₇
  have hF₆ := hF₇.back hframe₇
  have hF₅ := (hs₆ ▸ hF₆ : Final F (mark otherwise c s₅).2).back_mark hopen₅
  have hF₄ := hF₅.back hframe₅
  have hF₃ := hF₄.back hframe₄
  have hF₂ := hF₃.back hframe₃
  have hat₁ := hat.made hmade₁
  have hat₂ : At x F σ c s₂ := hs₂ ▸ at_jump hat₁ e otherwise false
  obtain ⟨hat₃, hthen⟩ := hg.nested hwalk hk hat₂ (hs₃ ▸ hF₃)
  rw [hs₃] at hat₃ hthen
  have hat₄ := hat₃.made hmade₄
  have hat₆ : At x F (σ.skip k) c s₆ := hs₆ ▸ (hs₅ ▸ hat₄.walk (walk_skipTo stop)).mark otherwise
  obtain ⟨hat₇, helse⟩ := hg'.nested hwalk' hk' hat₆ (hs₇ ▸ hF₇)
  rw [hs₇] at hat₇ helse
  refine ⟨hat₇.mark stop, fun st m hs hm hstack => ?_⟩
  have hjump := (simulates_compile e he).jump false hat₁.ready (hmade₁.live hs) hm hmade₁.opened.has
    (target_of_mark (hs₆ ▸ hF₆) hopen₅) (hs₂ ▸ hF₂) n
  rw [hs₂] at hjump
  rw [hmade₁.here]
  have htargeted₇ {l : Label} (hl : s₅.draft.Targeted l) : s₇.draft.Targeted l :=
    hframe₇.draft.targeted l (hs₆ ▸ Draft.targeted_mark s₅.draft hl)
  refine hjump.bind fun b hb => ?_
  cases b with
  | false =>
    obtain ⟨htargeted, hreach⟩ := hb.taken rfl
    have harrives : Arrives x F (here s₁ m) s₆ st := hs₆ ▸ arrives_of_jump (hframe₅.draft.targeted _
      (hframe₄.draft.targeted _ (hframe₃.draft.targeted _ htargeted))) hm hstack hreach
    obtain ⟨hlive, m', hm', hstack', hreach'⟩ := harrives
    refine (Follows.after hreach' (helse hlive hm' hstack') ?_).weaken (Nat.le_add_left ..)
    exact fun p hp => (hp.after hreach').mark stop
  | true =>
    obtain ⟨hlive, hreach⟩ := hb.passed (by decide)
    refine (Follows.after hreach (hthen hlive hm hstack) ?_).weaken (Nat.le_add_left ..)
    intro p hp
    obtain ⟨o, st'⟩ := p
    cases o with
    | normal =>
      -- the end of the first body is reached, so the jump over the second one is there
      obtain ⟨hlive₃, m', hm', hstack', hreach'⟩ := hp
      have hskip : skipTo stop c s₄ = branch .br stop c s₄ := skipTo_apply stop (hmade₄.live hlive₃)
      rw [hskip] at hs₅
      have hbr : Reach F.fetch 1 (here s₄ m') (.running s₇.draft.code.size m') :=
        reach_jump (hs₅ ▸ hF₅ : Final F (branch .br stop c s₄).2) rfl rfl
          (target_of_mark hF hopen₇)
      have htargeted : s₅.draft.Targeted stop := hs₅ ▸ Draft.targeted_branch _ hmade₄.opened.has
      rw [hmade₄.here] at hreach'
      refine Arrives.after (hreach.trans hreach') ?_
      exact arrives_of_jump (htargeted₇ htargeted) hm' hstack' hbr
    | break_ | continue_ | return_ =>
      refine Ends.mark (Ends.later (hp.after hreach) (by simp) fun l hl => ?_) stop
      exact htargeted₇ (hframe₅.draft.targeted l (hframe₄.draft.targeted l hl))

end

/-! ## Rounds of a loop -/

section

variable {x : Site} {F : Draft} {n : Nat} {c : Context} {f : LoopFrame}

/-- Inside a loop. -/
def inside (f : LoopFrame) (c : Context) : Context := { c with loops := f :: c.loops }

theorem loopOf_inside (kind : Option LoopKind) :
    loopOf (inside f c) kind = if kind.all (· = f.kind) then some f else loopOf c kind := by
  rw [loopOf, inside, List.find?_cons]
  cases kind.all (· = f.kind) <;> rfl

/-- What the outcome of the body of a loop means for the loop: it goes on to the next round, it ends,
or it is left for something around it. -/
theorem ends_inside {a : Status Nat} {s : State} {o : Outcome} {st : Store}
    (h : Ends x F (inside f c) a s (o, st)) :
    (loopOutcome f.kind o = none ∧ (Arrives x F a s st ∨ Leaves x F a s f.next st)) ∨
    (loopOutcome f.kind o = some .normal ∧ Leaves x F a s f.exit st) ∨
    (∃ o', loopOutcome f.kind o = some o' ∧ o' ≠ .normal ∧ Ends x F c a s (o', st)) := by
  cases o with
  | normal => exact .inl ⟨rfl, .inl h⟩
  | return_ v => exact .inr (.inr ⟨_, rfl, by simp, h⟩)
  | break_ kind =>
    obtain ⟨g, hg, hleaves⟩ := h
    rw [loopOf_inside] at hg
    simp only [loopOutcome]
    split at hg
    · rename_i hkind
      cases hg
      exact .inr (.inl ⟨if_pos hkind, hleaves⟩)
    · rename_i hkind
      exact .inr (.inr ⟨_, if_neg hkind, by simp, g, hg, hleaves⟩)
  | continue_ kind =>
    obtain ⟨g, hg, hleaves⟩ := h
    rw [loopOf_inside] at hg
    simp only [loopOutcome]
    split at hg
    · rename_i hkind
      cases hg
      exact .inl ⟨if_pos hkind, .inr hleaves⟩
    · rename_i hkind
      exact .inr (.inr ⟨_, if_neg hkind, by simp, g, hg, hleaves⟩)

/-- From `a` the machine comes, by at least one step, to `head`, the head of a loop. -/
def Comes (x : Site) (F : Draft) (head : Nat) (a : Status Nat) (st : Store) : Prop :=
  ∃ m, Holds x F st m ∧ m.stack = [] ∧ Reach F.fetch 1 a (.running head m)

variable {test : Store → Except Halt Bool} {body : Store → Result} {step : Store → Except Halt Store}
  {head exit : Nat} {s s' s'' : State}

/-- The rounds of a loop tested at its top: the test stands between `head` and `s`, the body ends at
`s'`, and the loop at `s''`. -/
theorem follows_whileRounds (hexit : F.target? f.exit = some exit)
    (htest : ∀ st m, Holds x F st m → m.stack = [] → ∀ j, Follows F j (.running head m) (test st)
      (Jumps F f.exit exit false (.running head m) s m))
    (hbody : ∀ st m, Live s → Holds x F st m → m.stack = [] →
      Follows F n (here s m) (body st) (Ends x F (inside f c) (here s m) s'))
    (hstep : ∀ a st, Arrives x F a s' st ∨ Leaves x F a s' f.next st → ∀ j,
      Follows F j a (step st) (Comes x F head a))
    (hend : ∀ a st, Leaves x F a s' f.exit st → Arrives x F a s'' st)
    (hs' : ∀ l, s.draft.Targeted l → s'.draft.Targeted l)
    (hs'' : ∀ l, s'.draft.Targeted l → s''.draft.Targeted l) :
    ∀ j ≤ n, ∀ st m, Holds x F st m → m.stack = [] →
      Follows F j (.running head m) (whileRounds f.kind test body step j st)
        (Ends x F c (.running head m) s'') := by
  intro j
  induction j with
  | zero => exact fun _ st m _ _ => ⟨head, m, .refl _⟩
  | succ j ih =>
    intro hj st m hm hstack
    refine (htest st m hm hstack (j + 1)).bind fun b hb => ?_
    cases b with
    | false =>
      obtain ⟨htargeted, hreach⟩ := hb.taken rfl
      exact hend _ st ⟨hs' _ htargeted, exit, m, hexit, hm, hstack, hreach⟩
    | true =>
      obtain ⟨hlive, hreach⟩ := hb.passed (by decide)
      have hround := (hbody st m hlive hm hstack).weaken hj
      refine (Follows.after hreach hround fun p hp => hp.after hreach).weaken (Nat.le_add_left ..)
        |>.bind fun p hp => ?_
      obtain ⟨o, st'⟩ := p
      rcases ends_inside hp with ⟨ho, hnext⟩ | ⟨ho, hleaves⟩ | ⟨o', ho, hne, hends⟩
      · -- one more round, which is at least one step away
        simp only [ho]
        refine (hstep _ st' hnext (j + 1)).bind fun st'' ⟨m', hm', hstack', hreach'⟩ => ?_
        rw [Nat.add_comm j 1]
        exact Follows.after hreach' (ih (Nat.le_of_succ_le hj) st'' m' hm' hstack')
          fun p hp => hp.after hreach'
      · simp only [ho]
        exact hend _ st' hleaves
      · simp only [ho]
        exact Ends.later hends hne hs''

/-- The rounds of a loop tested at its bottom: the body stands between `head` and `s'`, and the loop
ends at `s''`. -/
theorem follows_doRounds (hkind : f.kind = .do_)
    (hbody : ∀ st m, Holds x F st m → m.stack = [] → Follows F n (.running head m) (body st)
      (Ends x F (inside f c) (.running head m) s'))
    (htest : ∀ a st, Arrives x F a s' st ∨ Leaves x F a s' f.next st → ∀ j,
      Follows F j a (test st) fun b => if b then Comes x F head a st else Arrives x F a s'' st)
    (hend : ∀ a st, Leaves x F a s' f.exit st → Arrives x F a s'' st)
    (hs'' : ∀ l, s'.draft.Targeted l → s''.draft.Targeted l) :
    ∀ j ≤ n, ∀ st m, Holds x F st m → m.stack = [] →
      Follows F j (.running head m) (doRounds test body j st) (Ends x F c (.running head m) s'') := by
  intro j
  induction j with
  | zero => exact fun _ st m _ _ => ⟨head, m, .refl _⟩
  | succ j ih =>
    intro hj st m hm hstack
    refine ((hbody st m hm hstack).weaken hj).bind fun p hp => ?_
    obtain ⟨o, st'⟩ := p
    have hcases := ends_inside hp
    rw [hkind] at hcases
    rcases hcases with ⟨ho, hnext⟩ | ⟨ho, hleaves⟩ | ⟨o', ho, hne, hends⟩
    · simp only [ho]
      refine (htest _ st' hnext (j + 1)).bind fun b hb => ?_
      cases b with
      | false => exact hb
      | true =>
        obtain ⟨m', hm', hstack', hreach⟩ := hb
        simp only [if_true]
        rw [Nat.add_comm j 1]
        exact Follows.after hreach (ih (Nat.le_of_succ_le hj) st' m' hm' hstack')
          fun p hp => hp.after hreach
    · simp only [ho]
      exact hend _ st' hleaves
    · simp only [ho]
      exact Ends.later hends hne hs''

end

/-! ## Loops -/

theorem walk_update {x : Site} {σ : Scope} {stmt : Stmt} (h : coreUpdate x σ stmt) {p : Program}
    {L : Exit → Prop} {b : Freedom} (hb : b ≠ .reads) :
    Walk p (fun _ => True) L b (statement stmt) fun _ => True := by
  unfold coreUpdate at h
  split at h
  · exact (walk_point _).seq (walk_assign (typing_any p) _ _ _ hb)
  · exact (walk_point _).seq (walk_increment (typing_any p) _ _ hb)
  · cases h

section

variable {x : Site} {F : Draft} {n : Nat} {σ σ' : Scope} {c : Context}

/-- A jump to a label bound next. -/
theorem Leaves.arrives {a : Status Nat} {s s' : State} {l : Label} {st : Store}
    (h : Leaves x F a s l st) (ht : ∀ l, s.draft.Targeted l → s'.draft.Targeted l)
    (hl : F.target? l = some s'.draft.code.size) : Arrives x F a (mark l c s').2 st := by
  obtain ⟨htargeted, k, m, hk, hm, hstack, hreach⟩ := h
  rw [hl] at hk
  cases hk
  exact arrives_of_jump (ht l htargeted) hm hstack hreach

theorem ready_inside {s : State} {f : LoopFrame} :
    Ready x F σ (inside f c) s ↔ Ready x F σ c s :=
  ⟨fun ⟨⟨hp, ho, hm, hi, ha, hr, ht⟩, hloud, hnames, hcelled⟩ =>
      ⟨⟨hp, ho, hm, hi, ha, hr, ht⟩, hloud, hnames, hcelled⟩,
    fun ⟨⟨hp, ho, hm, hi, ha, hr, ht⟩, hloud, hnames, hcelled⟩ =>
      ⟨⟨hp, ho, hm, hi, ha, hr, ht⟩, hloud, hnames, hcelled⟩⟩

theorem At.inside {s : State} {f : LoopFrame} (h : At x F σ c s) (hf : Looped F s f) :
    At x F σ (inside f c) s :=
  ⟨⟨ready_inside.2 h.ready, h.next, List.forall_mem_cons.2 ⟨hf, h.loops⟩, h.exit⟩, h.inner⟩

theorem At.outside {s : State} {f : LoopFrame} (h : At x F σ (Core.inside f c) s) : At x F σ c s :=
  ⟨⟨ready_inside.1 h.ready, h.next, (List.forall_mem_cons.1 h.loops).2, h.exit⟩, h.inner⟩

theorem Ready.unskip {s : State} {k : Nat} (h : Ready x F (σ.skip k) c s) : Ready x F σ c s :=
  ⟨h.here, h.loud, h.names, h.celled⟩

/-- The test at the top of a loop. -/
theorem follows_loopTest {cond : Option Expr} {l : Label} {k : Nat} {s : State} {st : Store}
    {m : Memory} (he : cond.all (coreExpr x σ)) (hready : Ready x F σ c s) (hs : Live s)
    (hl : s.draft.Has l) (hk : F.target? l = some k) (hF : Final F (loopTest cond l c s).2)
    (hm : Holds x F st m) (j : Nat) :
    Follows F j (here s m) (topTest x σ cond st)
      (Jumps F l k false (here s m) (loopTest cond l c s).2 m) := by
  have hpass : Jumps F l k false (here s m) s m true :=
    ⟨fun h => (by cases h), fun _ => ⟨hs, .refl _⟩⟩
  unfold loopTest at hF ⊢
  split at hF
  · exact hpass
  · exact hpass
  · rename_i e _
    exact (simulates_compile e he).jump false hready hs hm hl hk hF j

/-- What follows the body of a loop that is tested at its top, up to the head again. -/
theorem comes_loopStep {step : Option Stmt} {head next : Label} {k : Nat} {s : State} {a : Status Nat}
    {st : Store} (hstep : step.all (coreUpdate x σ)) (hready : Ready x F σ c s)
    (hhead : F.target? head = some k) (hnone : step = none → next = head)
    (hsome : step.isSome → Open next s)
    (hF : Final F (branch .br head c (loopStep (step.map statement) next c s).2).2)
    (h : Arrives x F a s st ∨ Leaves x F a s next st) (j : Nat) :
    Follows F j a (roundStep x σ step st) (Comes x F k a) := by
  -- the jump back to the head
  have hback {s : State} {st : Store} (hF : Final F (branch .br head c s).2)
      (h : Arrives x F a s st) : Comes x F k a st := by
    obtain ⟨-, m, hm, hstack, hreach⟩ := h
    have hbr : Reach F.fetch 1 (here s m) (.running k m) := reach_jump hF rfl rfl hhead
    exact ⟨m, hm, hstack, (hreach.trans hbr).weaken (Nat.le_add_left ..)⟩
  cases step with
  | none =>
    cases hnone rfl
    rcases h with h | ⟨-, k', m, hk', hm, hstack, hreach⟩
    · exact hback hF h
    · rw [hhead] at hk'
      cases hk'
      exact ⟨m, hm, hstack, hreach⟩
  | some step =>
    have hwalk : Walk c.program (fun _ => True) (fun _ => True) .declares (statement step) fun _ => True :=
      walk_update hstep (by decide)
    have hF₂ : Final F (statement step c (mark next c s).2).2 := final_before c (.branch rfl trivial) hF
    have hF₁ : Final F (mark next c s).2 := final_before c hwalk hF₂
    have harrives : Arrives x F a (mark next c s).2 st := by
      rcases h with h | h
      · exact h.mark next
      · exact h.arrives (fun _ => id) (target_of_mark hF₁ (hsome rfl))
    obtain ⟨hlive, m, hm, hstack, hreach⟩ := harrives
    have hready₁ : Ready x F σ c (mark next c s).2 :=
      hready.still ⟨Draft.locals_mark s.draft, rfl, rfl⟩
    refine (Follows.after hreach (updates_statement hstep hready₁ hlive hm hstack hF₂ j) ?_).weaken
      (Nat.le_add_left ..)
    exact fun st' h' => hback hF (h'.after hreach)

/-- Makes the labels of a loop: of its head, of its end, and of the start of the next round. -/
def loopLabels (step : Option (Gen Unit)) : Gen (Label × Label × Label) := do
  let head ← newLabel
  let exit ← newLabel
  let next ← nextLabel step head
  return (head, exit, next)

/-- The labels of a loop are new, and nothing else is. -/
structure Fresh (own : Bool) (head exit next : Label) (s s' : State) : Prop where
  openHead : Open head s'
  openExit : Open exit s'
  exitNe : exit.index ≠ head.index
  nextOwn : own = true → Open next s' ∧ next.index ≠ head.index ∧ next.index ≠ exit.index
  nextHead : own = false → next = head
  still : Still s s'
  labels : s.draft.labels.size ≤ s'.draft.labels.size
  code : s'.draft.code = s.draft.code
  live : Live s → Live s'

theorem fresh_loopLabels (step : Option (Gen Unit)) (c : Context) (s : State) :
    ∃ head exit next s', loopLabels step c s = ((head, exit, next), s') ∧
      Fresh step.isSome head exit next s s' := by
  obtain ⟨head, s₁, hhead, hmade₁⟩ := made_newLabel c s
  obtain ⟨exit, s₂, hexit, hmade₂⟩ := made_newLabel c s₁
  have hopen := hmade₁.opened.frame hmade₂.frame
  have hne := hmade₂.fresh head hmade₁.opened.has
  have hlabels := Nat.le_trans hmade₁.frame.draft.labels hmade₂.frame.draft.labels
  have hcode := hmade₂.code.trans hmade₁.code
  cases step with
  | none =>
    refine ⟨head, exit, head, s₂, ?_, hopen, hmade₂.opened, hne, fun h => (by cases h), fun _ => rfl,
      hmade₁.still.trans hmade₂.still, hlabels, hcode, fun hs => hmade₂.live (hmade₁.live hs)⟩
    cases hhead
    cases hexit
    rfl
  | some step =>
    obtain ⟨next, s₃, hnext, hmade₃⟩ := made_newLabel c s₂
    refine ⟨head, exit, next, s₃, ?_, hopen.frame hmade₃.frame, hmade₂.opened.frame hmade₃.frame, hne,
      fun _ => ⟨hmade₃.opened, hmade₃.fresh head hopen.has, hmade₃.fresh exit hmade₂.opened.has⟩,
      fun h => (by cases h), (hmade₁.still.trans hmade₂.still).trans hmade₃.still,
      Nat.le_trans hlabels hmade₃.frame.draft.labels, hmade₃.code.trans hcode,
      fun hs => hmade₃.live (hmade₂.live (hmade₁.live hs))⟩
    cases hhead
    cases hexit
    cases hnext
    rfl

theorem At.fresh {own : Bool} {head exit next : Label} {s s' : State} (h : At x F σ c s)
    (hfresh : Fresh own head exit next s s') : At x F σ c s' :=
  h.still hfresh.still hfresh.labels

theorem walk_loopTest {p : Program} {b : Freedom} (cond : Option Expr) (l : Label) :
    Walk p (fun _ => True) (fun _ => True) b (loopTest cond l) fun _ => True := by
  unfold loopTest
  split
  · exact .pure trivial
  · exact .pure trivial
  · exact (walks_compile (typing_any p) _).jump false trivial

section

variable {step : Option Stmt} {next : Label} {s : State}

theorem at_loopStep (hstep : step.all (coreUpdate x σ)) (h : At x F σ' c s) :
    At x F σ' c (loopStep (step.map statement) next c s).2 := by
  cases step with
  | none => exact h
  | some step => exact (h.mark next).walk (walk_update hstep (by decide))

theorem final_loopStep (hstep : step.all (coreUpdate x σ)) (hnext : step.isSome → Open next s)
    (hF : Final F (loopStep (step.map statement) next c s).2) :
    Final F s ∧ (step.isSome → F.target? next = some s.draft.code.size) := by
  cases step with
  | none => exact ⟨hF, fun h => (by cases h)⟩
  | some step =>
    have hF₁ : Final F (mark next c s).2 :=
      final_before c (walk_update hstep (b := .declares) (by decide)) hF
    exact ⟨hF₁.back_mark (hnext rfl), fun _ => target_of_mark hF₁ (hnext rfl)⟩

theorem open_loopStep {l : Label} (hstep : step.all (coreUpdate x σ)) (h : Open l s)
    (hne : step.isSome → l.index ≠ next.index) :
    Open l (loopStep (step.map statement) next c s).2 := by
  cases step with
  | none => exact h
  | some step =>
    have hwalk : Walk c.program (fun _ => True) (fun _ => True) .declares (statement step) fun _ => True :=
      walk_update hstep (by decide)
    exact (h.mark (hne rfl)).frame (frame_walk hwalk (mark next c s).2)

theorem targeted_loopStep {l : Label} (hstep : step.all (coreUpdate x σ)) (h : s.draft.Targeted l) :
    (loopStep (step.map statement) next c s).2.draft.Targeted l := by
  cases step with
  | none => exact h
  | some step =>
    have hwalk : Walk c.program (fun _ => True) (fun _ => True) .declares (statement step) fun _ => True :=
      walk_update hstep (by decide)
    exact (frame_walk (c := c) hwalk (mark next c s).2).draft.targeted l
      (Draft.targeted_mark s.draft h)

end

/-- A loop tested at its top. -/
theorem realizes_while (kind : LoopKind) {cond : Option Expr} {g : Gen Unit} {r : Store → Result}
    {step : Option Stmt} {k : Nat} (hcond : cond.all (coreExpr x σ))
    (hg : ∀ f, Realizes x F n σ σ' (inside f c) g r)
    (hwalk : ∀ p, Walk p (fun _ => True) (fun _ => True) .declares g fun _ => True)
    (hstep : step.all (coreUpdate x σ)) (hk : σ'.next = σ.next + k) :
    Realizes x F n σ (σ.skip k) c (whileLoop kind cond g (step.map statement))
      (whileRounds kind (topTest x σ cond) r (roundStep x σ step) n) := by
  intro s hat hF
  obtain ⟨head, exit, next, s₁, hlabels, hfresh⟩ := fresh_loopLabels (step.map statement) c s
  rw [Option.isSome_map] at hfresh
  obtain ⟨f, hf⟩ : ∃ f : LoopFrame, ⟨kind, exit, next, c.tryDepth⟩ = f := ⟨_, rfl⟩
  obtain ⟨s₂, hs₂⟩ : ∃ s₂, (mark head c s₁).2 = s₂ := ⟨_, rfl⟩
  obtain ⟨s₃, hs₃⟩ : ∃ s₃, (loopTest cond exit c s₂).2 = s₃ := ⟨_, rfl⟩
  obtain ⟨s₄, hs₄⟩ : ∃ s₄, (nested g (inside f c) s₃).2 = s₄ := ⟨_, rfl⟩
  obtain ⟨s₅, hs₅⟩ : ∃ s₅, (loopStep (step.map statement) next c s₄).2 = s₅ := ⟨_, rfl⟩
  obtain ⟨s₆, hs₆⟩ : ∃ s₆, (branch .br head c s₅).2 = s₆ := ⟨_, rfl⟩
  have happly : (whileLoop kind cond g (step.map statement) c s).2 = (mark exit c s₆).2 := by
    have heq : whileLoop kind cond g (step.map statement) = (do
        let (head, exit, next) ← loopLabels (step.map statement)
        mark head
        loopTest cond exit
        inLoop kind exit next (nested g)
        loopStep (step.map statement) next
        branch .br head
        mark exit) := by
      rw [whileLoop_eq, loopLabels]
      simp only [bind_assoc, pure_bind]
    rw [heq, apply_bind, hlabels]
    subst hf hs₂ hs₃ hs₄ hs₅ hs₆
    rfl
  rw [happly] at hF ⊢
  have hframe₃ : Frame (fun _ => True) s₂.draft.labels.size .declares s₂ s₃ :=
    hs₃ ▸ frame_walk (c := c) (walk_loopTest cond exit) s₂
  have hframe₄ : Frame (fun _ => True) s₃.draft.labels.size .declares s₃ s₄ :=
    hs₄ ▸ frame_walk (c := inside f c) (walk_nested (hwalk _)) s₃
  have hframe₆ : Frame (fun _ => True) s₅.draft.labels.size .declares s₅ s₆ :=
    hs₆ ▸ frame_walk (c := c) (.branch rfl trivial) s₅
  have hopen {l : Label} (hl : Open l s₁) (hne : l.index ≠ head.index) : Open l s₂ ∧ Open l s₄ :=
    have hl₂ : Open l s₂ := hs₂ ▸ hl.mark hne
    ⟨hl₂, (hl₂.frame hframe₃).frame hframe₄⟩
  obtain ⟨hexit₂, hexit₄⟩ := hopen hfresh.openExit hfresh.exitNe
  have hnext₄ (hsome : step.isSome) : Open next s₄ :=
    (hopen (hfresh.nextOwn hsome).1 (hfresh.nextOwn hsome).2.1).2
  have hexit₆ : Open exit s₆ := (hs₅ ▸ open_loopStep hstep hexit₄
    fun hsome => Ne.symm (hfresh.nextOwn hsome).2.2 : Open exit s₅).frame hframe₆
  have hF₆ := hF.back_mark hexit₆
  have hF₅ := hF₆.back hframe₆
  obtain ⟨hF₄, hnextAt⟩ := final_loopStep hstep hnext₄ (hs₅ ▸ hF₅)
  have hF₃ := hF₄.back hframe₄
  have hF₂ := hF₃.back hframe₃
  have hheadAt : F.target? head = some s₁.draft.code.size :=
    target_of_mark (hs₂ ▸ hF₂ : Final F (mark head c s₁).2) hfresh.openHead
  have hexitAt : F.target? exit = some s₆.draft.code.size := target_of_mark hF hexit₆
  have hat₂ : At x F σ c s₂ := hs₂ ▸ (hat.fresh hfresh).mark head
  have hat₃ : At x F σ c s₃ := hs₃ ▸ hat₂.walk (walk_loopTest cond exit)
  have hlooped : Looped F s₃ f := by
    have hexit₃ := hexit₂.frame hframe₃
    subst hf
    cases hown : step.isSome with
    | true =>
      have hnext := hfresh.nextOwn hown
      have hnext₂ : Open next s₂ := hs₂ ▸ hnext.1.mark hnext.2.1
      exact ⟨hexit₃.has, (hnext₂.frame hframe₃).has, ⟨_, hexitAt⟩, ⟨_, hnextAt hown⟩⟩
    | false =>
      have hhead : s₃.draft.Has head := by
        refine Nat.lt_of_lt_of_le ?_ hframe₃.draft.labels
        rw [← hs₂]
        exact Nat.lt_of_lt_of_eq hfresh.openHead.has (Draft.size_labels_mark s₁.draft).symm
      rw [hfresh.nextHead hown]
      exact ⟨hexit₃.has, hhead, ⟨_, hexitAt⟩, ⟨_, hheadAt⟩⟩
  obtain ⟨hat₄, hbody⟩ := (hg f).nested hwalk hk (hat₃.inside hlooped) (hs₄ ▸ hF₄)
  rw [hs₄] at hat₄ hbody
  have hat₅ : At x F (σ.skip k) c s₅ := hs₅ ▸ at_loopStep hstep hat₄.outside
  have hat₆ : At x F (σ.skip k) c s₆ := hs₆ ▸ hat₅.walk (.branch rfl trivial)
  refine ⟨hat₆.mark exit, fun st m hs hm hstack => ?_⟩
  have hlive₂ : Live s₂ := hs₂ ▸ live_mark.2 (.inl (hfresh.live hs))
  have hhere (m : Memory) : here s₂ m = .running s₁.draft.code.size m := by rw [← hs₂, here_mark, here]
  have hstart : here s m = .running s₁.draft.code.size m := by rw [here, hfresh.code]
  have htargeted {l : Label} (hl : s₄.draft.Targeted l) : s₆.draft.Targeted l :=
    hframe₆.draft.targeted l (hs₅ ▸ targeted_loopStep hstep hl)
  rw [hstart]
  subst hf
  refine follows_whileRounds hexitAt (fun st m hm hstack j => ?_)
    (fun st m hlive hm hstack => hbody hlive hm hstack) (fun a st h j => ?_) (fun a st h => ?_)
    hframe₄.draft.targeted (fun l hl => Draft.targeted_mark s₆.draft (htargeted hl)) n (Nat.le_refl n)
    st m hm hstack
  · have := follows_loopTest hcond hat₂.ready hlive₂ hexit₂.has hexitAt (hs₃ ▸ hF₃) hm j
    rwa [hs₃, hhere] at this
  · have hready : Ready x F σ c s₄ := hat₄.outside.ready.unskip
    subst hs₅ hs₆
    exact comes_loopStep hstep hready hheadAt (fun hnone => hfresh.nextHead (by rw [hnone]; rfl))
      hnext₄ hF₆ h j
  · exact h.arrives (fun _ => htargeted) hexitAt

/-- A loop tested at its bottom. -/
theorem realizes_do {cond : Expr} {until_ : Bool} {g : Gen Unit} {r : Store → Result} {k : Nat}
    (hcond : coreExpr x σ cond) (hg : ∀ f, Realizes x F n σ σ' (inside f c) g r)
    (hwalk : ∀ p, Walk p (fun _ => True) (fun _ => True) .declares g fun _ => True)
    (hk : σ'.next = σ.next + k) :
    Realizes x F n σ (σ.skip k) c (doLoop g cond until_)
      (doRounds (fun st => return (← test x σ cond st) ^^ until_) r n) := by
  intro s hat hF
  obtain ⟨head, exit, next, s₁, hlabels, hfresh⟩ := fresh_loopLabels (some (pure ())) c s
  obtain ⟨hnext₁, hnextHead, hnextExit⟩ := hfresh.nextOwn rfl
  obtain ⟨f, hf⟩ : ∃ f : LoopFrame, ⟨.do_, exit, next, c.tryDepth⟩ = f := ⟨_, rfl⟩
  obtain ⟨s₂, hs₂⟩ : ∃ s₂, (mark head c s₁).2 = s₂ := ⟨_, rfl⟩
  obtain ⟨s₃, hs₃⟩ : ∃ s₃, (nested g (inside f c) s₂).2 = s₃ := ⟨_, rfl⟩
  obtain ⟨s₄, hs₄⟩ : ∃ s₄, (mark next c s₃).2 = s₄ := ⟨_, rfl⟩
  obtain ⟨s₅, hs₅⟩ : ∃ s₅, ((compile cond).jump head (!until_) c s₄).2 = s₅ := ⟨_, rfl⟩
  have happly : (doLoop g cond until_ c s).2 = (mark exit c s₅).2 := by
    have heq : doLoop g cond until_ = (do
        let (head, exit, next) ← loopLabels (some (pure ()))
        mark head
        inLoop .do_ exit next (nested g)
        mark next
        (compile cond).jump head (!until_)
        mark exit) := by
      simp only [doLoop, loopLabels, nextLabel, bind_assoc, pure_bind]
    rw [heq, apply_bind, hlabels]
    subst hf hs₂ hs₃ hs₄ hs₅
    rfl
  rw [happly] at hF ⊢
  have hframe₃ : Frame (fun _ => True) s₂.draft.labels.size .declares s₂ s₃ :=
    hs₃ ▸ frame_walk (c := inside f c) (walk_nested (hwalk _)) s₂
  have hframe₅ := hs₅ ▸ frame_jump c s₄ cond head (!until_)
  have hexit₂ : Open exit s₂ := hs₂ ▸ hfresh.openExit.mark hfresh.exitNe
  have hnext₂ : Open next s₂ := hs₂ ▸ hnext₁.mark hnextHead
  have hnext₃ := hnext₂.frame hframe₃
  have hexit₄ : Open exit s₄ := hs₄ ▸ (hexit₂.frame hframe₃).mark (Ne.symm hnextExit)
  have hexit₅ := hexit₄.frame hframe₅
  have hF₅ := hF.back_mark hexit₅
  have hF₄ := hF₅.back hframe₅
  have hF₃ := (hs₄ ▸ hF₄ : Final F (mark next c s₃).2).back_mark hnext₃
  have hF₂ := hF₃.back hframe₃
  have hheadAt : F.target? head = some s₁.draft.code.size :=
    target_of_mark (hs₂ ▸ hF₂ : Final F (mark head c s₁).2) hfresh.openHead
  have hnextAt : F.target? next = some s₃.draft.code.size := target_of_mark (hs₄ ▸ hF₄) hnext₃
  have hexitAt : F.target? exit = some s₅.draft.code.size := target_of_mark hF hexit₅
  have hat₂ : At x F σ c s₂ := hs₂ ▸ (hat.fresh hfresh).mark head
  have hlooped : Looped F s₂ f := hf ▸ ⟨hexit₂.has, hnext₂.has, ⟨_, hexitAt⟩, ⟨_, hnextAt⟩⟩
  obtain ⟨hat₃, hbody⟩ := (hg f).nested hwalk hk (hat₂.inside hlooped) (hs₃ ▸ hF₃)
  rw [hs₃] at hat₃ hbody
  have hat₄ : At x F (σ.skip k) c s₄ := hs₄ ▸ hat₃.outside.mark next
  have hat₅ : At x F (σ.skip k) c s₅ := hs₅ ▸ at_jump hat₄ cond head (!until_)
  refine ⟨hat₅.mark exit, fun st m hs hm hstack => ?_⟩
  have hlive₂ : Live s₂ := hs₂ ▸ live_mark.2 (.inl (hfresh.live hs))
  have hhere (m : Memory) : here s₂ m = .running s₁.draft.code.size m := by rw [← hs₂, here_mark, here]
  have hstart : here s m = .running s₁.draft.code.size m := by rw [here, hfresh.code]
  have hhas : s₄.draft.Has head := by
    have hsize₄ : s₄.draft.labels.size = s₃.draft.labels.size := hs₄ ▸ Draft.size_labels_mark s₃.draft
    have hsize₂ : s₂.draft.labels.size = s₁.draft.labels.size := hs₂ ▸ Draft.size_labels_mark s₁.draft
    have hlabels₃ := hframe₃.draft.labels
    have hhas₁ : head.index < s₁.draft.labels.size := hfresh.openHead.has
    show head.index < s₄.draft.labels.size
    omega
  have htargeted₅ {l : Label} (hl : s₃.draft.Targeted l) : s₅.draft.Targeted l :=
    hframe₅.draft.targeted l (hs₄ ▸ Draft.targeted_mark s₃.draft hl)
  rw [hstart]
  subst hf
  refine follows_doRounds (f := ⟨.do_, exit, next, c.tryDepth⟩) rfl (fun st m hm hstack => ?_) (fun a st h j => ?_) (fun a st h => ?_)
    (fun l hl => Draft.targeted_mark s₅.draft (htargeted₅ hl)) n (Nat.le_refl n) st m hm hstack
  · rw [← hhere]
    exact hbody hlive₂ hm hstack
  · have harrives : Arrives x F a s₄ st := by
      rw [← hs₄]
      rcases h with h | h
      · exact h.mark next
      · exact h.arrives (fun _ => id) hnextAt
    obtain ⟨hlive, m', hm', hstack', hreach⟩ := harrives
    have hjump := (simulates_compile cond hcond).jump (!until_) hat₄.ready.unskip hlive hm' hhas
      hheadAt (hs₅ ▸ hF₅) j
    rw [hs₅] at hjump
    refine (Follows.after hreach hjump fun _ h => h).weaken (Nat.le_add_left ..) |>.bind fun b hb => ?_
    show if b ^^ until_ then _ else _
    by_cases hb' : b = !until_
    · obtain ⟨-, hreach'⟩ := hb.taken hb'
      have htrue : (b ^^ until_) = true := by rw [hb']; cases until_ <;> rfl
      rw [htrue]
      exact ⟨m', hm', hstack', (hreach.trans hreach').weaken (Nat.le_add_left ..)⟩
    · obtain ⟨hlive', hreach'⟩ := hb.passed hb'
      have hfalse : (b ^^ until_) = false := by revert hb'; cases b <;> cases until_ <;> decide
      rw [hfalse]
      have harrives : Arrives x F a s₅ st :=
        ⟨hlive', m', hm', hstack', (hreach.trans hreach').weaken (Nat.zero_le _)⟩
      exact harrives.mark exit
  · exact h.arrives (fun _ => htargeted₅) hexitAt

end

end CilScope.Core
