import CilScope.Proofs.Draft.Alive

/-!
# Where control comes to

The draft answers `isReachable` while its code is written, from one bit. `Reached d k` is what that bit
stands for: along the finished code of `d`, control comes from its start to the instruction `k`. The bit
errs on one side only: it is set wherever control comes to (`Block.isReachable_of_reached`), and where it
is set although control does not come there, a branch that control does not come to has set it
(`Block.reached_of_isReachable`).
-/

namespace CilScope.Draft

/-- Control comes from the start of the draft to the instruction `k`, or to its end. -/
inductive Reached (d : Draft) : (k : Nat) → Prop
  | start : Reached d 0
  | falls {k : Nat} {i : DraftInstruction} (h : Reached d k) (hi : d.code[k]? = some i)
      (hfalls : i.opcode.fallsThrough) : Reached d (k + 1)
  | jumps {k t : Nat} {i : DraftInstruction} {l : Label} (h : Reached d k) (hi : d.code[k]? = some i)
      (hl : i.operand = .label l) (ht : d.target? l = some t) : Reached d t
  | handled {k : Nat} {c : DraftClause} (h : Reached d k) (hc : c ∈ d.clauses) (hle : c.tryStart ≤ k)
      (hlt : k < c.handlerStart) : Reached d c.handlerStart

/-- Control comes to every branch of the draft. -/
def Lively (d : Draft) : Prop :=
  ∀ k i l, d.code[k]? = some i → i.operand = .label l → d.Reached k

variable {x : Exits} {A : Nat → Prop} {a : Prop} {d d' f : Draft}

/-! ## Control comes to no place that the draft takes for dead -/

/-- Control that starts in a set that it does not leave stays there. -/
theorem Alive.of_reached (h : Alive A a d) (hd : Sound d) (hstart : A 0 ∨ d.code.size = 0 ∧ a) {k : Nat}
    (hk : d.Reached k) : A k ∨ k = d.code.size ∧ a := by
  -- the end of the draft has no instruction that control could go on from
  have hlast {k : Nat} {i : DraftInstruction} (hi : d.code[k]? = some i)
      (hk : A k ∨ k = d.code.size ∧ a) : A k := by
    refine hk.resolve_right fun ⟨hsize, _⟩ => ?_
    rw [hsize, Array.getElem?_eq_none (Nat.le_refl _)] at hi
    cases hi
  induction hk with
  | start => exact hstart.imp id fun ⟨hsize, ha⟩ => ⟨hsize.symm, ha⟩
  | falls _ hi hfalls ih => exact h.falls _ _ (hlast hi ih) hi hfalls
  | jumps _ hi hl ht ih => exact h.jumps _ _ _ _ (hlast hi ih) hi hl ht
  | handled _ hc hle hlt ih =>
    have hk := ih.resolve_right fun ⟨hsize, _⟩ => by
      have := hd.clauses _ hc
      omega
    exact .inl (h.handled _ hc _ hk hle hlt)

/-- **Where control comes to, the draft knows it.** -/
theorem Block.isReachable_of_reached (h : Block x {} d) (hfree : ∀ l, x.Allows l → d.target? l = none)
    (hend : d.Reached d.code.size) : d.isReachable = true := by
  have hnone (l : Label) : ({} : Draft).target? l = none := rfl
  have hstart : Alive (fun _ => False) True {} :=
    ⟨fun _ => False.elim, fun _ _ => False.elim, fun _ _ _ _ => False.elim, by simp, by simp,
      fun _ => rfl⟩
  obtain ⟨A, a, hadv⟩ := h.advances .empty hstart (fun l hl => hfree l hl) fun _ l t _ ht => by
    rw [hnone] at ht
    cases ht
  have hlive : A 0 ∨ d.code.size = 0 ∧ a := hadv.live trivial
  rcases hadv.alive.of_reached (h.sound .empty) hlive hend with hA | ⟨-, ha⟩
  · exact absurd (hadv.alive.lt _ hA) (Nat.lt_irrefl _)
  · rw [isReachable, hadv.alive.reachable ha]
    rfl

/-! ## Labels that are asked for -/

/-- A label that is asked for is bound, or some branch goes there. -/
def Heard (d : Draft) : Prop :=
  ∀ l, d.Targeted l → d.target? l = none → ∃ i ∈ d.code, i.operand = .label l

theorem Binds.free (h : Binds d d') {l : Label} (hl : d'.target? l = none) : d.target? l = none :=
  Option.eq_none_iff_forall_ne_some.2 fun t ht => by
    rw [h l t ht] at hl
    cases hl

namespace Heard

theorem empty : Heard {} := fun l hl => by simp [Targeted] at hl

/-- A step that asks for no label and appends nothing. -/
theorem of_code (h : Heard d) (hcode : d'.code = d.code) (hbinds : Binds d d')
    (hasked : ∀ l, d'.Targeted l → d'.target? l = none → d.Targeted l) : Heard d' := fun l hl hfree => by
  rw [hcode]
  exact h l (hasked l hl hfree) (hbinds.free hfree)

theorem add {i : DraftInstruction} (h : Heard d) (hadd : Adds i d d') : Heard d' := fun l hl hfree => by
  rw [hadd.code]
  rcases hadd.asked l hl with hl | hi
  · obtain ⟨j, hj, hjl⟩ := h l hl (hadd.target l ▸ hfree)
    exact ⟨j, Array.mem_push_of_mem _ hj, hjl⟩
  · exact ⟨i, Array.mem_push_self, hi⟩

theorem mark {l : Label} (h : Heard d) (hhas : d.Has l) (hl : d.target? l = none) :
    Heard (d.mark l) := by
  refine h.of_code (code_mark d) (binds_mark hl) fun m hm hfree => ?_
  have hne : m.index ≠ l.index := fun heq => by
    rw [show m = l from congrArg Label.mk heq, target?_mark d hhas] at hfree
    cases hfree
  rwa [Targeted, labels_mark, Array.getElem?_setIfInBounds_ne (Ne.symm hne)] at hm

end Heard

/-- **No block asks for a label without a branch to it.** -/
theorem Block.heard (h : Block x d d') (hd : Heard d) : Heard d' := by
  induction h with
  | rest h => exact hd.of_code h.code h.grows.binds fun l hl _ => h.asked l hl
  | add h _ _ => exact hd.add h
  | seq _ _ ih ih' => exact ih' (ih hd)
  | forward l _ _ hhas hfree ih => exact (ih hd).mark hhas hfree
  | backward l _ hhas hfree _ ih => exact ih (hd.mark hhas hfree)
  | protect kind _ _ _ _ ih ih' =>
    have hbegin := ih (hd.of_code rfl (grows_beginTry _ _).binds fun l hl _ => targeted_of_push rfl rfl hl)
    have hend := ih' (hbegin.of_code rfl (grows_beginHandler _ _ kind _).binds fun l hl _ =>
      targeted_of_push rfl rfl hl)
    exact hend.of_code rfl (grows_endHandler _ _ _).binds fun l hl _ => targeted_of_push rfl rfl hl

/-! ## A branch that control comes to -/

/-- What is drafted so far stays in the finished draft `f`. -/
structure Into (d f : Draft) : Prop where
  code : ∀ (k : Nat) (i : DraftInstruction), d.code[k]? = some i → f.code[k]? = some i
  binds : Binds d f

theorem Block.into (h : Block x d d') (hf : Into d' f) : Into d f where
  code := fun k i hi => hf.code k i <| by
    rwa [h.getElem? (Array.getElem?_eq_some_iff.1 hi).1]
  binds := h.binds.trans hf.binds

theorem Into.of_mark {l : Label} (h : Into (d.mark l) f) (hl : d.target? l = none) : Into d f where
  code := fun k i hi => h.code k i (by rwa [code_mark])
  binds := (binds_mark hl).trans h.binds

/-- **A block wakes its end only with a branch**: if control comes to every branch of the finished draft,
and to the start of a block if that can be reached, then also to the end of the block if that can be
reached. -/
theorem Block.reached (h : Block x d d') (hd : Heard d) (hf : Into d' f) (hlive : f.Lively)
    (hstart : d.unreachable = false → f.Reached d.code.size) (hend : d'.unreachable = false) :
    f.Reached d'.code.size := by
  induction h with
  | rest h =>
    rw [h.code]
    exact hstart (h.unreachable ▸ hend)
  | @add _ d d' i h _ _ =>
    rw [h.unreachable, Bool.or_eq_false_iff] at hend
    have hi : d'.code[d.code.size]? = some i := by rw [h.code, Array.getElem?_push_size]
    rw [h.code, Array.size_push]
    exact (hstart hend.1).falls (hf.code _ _ hi) (by simpa using hend.2)
  | seq h h' ih ih' => exact ih' (h.heard hd) hf (ih hd (h'.into hf) hstart) hend
  | @forward _ d d' l hunused h hhas hfree ih =>
    rw [code_mark]
    rcases (unreachable_mark d').1 hend with hend | hasked
    · exact ih hd (hf.of_mark hfree) hstart hend
    · -- a branch that control comes to goes to the label
      obtain ⟨i, hi, hl⟩ := h.heard hd l hasked hfree
      obtain ⟨k, hk⟩ := Array.getElem?_of_mem hi
      have hcode := (hf.of_mark hfree).code k i hk
      exact (hlive k i l hcode hl).jumps hcode hl (hf.binds l _ (target?_mark d' hhas))
  | @backward _ d d' l hunused hhas hfree h ih =>
    refine ih (hd.mark hhas hfree) hf (fun hmark => ?_) hend
    rw [code_mark]
    refine hstart (((unreachable_mark d).1 hmark).resolve_right fun hasked => ?_)
    obtain ⟨i, hi, hl⟩ := hd l hasked hfree
    exact hunused i hi hl
  | @protect _ d d₁ d₂ kind _ _ _ hstop _ _ =>
    have hstop' : (d₂.endHandler ⟨kind, d.code.size, d₁.code.size⟩).unreachable = true := hstop
    rw [hstop'] at hend
    cases hend

/-- **What the draft takes for alive is alive, unless a branch is dead.** -/
theorem Block.reached_of_isReachable (h : Block x {} d) (hlive : d.Lively) (hend : d.isReachable = true) :
    d.Reached d.code.size := by
  refine h.reached .empty ⟨fun _ _ => id, fun _ _ => id⟩ hlive (fun _ => .start) ?_
  simpa [isReachable] using hend

end CilScope.Draft
