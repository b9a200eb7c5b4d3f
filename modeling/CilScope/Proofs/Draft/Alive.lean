import CilScope.Proofs.Draft.Block

/-!
# Where control can be

The draft has one bit for whether its end can be reached. `Alive A a d` says what that bit stands
for: control stays within the instructions `A`, and comes to the end of the draft only if `a`, which
the bit must then admit. `Block.advances` follows this along a block: a block that is entered is alive
at its start, and a block that is not entered has nothing alive in it.
-/

namespace CilScope.Draft

/-- Control that is in `A` stays there, and comes to the end of the draft only if `a`. It never falls
out of a region or a handler. -/
structure Alive (A : Nat → Prop) (a : Prop) (d : Draft) : Prop where
  lt : ∀ k, A k → k < d.code.size
  falls : ∀ k i, A k → d.code[k]? = some i → i.opcode.fallsThrough →
    A (k + 1) ∨ k + 1 = d.code.size ∧ a
  jumps : ∀ k i l t, A k → d.code[k]? = some i → i.operand = .label l → d.target? l = some t →
    A t ∨ t = d.code.size ∧ a
  handled : ∀ c ∈ d.clauses, ∀ k, A k → c.tryStart ≤ k → k < c.handlerStart → A c.handlerStart
  confined : ∀ c ∈ d.clauses, ∀ k i, A k → d.code[k]? = some i → i.opcode.fallsThrough →
    k + 1 ≠ c.handlerStart ∧ k + 1 ≠ c.handlerStop
  reachable : a → d.unreachable = false

/-- What is alive in `d'`, if `A` is what is alive in `d` before it. -/
structure Advances (A : Nat → Prop) (a : Prop) (d : Draft) (A' : Nat → Prop) (a' : Prop)
    (d' : Draft) : Prop where
  alive : Alive A' a' d'
  kept : ∀ k, A k → A' k
  old : ∀ k < d.code.size, A' k → A k
  /-- A block that is not entered is dead. -/
  dead : ¬a → ¬a' ∧ ∀ k, A' k → k < d.code.size
  /-- A block that is entered is alive at its start. -/
  live : a → A' d.code.size ∨ d'.code.size = d.code.size ∧ a'

/-- The exits that are bound already are alive, if the end of `d` is. -/
def Open (x : Exits) (A : Nat → Prop) (a : Prop) (d : Draft) : Prop :=
  a → ∀ l t, x.Allows l → d.target? l = some t → A t ∨ t = d.code.size

/-- The steps from `d` to `d'` bind no exit. -/
def Spares (x : Exits) (d d' : Draft) : Prop := ∀ l, x.Allows l → d'.target? l = d.target? l

variable {x : Exits} {A A₁ A' : Nat → Prop} {a a₁ a' : Prop} {d d₁ d' : Draft}

theorem open_inside : Open x.inside A a d ↔ Open x A a d := by
  simp only [Open, Exits.allows_inside]

theorem spares_inside : Spares x.inside d d' ↔ Spares x d d' := by
  simp only [Spares, Exits.allows_inside]

theorem Spares.split (h : Spares x d d') (hfirst : Binds d d₁) (hsecond : Binds d₁ d') :
    Spares x d d₁ ∧ Spares x d₁ d' := by
  have hmid (l : Label) (hl : x.Allows l) := hfirst.target?_eq hsecond (h l hl)
  exact ⟨hmid, fun l hl => (h l hl).trans (hmid l hl).symm⟩

namespace Advances

theorem trans (h : Advances A a d A₁ a₁ d₁) (h' : Advances A₁ a₁ d₁ A' a' d')
    (hle : d.code.size ≤ d₁.code.size) : Advances A a d A' a' d' where
  alive := h'.alive
  kept := fun k hk => h'.kept k (h.kept k hk)
  old := fun k hk hA => h.old k hk (h'.old k (Nat.lt_of_lt_of_le hk hle) hA)
  dead := fun ha => by
    obtain ⟨ha₁, hA₁⟩ := h.dead ha
    obtain ⟨ha', hA'⟩ := h'.dead ha₁
    exact ⟨ha', fun k hk => hA₁ k (h'.old k (hA' k hk) hk)⟩
  live := fun ha => by
    rcases h.live ha with hA | ⟨hsize, ha₁⟩
    · exact .inl (h'.kept _ hA)
    · rw [← hsize]
      exact h'.live ha₁

theorem entered (h : Advances A a d A' a' d') (ha' : a') : a :=
  by_contra fun ha => (h.dead ha).1 ha'

/-- Exits that are open before a block are open behind it, as long as the block binds none. -/
theorem isOpen (h : Advances A a d A' a' d') (hopen : Open x A a d) (hspares : Spares x d d') :
    Open x A' a d' := by
  intro ha l t hl ht
  rw [hspares l hl] at ht
  rcases hopen ha l t hl ht with hA | rfl
  · exact .inl (h.kept t hA)
  · exact (h.live ha).imp id fun h => h.1.symm

end Advances

theorem Open.mono (h : Open x A a d) (ha : a' → a) : Open x A a' d := fun ha' => h (ha ha')

/-! ## The steps -/

namespace Alive

theorem rest (h : Alive A a d) (hd : Sound d) (hrest : Rests d d') : Alive A a d' where
  lt := by rw [hrest.code]; exact h.lt
  falls := by rw [hrest.code]; exact h.falls
  jumps := by
    rw [hrest.code]
    intro k i l t hk hi hl ht
    rw [hd.target?_eq hrest.grows (Array.mem_of_getElem? hi) hl] at ht
    exact h.jumps k i l t hk hi hl ht
  handled := by rw [hrest.clauses]; exact h.handled
  confined := by rw [hrest.clauses, hrest.code]; exact h.confined
  reachable := by rw [hrest.unreachable]; exact h.reachable

/-- An instruction is alive if the end of the draft was. -/
theorem add {i : DraftInstruction} (h : Alive A a d) (hd : Sound d) (hadd : Adds i d d')
    (hopen : a → ∀ l t, i.operand = .label l → d.target? l = some t → A t ∨ t = d.code.size) :
    Alive (fun k => A k ∨ k = d.code.size ∧ a) (a ∧ i.opcode.fallsThrough) d' where
  lt := fun k hk => by
    rw [hadd.code, Array.size_push]
    rcases hk with hk | ⟨rfl, -⟩
    · exact Nat.lt_succ_of_lt (h.lt k hk)
    · exact Nat.lt_succ_self _
  falls := fun k j hk hj hfalls => by
    rw [hadd.code, Array.size_push]
    rcases hk with hk | ⟨rfl, ha⟩
    · rw [hadd.code, Array.getElem?_push_lt (h.lt k hk), ← Array.getElem?_eq_getElem] at hj
      exact .inl (h.falls k j hk hj hfalls)
    · rw [hadd.code, Array.getElem?_push_size] at hj
      cases hj
      exact .inr ⟨rfl, ha, hfalls⟩
  jumps := fun k j l t hk hj hl ht => by
    rcases hk with hk | ⟨rfl, ha⟩
    · rw [hadd.code, Array.getElem?_push_lt (h.lt k hk), ← Array.getElem?_eq_getElem] at hj
      rw [hadd.target] at ht
      exact .inl (h.jumps k j l t hk hj hl ht)
    · rw [hadd.code, Array.getElem?_push_size] at hj
      cases hj
      rw [hadd.target] at ht
      exact .inl ((hopen ha l t hl ht).imp id fun ht => ⟨ht, ha⟩)
  handled := fun c hc k hk hle hlt => by
    rw [hadd.clauses] at hc
    rcases hk with hk | ⟨rfl, -⟩
    · exact .inl (h.handled c hc k hk hle hlt)
    · have := hd.clauses c hc
      omega
  confined := fun c hc k j hk hj hfalls => by
    rw [hadd.clauses] at hc
    rcases hk with hk | ⟨rfl, -⟩
    · rw [hadd.code, Array.getElem?_push_lt (h.lt k hk), ← Array.getElem?_eq_getElem] at hj
      exact h.confined c hc k j hk hj hfalls
    · have := hd.clauses c hc
      omega
  reachable := fun ⟨ha, hfalls⟩ => by
    rw [hadd.unreachable, h.reachable ha, hfalls]
    rfl

/-- Some instruction that is alive branches to the label. -/
def Wanted (A : Nat → Prop) (d : Draft) (l : Label) : Prop :=
  ∃ k i, A k ∧ d.code[k]? = some i ∧ i.operand = .label l

/-- Behind a label that is bound now, the end is alive also if something that is alive goes there. -/
theorem mark {l : Label} (h : Alive A a d) (hd : Sound d) (hhas : d.Has l) :
    Alive A (a ∨ Wanted A d l) (d.mark l) where
  lt := by rw [code_mark]; exact h.lt
  falls := fun k i hk hi hfalls => by
    rw [code_mark] at hi ⊢
    exact (h.falls k i hk hi hfalls).imp id fun ⟨hk, ha⟩ => ⟨hk, .inl ha⟩
  jumps := fun k i m t hk hi hm ht => by
    rw [code_mark] at hi ⊢
    by_cases hml : m = l
    · subst hml
      rw [target?_mark d hhas] at ht
      exact .inr ⟨(Option.some.inj ht).symm, .inr ⟨k, i, hk, hi, hm⟩⟩
    · rw [target?_mark_of_ne d fun heq => hml (congrArg Label.mk heq)] at ht
      exact (h.jumps k i m t hk hi hm ht).imp id fun ⟨hk, ha⟩ => ⟨hk, .inl ha⟩
  handled := by rw [clauses_mark]; exact h.handled
  confined := by rw [clauses_mark, code_mark]; exact h.confined
  reachable := fun ha => by
    refine (unreachable_mark d).2 (ha.imp h.reachable ?_)
    rintro ⟨k, i, -, hi, hl⟩
    exact hd.targeted i (Array.mem_of_getElem? hi) l hl

/-- A handler is entered if its region is, whose end is not alive. -/
theorem beginHandler (h : Alive A a₁ d) (hd : Sound d) (ha₁ : ¬a₁) (a : Prop) (start : Nat)
    (kind : ClauseKind) : Alive A a (d.beginHandler start kind).1 where
  lt := h.lt
  falls := fun k i hk hi hfalls => (h.falls k i hk hi hfalls).imp id fun h => absurd h.2 ha₁
  jumps := fun k i l t hk hi hl ht => by
    rw [hd.target?_eq (grows_beginHandler d start kind _) (Array.mem_of_getElem? hi) hl] at ht
    exact (h.jumps k i l t hk hi hl ht).imp id fun h => absurd h.2 ha₁
  handled := h.handled
  confined := h.confined
  reachable := fun _ => rfl

/-- A handler is done. Nothing that is alive falls into it or out of it. -/
theorem endHandler {handler : OpenHandler} (h : Alive A a d) (hd : Sound d) (ha : ¬a)
    (hhandled : ∀ k, A k → handler.tryStart ≤ k → k < handler.start → A handler.start)
    (hconfined : ∀ k i, A k → d.code[k]? = some i → i.opcode.fallsThrough → k + 1 ≠ handler.start) :
    Alive A a (d.endHandler handler) where
  lt := h.lt
  falls := h.falls
  jumps := fun k i l t hk hi hl ht => by
    rw [hd.target?_eq (grows_endHandler d handler _) (Array.mem_of_getElem? hi) hl] at ht
    exact h.jumps k i l t hk hi hl ht
  handled := fun c hc => by
    rcases Array.mem_push.1 hc with hc | rfl
    · exact h.handled c hc
    · exact hhandled
  confined := fun c hc k i hk hi hfalls => by
    rcases Array.mem_push.1 hc with hc | rfl
    · exact h.confined c hc k i hk hi hfalls
    · refine ⟨hconfined k i hk hi hfalls, fun hstop => ?_⟩
      rcases h.falls k i hk hi hfalls with hnext | ⟨-, ha'⟩
      · exact absurd (h.lt _ hnext) (by rw [hstop]; exact Nat.lt_irrefl _)
      · exact ha ha'
  reachable := fun ha' => absurd ha' ha

theorem dead_of_unreachable (h : Alive A a d) (hd : d.unreachable = true) : ¬a := fun ha => by
  rw [h.reachable ha] at hd
  cases hd

end Alive

/-! ## Blocks -/

open Alive (Wanted)

theorem Alive.rests (h : Alive A a d) (hd : Sound d) (hrest : Rests d d') :
    Advances A a d A a d' where
  alive := h.rest hd hrest
  kept := fun _ hk => hk
  old := fun _ _ hk => hk
  dead := fun ha => ⟨ha, h.lt⟩
  live := fun ha => .inr ⟨by rw [hrest.code], ha⟩

/-- A region with its handler, if both are done. -/
theorem Advances.protect {A₂ : Nat → Prop} {a₂ : Prop} {d₂ : Draft} {kind : ClauseKind}
    (h₁ : Advances A a d A₁ a₁ d₁)
    (h₂ : Advances A₁ a (d₁.beginHandler d.code.size kind).1 A₂ a₂ d₂)
    (hblock : Block x (d₁.beginHandler d.code.size kind).1 d₂) (hsize : d.code.size ≤ d₁.code.size)
    (hd₂ : Sound d₂) (ha₁ : ¬a₁) (ha₂ : ¬a₂) :
    Advances A a d A₂ a₂ (d₂.endHandler ⟨kind, d.code.size, d₁.code.size⟩) where
  alive := by
    refine h₂.alive.endHandler hd₂ ha₂ (fun k hk hle hlt => ?_) fun k i hk hi hfalls => ?_
    · -- something is alive in the region, so both were entered
      have ha : a := by_contra fun ha => absurd ((h₁.dead ha).2 k (h₂.old k hlt hk)) (Nat.not_lt.2 hle)
      exact (h₂.live ha).resolve_right fun h => ha₂ h.2
    · intro (hstart : k + 1 = d₁.code.size)
      have hlt : k < d₁.code.size := by omega
      have hi₁ : d₁.code[k]? = some i := (hblock.getElem? hlt).symm.trans hi
      rcases h₁.alive.falls k i (h₂.old k hlt hk) hi₁ hfalls with hnext | ⟨-, ha⟩
      · exact absurd (h₁.alive.lt _ hnext) (by rw [hstart]; exact Nat.lt_irrefl _)
      · exact ha₁ ha
  kept := fun k hk => h₂.kept k (h₁.kept k hk)
  old := fun k hk hA => h₁.old k hk (h₂.old k (Nat.lt_of_lt_of_le hk hsize) hA)
  dead := fun ha => ⟨ha₂, fun k hk => (h₁.dead ha).2 k (h₂.old k ((h₂.dead ha).2 k hk) hk)⟩
  live := fun ha => .inl (h₂.kept _ ((h₁.live ha).resolve_right fun h => ha₁ h.2))

/-- A label that nothing branched to before a dead block is not wanted behind it. -/
theorem Advances.not_wanted {l : Label} (h : Advances A a d A' a' d') (hblock : Block x d d')
    (hunused : d.Unused l) (ha : ¬a) : ¬Wanted A' d' l := by
  rintro ⟨k, i, hk, hi, hl⟩
  rw [hblock.getElem? ((h.dead ha).2 k hk)] at hi
  exact hunused i (Array.mem_of_getElem? hi) hl

/-- **Along a block the bit of the draft is right**: whatever is alive in front of the block, there
is something to be alive behind it, and the end is alive only if the draft says it can be reached. -/
theorem Block.advances (hblock : Block x d d') (hd : Sound d) (h : Alive A a d)
    (hspares : Spares x d d') (hopen : Open x A a d) : ∃ A' a', Advances A a d A' a' d' := by
  induction hblock generalizing A a with
  | rest hrest => exact ⟨A, a, h.rests hd hrest⟩
  | @add x d d' i hadd hl hret =>
    refine ⟨_, _, h.add hd hadd fun ha l t hi ht => ?_, fun _ => .inl, ?_, ?_, fun ha => ?_⟩
    · exact hopen ha l t ((hl l hi).imp id (·.2)) ht
    · exact fun k hk hA => hA.elim id fun hk' => absurd hk (by omega)
    · exact fun ha => ⟨fun ha' => ha ha'.1, fun k hk => hk.elim (h.lt k) fun hk => absurd hk.2 ha⟩
    · exact .inl (.inr ⟨rfl, ha⟩)
  | @seq x d d₁ d' hfirst hsecond ih ih' =>
    obtain ⟨hspares₁, hspares⟩ := hspares.split hfirst.binds hsecond.binds
    obtain ⟨A₁, a₁, hadv₁⟩ := ih hd h hspares₁ hopen
    obtain ⟨A', a', hadv⟩ := ih' (hfirst.sound hd) hadv₁.alive hspares
      ((hadv₁.isOpen hopen hspares₁).mono hadv₁.entered)
    exact ⟨A', a', hadv₁.trans hadv hfirst.size_le⟩
  | @forward x d d' l hunused hinner hhas hfree ih =>
    -- the label is free up to its end, so it is no exit that is bound
    have hfree₀ : d.target? l = none :=
      Option.eq_none_iff_forall_ne_some.2 fun t ht => by rw [hinner.binds l t ht] at hfree; cases hfree
    have hne {m : Label} (hm : x.Allows m) (hml : m ≠ l) : d'.target? m = d.target? m := by
      rw [← hspares m hm, target?_mark_of_ne d' fun heq => hml (congrArg Label.mk heq)]
    obtain ⟨A', a', hadv⟩ := ih hd h
      (fun m hm => by
        by_cases hml : m = l
        · rw [hml, hfree, hfree₀]
        · exact hne (hm.of_with_.resolve_left hml) hml)
      fun ha m t hm ht => by
        rcases hm.of_with_ with rfl | hm
        · rw [hfree₀] at ht
          cases ht
        · exact hopen ha m t hm ht
    refine ⟨A', _, hadv.alive.mark (hinner.sound hd) hhas, hadv.kept, hadv.old, fun ha => ?_,
      fun ha => ?_⟩
    · refine ⟨fun ha' => ?_, (hadv.dead ha).2⟩
      exact ha'.elim (hadv.dead ha).1 (hadv.not_wanted hinner hunused ha)
    · rw [code_mark]
      exact (hadv.live ha).imp id fun ⟨hsize, ha'⟩ => ⟨hsize, .inl ha'⟩
  | @backward x d d' l hunused hhas hfree hinner ih =>
    have hne {m : Label} (hm : x.Allows m) (hml : m ≠ l) :
        (d.mark l).target? m = d.target? m :=
      target?_mark_of_ne d fun heq => hml (congrArg Label.mk heq)
    -- nothing goes to the label yet, so binding it does not wake the end
    have hmark : Alive A a (d.mark l) := by
      have hwanted : ¬Wanted A d l := fun ⟨k, i, _, hi, hl⟩ =>
        hunused i (Array.mem_of_getElem? hi) hl
      have := h.mark hd hhas
      rwa [or_iff_left hwanted |> propext] at this
    obtain ⟨A', a', hadv⟩ := ih (hd.mark hhas) hmark
      (fun m hm => by
        by_cases hml : m = l
        · rw [hml, hinner.binds l _ (target?_mark d hhas), target?_mark d hhas]
        · have hm := hm.of_with_.resolve_left hml
          rw [hspares m hm, hne hm hml])
      fun ha m t hm ht => by
        rw [code_mark]
        by_cases hml : m = l
        · rw [hml, target?_mark d hhas] at ht
          exact .inr (Option.some.inj ht).symm
        · have hm := hm.of_with_.resolve_left hml
          rw [hne hm hml] at ht
          exact hopen ha m t hm ht
    have hcode := code_mark (l := l) d
    exact ⟨A', a', hadv.alive, hadv.kept, hcode ▸ hadv.old, hcode ▸ hadv.dead, hcode ▸ hadv.live⟩
  | @protect x d d₁ d₂ kind hbody hend hhandler hstop ih ih' =>
    have hbegin := (grows_beginHandler d₁ d.code.size kind _).binds
    have hend₂ := (grows_endHandler d₂ ⟨kind, d.code.size, d₁.code.size⟩ _).binds
    have hd₀ := hd.rest (rests_beginTry d)
    have hd₁ := hbody.sound hd₀
    have hd₁' := hd₁.beginHandler d.code.size kind
    obtain ⟨hspares₀, hspares⟩ := hspares.split (grows_beginTry d _).binds
      (hbody.binds.trans (hbegin.trans (hhandler.binds.trans hend₂)))
    obtain ⟨hspares₁, hspares⟩ := hspares.split hbody.binds (hbegin.trans (hhandler.binds.trans hend₂))
    obtain ⟨hspares₁', hspares⟩ := hspares.split hbegin (hhandler.binds.trans hend₂)
    obtain ⟨hspares₂, -⟩ := hspares.split hhandler.binds hend₂
    have hadv₀ := h.rests hd (rests_beginTry d)
    have hopen₀ := hadv₀.isOpen hopen hspares₀
    obtain ⟨A₁, a₁, hadv₁⟩ := ih hd₀ hadv₀.alive (spares_inside.2 hspares₁) (open_inside.2 hopen₀)
    have ha₁ := hadv₁.alive.dead_of_unreachable hend
    -- the handler is entered exactly if the region is
    have hopen₁ : Open x A₁ a (d₁.beginHandler d.code.size kind).1 := fun ha l t hl ht =>
      hadv₁.isOpen hopen₀ hspares₁ ha l t hl (by rwa [hspares₁' l hl] at ht)
    obtain ⟨A₂, a₂, hadv₂⟩ := ih' hd₁' (hadv₁.alive.beginHandler hd₁ ha₁ a d.code.size kind)
      (spares_inside.2 hspares₂) (open_inside.2 hopen₁)
    exact ⟨A₂, a₂, (hadv₀.trans hadv₁ (Nat.le_refl _)).protect hadv₂ hhandler hbody.size_le
      (hhandler.sound hd₁') ha₁ (hadv₂.alive.dead_of_unreachable hstop)⟩

/-- **Control stays in a body whose end cannot be reached.** -/
theorem Block.exists_alive (hblock : Block .body {} d) (hend : d.unreachable = true) :
    ∃ A, Alive A False d ∧ A 0 := by
  have hnone {l : Label} (hl : Exits.body.Allows l) : False := hl.elim id id
  have hstart : Alive (fun _ => False) True {} :=
    ⟨fun _ => False.elim, fun _ _ => False.elim, fun _ _ _ _ => False.elim, by simp, by simp,
      fun _ => rfl⟩
  obtain ⟨A, a, h⟩ := hblock.advances .empty hstart (fun l hl => (hnone hl).elim)
    fun _ l _ hl => (hnone hl).elim
  have ha := h.alive.dead_of_unreachable hend
  rw [eq_false ha] at h
  exact ⟨A, h.alive, (h.live trivial).resolve_right And.right⟩

end CilScope.Draft
