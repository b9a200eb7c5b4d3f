import CilScope.Proofs.Draft.Block

/-!
# Regions nest

The protected regions of a block lie one behind the other or one inside the other, and a branch other
than a leave stays in the regions and handlers that it stands in. It enters a region only at its start.
A region can be empty, though, when nothing leads to it, and its handler is then entered where the region
starts. `Block.part` follows this along a block.
-/

namespace CilScope

namespace DraftClause

/-- The instruction is in the protected region. -/
def InTry (c : DraftClause) (k : Nat) : Prop := c.tryStart ≤ k ∧ k < c.handlerStart

/-- The instruction is in the handler. -/
def InHandler (c : DraftClause) (k : Nat) : Prop := c.handlerStart ≤ k ∧ k < c.handlerStop

/-- The ranges of a clause are in order, from `m` on and up to `n`. -/
structure Within (c : DraftClause) (m n : Nat) : Prop where
  start : m ≤ c.tryStart
  order : c.tryStart ≤ c.handlerStart
  order' : c.handlerStart ≤ c.handlerStop
  stop : c.handlerStop ≤ n

/-- The instruction is in front of the clause or behind it. -/
def Apart (c : DraftClause) (k : Nat) : Prop := k < c.tryStart ∨ c.handlerStop ≤ k

/-- The clause `b` is behind `a`, or has all of it in its region or in its handler. -/
def Nested (a b : DraftClause) : Prop :=
  a.handlerStop ≤ b.tryStart ∨ (b.tryStart ≤ a.tryStart ∧ a.handlerStop ≤ b.handlerStart) ∨
    (b.handlerStart ≤ a.tryStart ∧ a.handlerStop ≤ b.handlerStop)

/-- A branch from `k` to `t` stays in the ranges that it stands in, and enters a region at its start
only. A handler is entered if its region is empty. -/
structure Admits (c : DraftClause) (k t : Nat) : Prop where
  keepsTry : c.InTry k → c.InTry t
  keepsHandler : c.InHandler k → c.InHandler t
  entersTry : c.InTry t → ¬c.InTry k → t = c.tryStart
  entersHandler : c.InHandler t → ¬c.InHandler k → t = c.handlerStart ∧ c.tryStart = c.handlerStart

variable {c : DraftClause} {m n k t : Nat}

theorem Within.mono {m' n' : Nat} (h : c.Within m n) (hm : m' ≤ m) (hn : n ≤ n') : c.Within m' n' :=
  ⟨Nat.le_trans hm h.start, h.order, h.order', Nat.le_trans h.stop hn⟩

/-- A branch that is in no range of the clause may go to its start. -/
theorem Within.admits (h : c.Within m n) (hk : c.Apart k) (ht : t ≤ c.tryStart ∨ c.handlerStop ≤ t) :
    c.Admits k t := by
  obtain ⟨-, horder, horder', -⟩ := h
  unfold Apart at hk
  constructor <;> simp only [InTry, InHandler] <;> omega

theorem Within.nested_of_le {b : DraftClause} {m' n' : Nat} (h : c.Within m n) (h' : b.Within m' n')
    (hle : n ≤ m') : c.Nested b :=
  .inl (Nat.le_trans h.stop (Nat.le_trans hle h'.start))

end DraftClause

namespace Draft

open DraftClause (Within Apart Nested Admits)

/-- The clauses `new` are what the block from `d` to `d'` has added, and its branches respect them. A
branch to an exit is in none of them. -/
structure Part (x : Exits) (d d' : Draft) (new : List DraftClause) : Prop where
  clauses : d'.clauses.toList = d.clauses.toList ++ new
  within : ∀ c ∈ new, c.Within d.code.size d'.code.size
  nested : new.Pairwise Nested
  branch : ∀ k i l, d.code.size ≤ k → d'.code[k]? = some i → i.operand = .label l →
    i.opcode ≠ .leave → (x.jump l ∧ ∀ c ∈ new, c.Apart k) ∨
      ∃ t, d'.target? l = some t ∧ d.code.size ≤ t ∧ t ≤ d'.code.size ∧ ∀ c ∈ new, c.Admits k t
  ret : ∀ k i, d.code.size ≤ k → d'.code[k]? = some i → i.opcode = .ret →
    x.ret ∧ ∀ c ∈ new, c.Apart k

variable {x : Exits} {d d₁ d' : Draft} {new new' : List DraftClause}

namespace Part

theorem rest (h : Rests d d') : Part x d d' [] := by
  have hnone {k : Nat} {i : DraftInstruction} (hk : d.code.size ≤ k) (hi : d'.code[k]? = some i) :
      False := by
    rw [h.code, Array.getElem?_eq_none hk] at hi
    cases hi
  exact ⟨by rw [h.clauses, List.append_nil], by simp, .nil, fun k i l hk hi => (hnone hk hi).elim,
    fun k i hk hi => (hnone hk hi).elim⟩

theorem add {i : DraftInstruction} (h : Adds i d d')
    (hl : ∀ l, i.operand = .label l → x.jump l ∨ i.opcode = .leave ∧ x.leave l)
    (hret : i.opcode = .ret → x.ret) : Part x d d' [] := by
  have hlast {k : Nat} {j : DraftInstruction} (hk : d.code.size ≤ k) (hj : d'.code[k]? = some j) :
      j = i := by
    have hlt := (Array.getElem?_eq_some_iff.1 hj).1
    rw [h.code, Array.size_push] at hlt
    obtain rfl : k = d.code.size := by omega
    rw [h.code, Array.getElem?_push_size] at hj
    exact (Option.some.inj hj).symm
  refine ⟨by rw [h.clauses, List.append_nil], by simp, .nil, fun k j l hk hj hjl hleave => ?_,
    fun k j hk hj hjret => ?_⟩
  · obtain rfl := hlast hk hj
    exact .inl ⟨(hl l hjl).resolve_right fun h => hleave h.1, by simp⟩
  · obtain rfl := hlast hk hj
    exact ⟨hret hjret, by simp⟩

/-- What is apart from the clauses of the first of two blocks, and stands in it, is apart from those of
the second. -/
theorem apart_left (h' : Part x d₁ d' new') {k : Nat} (hk : k < d₁.code.size)
    (hapart : ∀ c ∈ new, c.Apart k) : ∀ c ∈ new ++ new', c.Apart k := fun c hc =>
  (List.mem_append.1 hc).elim (hapart c) fun hc =>
    .inl (Nat.lt_of_lt_of_le hk (h'.within c hc).start)

theorem apart_right (h : Part x d d₁ new) {k : Nat} (hk : d₁.code.size ≤ k)
    (hapart : ∀ c ∈ new', c.Apart k) : ∀ c ∈ new ++ new', c.Apart k := fun c hc =>
  (List.mem_append.1 hc).elim (fun hc => .inr (Nat.le_trans (h.within c hc).stop hk)) (hapart c)

/-- Two blocks one behind the other. -/
theorem seq (h : Part x d d₁ new) (h' : Part x d₁ d' new') (hblock : Block x d d₁)
    (hblock' : Block x d₁ d') : Part x d d' (new ++ new') where
  clauses := by rw [h'.clauses, h.clauses, List.append_assoc]
  within := fun c hc => by
    rcases List.mem_append.1 hc with hc | hc
    · exact (h.within c hc).mono (Nat.le_refl _) hblock'.size_le
    · exact (h'.within c hc).mono hblock.size_le (Nat.le_refl _)
  nested := List.pairwise_append.2 ⟨h.nested, h'.nested, fun a ha b hb =>
    (h.within a ha).nested_of_le (h'.within b hb) (Nat.le_refl _)⟩
  branch := fun k i l hk hi hl hleave => by
    rcases Nat.lt_or_ge k d₁.code.size with hlt | hge
    · rw [hblock'.getElem? hlt] at hi
      rcases h.branch k i l hk hi hl hleave with ⟨hjump, hapart⟩ | ⟨t, ht, hle, hge, hadmits⟩
      · exact .inl ⟨hjump, h'.apart_left hlt hapart⟩
      · refine .inr ⟨t, hblock'.binds l t ht, hle, Nat.le_trans hge hblock'.size_le, fun c hc => ?_⟩
        rcases List.mem_append.1 hc with hc | hc
        · exact hadmits c hc
        · have hwithin := h'.within c hc
          exact hwithin.admits (.inl (Nat.lt_of_lt_of_le hlt hwithin.start))
            (.inl (Nat.le_trans hge hwithin.start))
    · rcases h'.branch k i l hge hi hl hleave with ⟨hjump, hapart⟩ | ⟨t, ht, hle, hge', hadmits⟩
      · exact .inl ⟨hjump, h.apart_right hge hapart⟩
      · refine .inr ⟨t, ht, Nat.le_trans hblock.size_le hle, hge', fun c hc => ?_⟩
        rcases List.mem_append.1 hc with hc | hc
        · have hwithin := h.within c hc
          exact hwithin.admits (.inr (Nat.le_trans hwithin.stop hge))
            (.inr (Nat.le_trans hwithin.stop hle))
        · exact hadmits c hc
  ret := fun k i hk hi hret => by
    rcases Nat.lt_or_ge k d₁.code.size with hlt | hge
    · rw [hblock'.getElem? hlt] at hi
      exact (h.ret k i hk hi hret).imp id (h'.apart_left hlt)
    · exact (h'.ret k i hge hi hret).imp id (h.apart_right hge)

/-- A label that is bound at the end: it is behind all clauses. -/
theorem forward {l : Label} (h : Part (x.with_ l) d d' new) (hhas : d'.Has l)
    (hfree : d'.target? l = none) (hsize : d.code.size ≤ d'.code.size) :
    Part x d (d'.mark l) new where
  clauses := by rw [clauses_mark, h.clauses]
  within := by rw [code_mark]; exact h.within
  nested := h.nested
  branch := fun k i m hk hi hm hleave => by
    rw [code_mark] at hi ⊢
    rcases h.branch k i m hk hi hm hleave with ⟨hjump, hapart⟩ | ⟨t, ht, hrest⟩
    · rcases hjump with rfl | hjump
      · refine .inr ⟨_, target?_mark d' hhas, hsize, Nat.le_refl _, fun c hc => ?_⟩
        exact (h.within c hc).admits (hapart c hc) (.inr (h.within c hc).stop)
      · exact .inl ⟨hjump, hapart⟩
    · exact .inr ⟨t, binds_mark hfree m t ht, hrest⟩
  ret := by rw [code_mark]; exact h.ret

/-- A label that is bound at the start: it is in front of all clauses. -/
theorem backward {l : Label} (h : Part (x.with_ l) (d.mark l) d' new) (hhas : d.Has l)
    (hblock : Block (x.with_ l) (d.mark l) d') : Part x d d' new := by
  have hcode := code_mark (l := l) d
  refine ⟨by rw [h.clauses, clauses_mark], hcode ▸ h.within, h.nested, fun k i m hk hi hm hleave => ?_,
    fun k i hk => h.ret k i (hcode.symm ▸ hk)⟩
  rcases h.branch k i m (hcode.symm ▸ hk) hi hm hleave with ⟨hjump, hapart⟩ | ⟨t, ht, hle, hrest⟩
  · rcases hjump with rfl | hjump
    · have hle := hblock.size_le
      rw [hcode] at hle
      refine .inr ⟨_, hblock.binds _ _ (target?_mark d hhas), Nat.le_refl _, hle, fun c hc => ?_⟩
      have hwithin := h.within c hc
      exact hwithin.admits (hapart c hc) (.inl (hcode ▸ hwithin.start))
    · exact .inl ⟨hjump, hapart⟩
  · exact .inr ⟨t, ht, hcode ▸ hle, hrest⟩

end Part

/-- A branch inside a region does not go to the end of the region: the end could be reached then. -/
theorem Part.inner (h : Part x.inside d d' new) (hd' : Sound d') (hend : d'.unreachable = true) {k : Nat}
    {i : DraftInstruction} {l : Label} (hk : d.code.size ≤ k) (hi : d'.code[k]? = some i)
    (hl : i.operand = .label l) (hleave : i.opcode ≠ .leave) :
    ∃ t, d'.target? l = some t ∧ d.code.size ≤ t ∧ t < d'.code.size ∧ ∀ c ∈ new, c.Admits k t := by
  rcases h.branch k i l hk hi hl hleave with ⟨hjump, -⟩ | ⟨t, ht, hle, hge, hadmits⟩
  · exact hjump.elim
  · refine ⟨t, ht, hle, Nat.lt_of_le_of_ne hge fun heq => ?_, hadmits⟩
    rw [hd'.live i (Array.mem_of_getElem? hi) l hl (heq ▸ ht)] at hend
    cases hend

/-- A region with its handler. Nothing in them goes out but by a leave. -/
theorem Part.protect {d₂ : Draft} {kind : ClauseKind} (h : Part x.inside d.beginTry.1 d₁ new)
    (h' : Part x.inside (d₁.beginHandler d.code.size kind).1 d₂ new')
    (hsize : d.code.size ≤ d₁.code.size)
    (hblock : Block x.inside (d₁.beginHandler d.code.size kind).1 d₂) (hd₁ : Sound d₁)
    (hend : d₁.unreachable = true) (hd₂ : Sound d₂) (hstop : d₂.unreachable = true) :
    Part x d (d₂.endHandler ⟨kind, d.code.size, d₁.code.size⟩)
      (new ++ (new' ++ [⟨kind, d.code.size, d₁.code.size, d₂.code.size⟩])) := by
  have hsize' : d₁.code.size ≤ d₂.code.size := hblock.size_le
  have hlast := (grows_endHandler d₂ ⟨kind, d.code.size, d₁.code.size⟩ _).binds
  have hthrough := (grows_beginHandler d₁ d.code.size kind _).binds.trans (hblock.binds.trans hlast)
  -- a branch in the region or in the handler, by the range that it and its target are in
  have hcase {k : Nat} {i : DraftInstruction} (hk : d.code.size ≤ k) (hi : d₂.code[k]? = some i) :
      k < d₁.code.size ∧ d₁.code[k]? = some i ∨ d₁.code.size ≤ k ∧ k < d₂.code.size := by
    rcases Nat.lt_or_ge k d₁.code.size with hlt | hge
    · exact .inl ⟨hlt, (hblock.getElem? hlt).symm.trans hi⟩
    · exact .inr ⟨hge, (Array.getElem?_eq_some_iff.1 hi).1⟩
  refine ⟨?_, fun c hc => ?_, ?_, fun k i l hk hi hl hleave => ?_, fun k i hk hi hret => ?_⟩
  · show (d₂.clauses.push _).toList = _
    rw [Array.toList_push, h'.clauses]
    show (d₁.clauses.toList ++ new') ++ _ = _
    rw [h.clauses, List.append_assoc, List.append_assoc]
    rfl
  · rcases List.mem_append.1 hc with hc | hc
    · exact (h.within c hc).mono (Nat.le_refl _) hsize'
    rcases List.mem_append.1 hc with hc | hc
    · exact (h'.within c hc).mono hsize (Nat.le_refl _)
    · rw [List.mem_singleton.1 hc]
      exact ⟨Nat.le_refl _, hsize, hsize', Nat.le_refl _⟩
  · refine List.pairwise_append.2 ⟨h.nested, List.pairwise_append.2 ⟨h'.nested, List.pairwise_singleton ..,
      fun a ha b hb => ?_⟩, fun a ha b hb => ?_⟩
    · rw [List.mem_singleton.1 hb]
      exact .inr (.inr ⟨(h'.within a ha).start, (h'.within a ha).stop⟩)
    · rcases List.mem_append.1 hb with hb | hb
      · exact (h.within a ha).nested_of_le (h'.within b hb) (Nat.le_refl _)
      · rw [List.mem_singleton.1 hb]
        exact .inr (.inl ⟨(h.within a ha).start, (h.within a ha).stop⟩)
  · right
    rcases hcase hk hi with ⟨hlt, hi⟩ | ⟨hge, hlt⟩
    · obtain ⟨t, ht, hle, hlt', hadmits⟩ := h.inner hd₁ hend hk hi hl hleave
      replace hle : d.code.size ≤ t := hle
      refine ⟨t, hthrough l t ht, hle, Nat.le_trans (Nat.le_of_lt hlt') hsize', fun c hc => ?_⟩
      rcases List.mem_append.1 hc with hc | hc
      · exact hadmits c hc
      rcases List.mem_append.1 hc with hc | hc
      · have hwithin := h'.within c hc
        exact hwithin.admits (.inl (Nat.lt_of_lt_of_le hlt hwithin.start))
          (.inl (Nat.le_trans (Nat.le_of_lt hlt') hwithin.start))
      · rw [List.mem_singleton.1 hc]
        constructor <;> simp only [DraftClause.InTry, DraftClause.InHandler] <;> omega
    · obtain ⟨t, ht, hle, hlt', hadmits⟩ := h'.inner hd₂ hstop hge hi hl hleave
      replace hle : d₁.code.size ≤ t := hle
      refine ⟨t, hlast l t ht, Nat.le_trans hsize hle, Nat.le_of_lt hlt', fun c hc => ?_⟩
      rcases List.mem_append.1 hc with hc | hc
      · have hwithin := h.within c hc
        exact hwithin.admits (.inr (Nat.le_trans hwithin.stop hge))
          (.inr (Nat.le_trans hwithin.stop hle))
      rcases List.mem_append.1 hc with hc | hc
      · exact hadmits c hc
      · rw [List.mem_singleton.1 hc]
        constructor <;> simp only [DraftClause.InTry, DraftClause.InHandler] <;> omega
  · rcases hcase hk hi with ⟨-, hi⟩ | ⟨hge, -⟩
    · exact (h.ret k i hk hi hret).1.elim
    · exact (h'.ret k i hge hi hret).1.elim

/-- **The regions of a block nest, and its branches respect them.** -/
theorem Block.part (hblock : Block x d d') (hd : Sound d) : ∃ new, Part x d d' new := by
  induction hblock with
  | rest h => exact ⟨[], .rest h⟩
  | add h hl hret => exact ⟨[], .add h hl hret⟩
  | seq h h' ih ih' =>
    obtain ⟨new, hpart⟩ := ih hd
    obtain ⟨new', hpart'⟩ := ih' (h.sound hd)
    exact ⟨new ++ new', hpart.seq hpart' h h'⟩
  | forward l _ h hhas hfree ih =>
    obtain ⟨new, hpart⟩ := ih hd
    exact ⟨new, hpart.forward hhas hfree h.size_le⟩
  | backward l _ hhas _ h ih =>
    obtain ⟨new, hpart⟩ := ih (hd.mark hhas)
    exact ⟨new, hpart.backward hhas h⟩
  | @protect x d d₁ d₂ kind h hend h' hstop ih ih' =>
    have hd₀ := hd.rest (rests_beginTry d)
    have hd₁ := h.sound hd₀
    have hd₁' := hd₁.beginHandler d.code.size kind
    obtain ⟨new, hpart⟩ := ih hd₀
    obtain ⟨new', hpart'⟩ := ih' hd₁'
    exact ⟨_, hpart.protect hpart' h.size_le h' hd₁ hend (h'.sound hd₁') hstop⟩

end Draft

end CilScope
