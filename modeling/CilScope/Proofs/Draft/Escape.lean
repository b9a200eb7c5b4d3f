import CilScope.Proofs.Draft.Regions

/-!
# Where the branches of a block go

A branch of a block, be it a leave or not, goes to an exit of the block or to a place in it. A block
that may not fall out at its end and whose branches take no exit is closed: control gets out of it by a
throw only. What is closed stays so while code and labels are added behind it.
-/

namespace CilScope.Draft

variable {x : Exits} {d d₁ d' : Draft} {c : DraftClause} {m n : Nat}

/-- The branches from `d` to `d'` go to the labels `E` or to places there. -/
def Lands (E : Label → Prop) (d d' : Draft) : Prop :=
  ∀ k i l, d.code.size ≤ k → d'.code[k]? = some i → i.operand = .label l →
    E l ∨ ∃ t, d'.target? l = some t ∧ d.code.size ≤ t ∧ t ≤ d'.code.size

namespace Lands

variable {E F : Label → Prop}

theorem mono (h : Lands E d d') (hE : ∀ l, E l → F l) : Lands F d d' :=
  fun k i l hk hi hl => (h k i l hk hi hl).imp_left (hE l)

/-- Two blocks one behind the other. -/
theorem seq (h : Lands E d d₁) (h' : Lands E d₁ d') (hsize : d.code.size ≤ d₁.code.size)
    (hblock : Block x d₁ d') : Lands E d d' := by
  intro k i l hk hi hl
  rcases Nat.lt_or_ge k d₁.code.size with hlt | hge
  · rw [hblock.getElem? hlt] at hi
    refine (h k i l hk hi hl).imp_right fun ⟨t, ht, hle, hge⟩ => ?_
    exact ⟨t, hblock.binds l t ht, hle, Nat.le_trans hge hblock.size_le⟩
  · refine (h' k i l hge hi hl).imp_right fun ⟨t, ht, hle, hge'⟩ => ?_
    exact ⟨t, ht, Nat.le_trans hsize hle, hge'⟩

/-- A step that only binds labels anew. -/
theorem behind {d₂ : Draft} (h : Lands E d d') (hcode : d₂.code = d'.code) (hbinds : Binds d' d₂) :
    Lands E d d₂ := by
  intro k i l hk hi hl
  rw [hcode] at hi ⊢
  exact (h k i l hk hi hl).imp_right fun ⟨t, ht, hrest⟩ => ⟨t, hbinds l t ht, hrest⟩

/-- A label that is bound at the start or at the end of a block is no exit of it. -/
theorem bound {l : Label} {t : Nat} (h : Lands (fun m => m = l ∨ E m) d d')
    (ht : d'.target? l = some t) (hle : d.code.size ≤ t) (hge : t ≤ d'.code.size) : Lands E d d' := by
  intro k i m hk hi hm
  rcases h k i m hk hi hm with (rfl | hE) | hin
  · exact .inr ⟨t, ht, hle, hge⟩
  · exact .inl hE
  · exact .inr hin

end Lands

/-- **The branches of a block go to its exits or stay in it.** -/
theorem Block.lands (h : Block x d d') : Lands x.Allows d d' := by
  induction h with
  | rest h =>
    intro k i l hk hi _
    rw [h.code, Array.getElem?_eq_none hk] at hi
    cases hi
  | @add x d d' i h hl _ =>
    intro k j l hk hj hjl
    have hlt := (Array.getElem?_eq_some_iff.1 hj).1
    rw [h.code, Array.size_push] at hlt
    obtain rfl : k = d.code.size := by omega
    rw [h.code, Array.getElem?_push_size] at hj
    cases hj
    exact .inl ((hl l hjl).imp_right And.right)
  | seq h h' ih ih' => exact ih.seq ih' h.size_le h'
  | @forward x d d' l _ h hhas hfree ih =>
    have hland := (ih.mono fun _ => Exits.Allows.of_with_).behind (code_mark d') (binds_mark hfree)
    refine hland.bound (target?_mark d' hhas) ?_ ?_
    · exact h.size_le
    · rw [code_mark]
  | @backward x d d' l _ hhas hfree h ih =>
    have hsize := h.size_le
    have hland : Lands (fun m => m = l ∨ x.Allows m) d d' := fun k i m hk => by
      rw [← code_mark (l := l) d] at hk ⊢
      exact ih.mono (fun _ => Exits.Allows.of_with_) k i m hk
    rw [code_mark] at hsize
    exact hland.bound (h.binds l _ (target?_mark d hhas)) (Nat.le_refl _) hsize
  | @protect x d d₁ d₂ kind h _ h' _ ih ih' =>
    -- the handler stands where the region ends
    have hbegin := (grows_beginHandler d₁ d.code.size kind d₁.labels.size).binds
    have hland : Lands x.inside.Allows d (d₁.beginHandler d.code.size kind).1 :=
      (show Lands x.inside.Allows d d₁ from ih).behind rfl hbegin
    have hboth := (hland.seq ih' h.size_le h').mono fun _ => Exits.allows_inside.1
    exact hboth.behind rfl (grows_endHandler d₂ ⟨kind, d.code.size, d₁.code.size⟩ _).binds

/-! ## Closed handlers -/

/-- The handler of the clause ends with an `endfinally`. -/
def Finishes (d : Draft) (c : DraftClause) : Prop :=
  ∃ k, c.handlerStop = k + 1 ∧ c.handlerStart ≤ k ∧ d.code[k]? = some ⟨.endfinally, .none⟩

/-- The branches in the handler of the clause stay in it. Their labels are those from index `m` on. -/
def Shut (m : Nat) (d : Draft) (c : DraftClause) : Prop :=
  ∀ k i l, c.InHandler k → d.code[k]? = some i → i.operand = .label l →
    m ≤ l.index ∧ ∃ t, d.target? l = some t ∧ c.InHandler t

/-- Code that is there stays as it is. -/
theorem getElem?_extended (h : d.code.toList <+: d'.code.toList) {k : Nat} (hk : k < d.code.size) :
    d'.code[k]? = d.code[k]? := by
  obtain ⟨rest, hrest⟩ := h
  simp only [← Array.getElem?_toList, ← hrest]
  exact List.getElem?_append_left (by simpa using hk)

theorem Finishes.stop_le (h : Finishes d c) : c.handlerStop ≤ d.code.size := by
  obtain ⟨k, hstop, -, hk⟩ := h
  rw [hstop]
  exact (Array.getElem?_eq_some_iff.1 hk).1

theorem Finishes.grow (h : Finishes d c) (hcode : d.code.toList <+: d'.code.toList) :
    Finishes d' c := by
  have hle := h.stop_le
  obtain ⟨k, hstop, hstart, hk⟩ := h
  exact ⟨k, hstop, hstart, (getElem?_extended hcode (by omega)).trans hk⟩

theorem Shut.mono (h : Shut n d c) (hm : m ≤ n) : Shut m d c := fun k i l hk hi hl =>
  (h k i l hk hi hl).imp_left (Nat.le_trans hm)

/-- What is closed stays closed if its labels stay where they are. -/
theorem Shut.grow (h : Shut m d c) (hstop : c.handlerStop ≤ d.code.size)
    (hcode : d.code.toList <+: d'.code.toList)
    (hbinds : ∀ l t, m ≤ l.index → d.target? l = some t → d'.target? l = some t) :
    Shut m d' c := by
  intro k i l hk hi hl
  rw [getElem?_extended hcode (Nat.lt_of_lt_of_le hk.2 hstop)] at hi
  obtain ⟨hle, t, ht, hin⟩ := h k i l hk hi hl
  exact ⟨hle, t, hbinds l t hle ht, hin⟩

/-- A handler whose branches take none of the exits of its block is closed: a branch to its end could
be reached. -/
theorem Block.shut (h : Block x d d') (hsound : Sound d') (hend : d'.unreachable = true)
    (hfresh : ∀ k i l, d.code.size ≤ k → d'.code[k]? = some i → i.operand = .label l →
      m ≤ l.index ∧ ¬x.Allows l) (hstart : c.handlerStart = d.code.size)
    (hstop : c.handlerStop = d'.code.size) : Shut m d' c := by
  intro k i l hk hi hl
  obtain ⟨hle, hnot⟩ := hfresh k i l (hstart ▸ hk.1) hi hl
  obtain ⟨t, ht, hlow, hhigh⟩ := (h.lands k i l (hstart ▸ hk.1) hi hl).resolve_left hnot
  refine ⟨hle, t, ht, hstart ▸ hlow, hstop ▸ Nat.lt_of_le_of_ne hhigh fun heq => ?_⟩
  rw [hsound.live i (Array.mem_of_getElem? hi) l hl (heq ▸ ht)] at hend
  cases hend

end CilScope.Draft
