import CilScope.Proofs.Flow.Blocks

/-!
# Paths and dominance

What the analyses of a control-flow graph are about. A path starts at the entry and follows edges
(`Graph.Path`); a block dominates another one if it lies on every path to it (`Graph.Dominates`). The
main facts are that paths can be cut at a block they pass through (`Path.cut`) and can be made simple
(`Path.simple`), so that dominance is settled by the paths of at most as many blocks as the graph has,
and that dominance is an order on the blocks that can be reached (`Dominates.antisymm`).
-/

namespace CilScope.Flow.Graph

/-- A graph that has an entry, and in which the edges are the same seen from either end. -/
structure Linked (g : Graph) : Prop where
  entry : 0 < g.size
  inverse : ∀ a b, b ∈ g.succs a ↔ a ∈ g.preds b

/-- A path from the entry to a block, as the blocks it passes through, the last one first. -/
inductive Path (g : Graph) : (trace : List Nat) → (b : Nat) → Prop
  | entry (h : 0 < g.size) : Path g [0] 0
  | step {trace : List Nat} {b s : Nat} (h : Path g trace b) (hs : s ∈ g.succs b) :
      Path g (s :: trace) s

/-- Some path leads to the block. -/
def Reachable (g : Graph) (b : Nat) : Prop := ∃ trace, g.Path trace b

/-- Every path to `b` passes through `a`. -/
def Dominates (g : Graph) (a b : Nat) : Prop := ∀ trace, g.Path trace b → a ∈ trace

/-- A block other than `b` through which every path to `b` passes. -/
def StrictlyDominates (g : Graph) (a b : Nat) : Prop := a ≠ b ∧ g.Dominates a b

/-- The strict dominator of `b` that is dominated by all strict dominators of `b`. -/
def ImmediatelyDominates (g : Graph) (a b : Nat) : Prop :=
  g.StrictlyDominates a b ∧ ∀ d, g.StrictlyDominates d b → g.Dominates d a

variable {g : Graph} {a b c d : Nat} {trace : List Nat}

/-! ## Linked graphs -/

theorem lt_size_of_mem_preds (h : a ∈ g.preds b) : b < g.size := by
  by_contra hb
  rw [preds, Array.getElem?_eq_none (not_lt.1 hb)] at h
  cases h

theorem lt_size_of_mem_succs (h : b ∈ g.succs a) : a < g.size := by
  by_contra ha
  rw [succs, Array.getElem?_eq_none (not_lt.1 ha)] at h
  cases h

/-- A graph is linked if its edges can be found from both of their ends. -/
theorem linked_of_forall (hentry : 0 < g.size) (hsuccs : ∀ a < g.size, ∀ b ∈ g.succs a, a ∈ g.preds b)
    (hpreds : ∀ b < g.size, ∀ a ∈ g.preds b, b ∈ g.succs a) : g.Linked :=
  ⟨hentry, fun _ _ =>
    ⟨fun h => hsuccs _ (lt_size_of_mem_succs h) _ h, fun h => hpreds _ (lt_size_of_mem_preds h) _ h⟩⟩

theorem Linked.succ_lt (hg : g.Linked) (h : b ∈ g.succs a) : b < g.size :=
  lt_size_of_mem_preds ((hg.inverse a b).1 h)

theorem spans_ne_nil {n : Nat} {starts : List Nat} (h : starts ≠ []) : spans n starts ≠ [] := by
  rcases starts with _ | ⟨s, _ | ⟨t, rest⟩⟩
  · exact absurd rfl h
  · simp [spans]
  · simp [spans]

/-- A graph is linked if the predecessors of its blocks are read off the successors. -/
theorem linked_of_ranges {o : Offsets} {blockOf : Array Nat} {ranges : List (Nat × Nat)}
    {succs : Array (List Nat)} (hne : ranges ≠ [])
    (hsuccs : ∀ a, ∀ b ∈ succs.getD a [], b < ranges.length) :
    Linked ⟨o, (ranges.zipIdx.map fun s =>
      { first := s.1.1, stop := s.1.2, succs := succs.getD s.2 []
        preds := (List.range ranges.length).filter fun p => (succs.getD p []).contains s.2 }).toArray,
      blockOf⟩ := by
  refine ⟨by simpa [size] using List.length_pos_of_ne_nil hne, fun a b => ?_⟩
  simp only [Graph.succs, Graph.preds, List.getElem?_toArray, List.getElem?_map,
    List.getElem?_zipIdx]
  by_cases ha : a < ranges.length
  · by_cases hb : b < ranges.length
    · simp [ha, hb]
    · have hnot : b ∉ succs.getD a [] := fun h => hb (hsuccs a b h)
      simpa [ha, hb] using hnot
  · by_cases hb : b < ranges.length <;> simp [ha, hb]

theorem exists_of_mem_getD {α : Type} {f : α → List Nat} {l : List α} {a b : Nat}
    (h : b ∈ (l.map f).toArray.getD a []) : ∃ x ∈ l, b ∈ f x := by
  rw [Array.getD_eq_getD_getElem?, List.getElem?_toArray, List.getElem?_map] at h
  cases hx : l[a]? with
  | none => simp [hx] at h
  | some x => exact ⟨x, List.mem_of_getElem? hx, by simpa [hx] using h⟩

/-- The graph of a body that is not empty is linked. -/
theorem linked_of_build {instructions : List Instruction} {clauses : List Clause}
    (hne : instructions ≠ []) (h : build instructions clauses = .ok g) : g.Linked := by
  unfold build at h
  simp only [List.size_toArray] at h
  split at h
  · exact absurd (List.eq_nil_of_length_eq_zero ‹_›) hne
  · obtain ⟨marks, -, h⟩ := bind_eq_ok h
    obtain ⟨clauseMarks, -, h⟩ := bind_eq_ok h
    cases h
    refine linked_of_ranges (spans_ne_nil ?_) ?_
    · refine List.ne_nil_of_mem (a := 0) (List.mem_filter.2 ⟨List.mem_range.2 ?_, by simp⟩)
      exact List.length_pos_of_ne_nil hne
    · intro a b hb
      obtain ⟨span, -, hspan⟩ := exists_of_mem_getD hb
      exact List.mem_range.1 (List.mem_filter.1 hspan).1

/-! ## Paths -/

namespace Path

theorem last_mem (h : g.Path trace b) : b ∈ trace := by
  cases h with
  | entry => exact List.mem_singleton.2 rfl
  | step => exact List.mem_cons_self ..

theorem entry_mem (h : g.Path trace b) : 0 ∈ trace := by
  induction h with
  | entry => exact List.mem_singleton.2 rfl
  | step _ _ ih => exact List.mem_cons_of_mem _ ih

theorem mem_lt (hg : g.Linked) (h : g.Path trace b) : ∀ c ∈ trace, c < g.size := by
  induction h with
  | entry h => exact fun c hc => List.mem_singleton.1 hc ▸ h
  | step _ hs ih =>
    intro c hc
    rcases List.mem_cons.1 hc with rfl | hc
    · exact hg.succ_lt hs
    · exact ih c hc

/-- A path can be cut at every block it passes through. -/
theorem cut (h : g.Path trace b) (ha : a ∈ trace) : ∃ front, g.Path front a ∧ front <:+ trace := by
  induction h with
  | entry h =>
    obtain rfl := List.mem_singleton.1 ha
    exact ⟨[0], .entry h, List.suffix_rfl⟩
  | @step trace c s h hs ih =>
    rcases List.mem_cons.1 ha with rfl | ha
    · exact ⟨a :: trace, .step h hs, List.suffix_rfl⟩
    · obtain ⟨front, hfront, hsuffix⟩ := ih ha
      exact ⟨front, hfront, hsuffix.trans (List.suffix_cons ..)⟩

/-- A path can be made to pass through no block twice, without passing through new ones. -/
theorem simple (h : g.Path trace b) :
    ∃ short, g.Path short b ∧ short ⊆ trace ∧ short.Nodup := by
  induction h with
  | entry h => exact ⟨[0], .entry h, List.Subset.refl _, List.nodup_singleton 0⟩
  | @step trace c s h hs ih =>
    obtain ⟨short, hshort, hsubset, hnodup⟩ := ih
    by_cases hmem : s ∈ short
    · obtain ⟨front, hfront, hsuffix⟩ := hshort.cut hmem
      refine ⟨front, hfront, fun x hx => ?_, hnodup.sublist hsuffix.sublist⟩
      exact List.mem_cons_of_mem _ (hsubset (hsuffix.subset hx))
    · exact ⟨s :: short, .step hshort hs, List.cons_subset_cons s hsubset,
        List.nodup_cons.2 ⟨hmem, hnodup⟩⟩

/-- A simple path is not longer than there are blocks. -/
theorem length_le (hg : g.Linked) (h : g.Path trace b) (hnodup : trace.Nodup) :
    trace.length ≤ g.size := by
  have hsubset : trace ⊆ List.range g.size := fun c hc => List.mem_range.2 (h.mem_lt hg c hc)
  simpa using (hnodup.subperm hsubset).length_le

end Path

theorem reachable_entry (h : 0 < g.size) : g.Reachable 0 := ⟨[0], .entry h⟩

theorem Reachable.step (h : g.Reachable a) (hs : b ∈ g.succs a) : g.Reachable b := by
  obtain ⟨trace, h⟩ := h
  exact ⟨b :: trace, .step h hs⟩

theorem Reachable.lt (hg : g.Linked) (h : g.Reachable b) : b < g.size := by
  obtain ⟨trace, h⟩ := h
  exact h.mem_lt hg b h.last_mem

/-! ## Dominance -/

theorem Dominates.refl (g : Graph) (b : Nat) : g.Dominates b b := fun _ h => h.last_mem

theorem dominates_entry (g : Graph) (b : Nat) : g.Dominates 0 b := fun _ h => h.entry_mem

theorem Dominates.trans (hab : g.Dominates a b) (hbc : g.Dominates b c) : g.Dominates a c := by
  intro trace h
  obtain ⟨front, hfront, hsuffix⟩ := h.cut (hbc trace h)
  exact hsuffix.subset (hab front hfront)

/-- Only the entry dominates the entry. -/
theorem Dominates.eq_entry (hentry : 0 < g.size) (h : g.Dominates a 0) : a = 0 :=
  List.mem_singleton.1 (h [0] (.entry hentry))

/-- A strict dominator dominates the blocks from which one edge leads on. -/
theorem StrictlyDominates.pred (h : g.StrictlyDominates d b) (hb : b ∈ g.succs a) :
    g.Dominates d a := by
  intro trace htrace
  rcases List.mem_cons.1 (h.2 (b :: trace) (.step htrace hb)) with hdb | hd
  · exact absurd hdb h.1
  · exact hd

/-- Two blocks that dominate each other are the same. -/
theorem Dominates.antisymm (ha : g.Reachable a) (hab : g.Dominates a b) (hba : g.Dominates b a) :
    a = b := by
  obtain ⟨trace, htrace⟩ := ha
  obtain ⟨short, hshort, -, hnodup⟩ := htrace.simple
  cases hshort with
  | entry h => exact (hba.eq_entry h).symm
  | @step rest c _ hrest hs =>
    rcases List.mem_cons.1 (hba _ (.step hrest hs)) with heq | hb
    · exact heq.symm
    · -- the part that leads to `b` would pass through `a`, before the path comes to `a`
      obtain ⟨front, hfront, hsuffix⟩ := hrest.cut hb
      exact absurd (hsuffix.subset (hab front hfront)) (List.nodup_cons.1 hnodup).1

/-- A block has one immediate dominator at most. -/
theorem ImmediatelyDominates.unique (hb : g.Reachable b) (ha : g.ImmediatelyDominates a b)
    (hc : g.ImmediatelyDominates c b) : a = c := by
  obtain ⟨trace, htrace⟩ := hb
  obtain ⟨front, hfront, -⟩ := htrace.cut (ha.1.2 trace htrace)
  exact Dominates.antisymm ⟨front, hfront⟩ (hc.2 a ha.1) (ha.2 c hc.1)

end CilScope.Flow.Graph
