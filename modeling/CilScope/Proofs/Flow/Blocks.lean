import CilScope.Flow.Loops
import CilScope.Proofs.Except

/-!
# Blocks and boundaries lie in the code

What a control-flow graph says about the indices of instructions. Every block is a range of
instructions that is not empty (`Graph.describes_of_build`), and so is every natural loop, from the start of
its header on (`Graph.naturalLoops_spec`). Where offsets ascend, an offset stands for the only
instruction that has it, and indices are in the order of offsets (`Offsets.index_lt_of_lt`), so that a
clause of a graph that could be built is made of ranges that are not empty either.
-/

namespace CilScope.Flow

/-! ## Offsets and indices -/

namespace Offsets

theorem getElem?_of_indexOf? {o : Offsets} {offset : UInt32} {i : Nat}
    (h : o.indexOf? offset = some i) : o.starts[i]? = some offset := by
  simp only [indexOf?] at h
  split at h
  · cases h
    assumption
  · cases h

theorem lt_of_indexOf? {o : Offsets} {offset : UInt32} {i : Nat} (h : o.indexOf? offset = some i) :
    i < o.starts.size :=
  (Array.getElem?_eq_some_iff.1 (getElem?_of_indexOf? h)).1

/-- The offsets ascend. -/
def Ascending (o : Offsets) : Prop := o.starts.toList.Pairwise (· < ·)

/-- Indices are in the order of offsets. -/
theorem index_lt_of_lt {o : Offsets} (ho : o.Ascending) {a b : UInt32} {i j : Nat}
    (hi : o.indexOf? a = some i) (hj : o.indexOf? b = some j) (hlt : a < b) : i < j := by
  obtain ⟨hi', ha⟩ := Array.getElem?_eq_some_iff.1 (getElem?_of_indexOf? hi)
  obtain ⟨hj', hb⟩ := Array.getElem?_eq_some_iff.1 (getElem?_of_indexOf? hj)
  refine Nat.lt_of_not_le fun hle => UInt32.lt_irrefl a ?_
  rcases Nat.lt_or_eq_of_le hle with hji | rfl
  · have hba : b < a := by
      rw [← ha, ← hb]
      exact List.pairwise_iff_getElem.1 ho j i hj' hi' hji
    exact UInt32.lt_trans hlt hba
  · rw [← ha, hb] at hlt
    exact absurd hlt (UInt32.lt_irrefl b)

/-- The end of the code stands behind the last instruction, and every other boundary is an
instruction. -/
theorem boundary?_eq_some {o : Offsets} {offset : UInt32} {i : Nat}
    (h : o.boundary? offset = some i) : i = o.starts.size ∨ o.indexOf? offset = some i := by
  unfold boundary? at h
  split at h
  · cases h
    exact .inl rfl
  · exact .inr h

/-- A range of offsets that is not empty is a range of instructions that is not empty, unless it starts
at the end of the code. -/
theorem boundary?_lt {o : Offsets} (ho : o.Ascending) {a b : UInt32} {i j : Nat}
    (hi : o.boundary? a = some i) (hj : o.boundary? b = some j) (hlt : i < o.starts.size → a < b) :
    o.starts.size ≤ i ∨ i < j ∧ j ≤ o.starts.size := by
  rcases boundary?_eq_some hi with rfl | hi
  · exact .inl (Nat.le_refl _)
  · have hin := lt_of_indexOf? hi
    rcases boundary?_eq_some hj with rfl | hj
    · exact .inr ⟨hin, Nat.le_refl _⟩
    · exact .inr ⟨index_lt_of_lt ho hi hj (hlt hin), Nat.le_of_lt (lt_of_indexOf? hj)⟩

theorem starts_ofCode (code : List Instruction) :
    (ofCode code.toArray).starts.toList = code.map (·.offset) := by
  simp [ofCode]

theorem size_ofCode (code : List Instruction) :
    (ofCode code.toArray).starts.size = code.length := by
  simp [ofCode]

end Offsets

/-! ## Blocks -/

namespace Graph

/-- The ranges between ascending starts are not empty. -/
theorem span_of_mem {n : Nat} {starts : List Nat} (hstarts : starts.Pairwise (· < ·))
    (hn : ∀ s ∈ starts, s < n) {span : Nat × Nat} (h : span ∈ spans n starts) :
    span.1 < span.2 ∧ span.2 ≤ n := by
  fun_induction spans n starts with
  | case1 => cases h
  | case2 s =>
    obtain rfl := List.mem_singleton.1 h
    exact ⟨hn s (List.mem_singleton.2 rfl), Nat.le_refl n⟩
  | case3 s t rest ih =>
    obtain ⟨hs, hrest⟩ := List.pairwise_cons.1 hstarts
    obtain ⟨-, hn⟩ := List.forall_mem_cons.1 hn
    rcases List.mem_cons.1 h with rfl | h
    · exact ⟨hs t (List.mem_cons_self ..), Nat.le_of_lt (hn t (List.mem_cons_self ..))⟩
    · exact ih hrest hn h

/-- A clause of which the leaders are known has no empty range. -/
theorem clause_of_leaders {o : Offsets} {c : Clause} {leaders : List Nat}
    (h : clauseLeaders o c = .ok leaders) :
    c.tryOffset < c.tryEnd ∧ c.handlerOffset < c.handlerEnd := by
  unfold clauseLeaders at h
  obtain ⟨marks, -, h⟩ := bind_eq_ok h
  split at h
  · cases h
  · rename_i hne
    rw [not_or, UInt32.not_le, UInt32.not_le] at hne
    exact hne

/-- What a graph says about the indices of a body. -/
structure Describes (g : Graph) (instructions : List Instruction) (clauses : List Clause) : Prop where
  offsets : g.offsets = .ofCode instructions.toArray
  block : ∀ b ∈ g.blocks, b.first < b.stop ∧ b.stop ≤ instructions.length
  clause : instructions ≠ [] → ∀ c ∈ clauses,
    c.tryOffset < c.tryEnd ∧ c.handlerOffset < c.handlerEnd

theorem describes_of_build {instructions : List Instruction} {clauses : List Clause} {g : Graph}
    (h : build instructions clauses = .ok g) : g.Describes instructions clauses := by
  unfold build at h
  simp only [List.size_toArray] at h
  split at h
  · cases h
    refine ⟨rfl, fun b hb => by simp at hb, fun hne => ?_⟩
    exact absurd (List.eq_nil_of_length_eq_zero ‹_›) hne
  · obtain ⟨marks, -, h⟩ := bind_eq_ok h
    obtain ⟨clauseMarks, hclauses, h⟩ := bind_eq_ok h
    cases h
    refine ⟨rfl, fun b hb => ?_, fun _ c hc => ?_⟩
    · obtain ⟨⟨span, index⟩, hspan, rfl⟩ := List.mem_map.1 (List.mem_toArray.1 hb)
      refine span_of_mem (List.pairwise_lt_range.filter _) (fun s hs => ?_)
        (List.fst_mem_of_mem_zipIdx hspan)
      exact List.mem_range.1 (List.mem_filter.1 hs).1
    · obtain ⟨leaders, hleaders⟩ := exists_of_mapM_eq_ok hclauses c hc
      exact clause_of_leaders hleaders

/-! ## Loops -/

/-- Members stay members. -/
theorem mem_grow (g : Graph) (tree : Tree) {members work : List Nat} {b : Nat} (h : b ∈ members) :
    b ∈ grow g tree members work := by
  fun_induction grow g tree members work with
  | case1 => exact h
  | case2 members c work hc hlt before ih => exact ih (List.mem_cons_of_mem _ h)
  | case3 members c work hc ih => exact ih h

/-- A loop consists of blocks, and its header is one of them. -/
theorem naturalLoops_spec {g : Graph} {l : Loop} (h : l ∈ g.naturalLoops) :
    l.header ∈ l.body ∧ ∀ b ∈ l.body, b < g.size := by
  obtain ⟨header, hheader, h⟩ := List.mem_filterMap.1 h
  split at h
  · cases h
  · cases h
    refine ⟨List.mem_filter.2 ⟨hheader, ?_⟩, fun b hb => ?_⟩
    · exact List.contains_iff_mem.2 (mem_grow g _ (List.mem_singleton.2 rfl))
    · exact List.mem_range.1 (List.mem_filter.1 hb).1

end Graph

end CilScope.Flow
