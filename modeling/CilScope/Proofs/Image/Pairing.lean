import CilScope.Proofs.Flow.Build
import CilScope.Proofs.Image.Regions
import CilScope.Proofs.Listing.Statement

/-!
# Handlers stand behind their protected regions

A clause of a regular body guards a statement, given by the indices of its instructions
(`Statement.Of`). The other clauses and the conditionals of the body respect it (`suits_of_clause`,
`Statement.respects_of_conditional`). A loop may not: its span ends inside a statement if the way
back leaves through the protected range. `Image.paired_of_generate` is that loops are the only
exception: in every body of a program that is accepted, a clause whose statement all loops respect
has its handler right behind its protected region.
-/

namespace CilScope

namespace Listing

open CilScope.Flow

/-! ## The statements of a body -/

section

variable {is : List Instruction} (hasc : is.Pairwise (·.offset < ·.offset))
  (hend : ∀ i ∈ is, i.offset < codeEnd is)

include hasc hend

/-- An instruction is a boundary with its own index. -/
theorem boundary?_of_getElem? {k : Nat} {i : Instruction} (hi : is[k]? = some i) :
    (Offsets.ofCode is.toArray).boundary? i.offset = some k := by
  have hne : i.offset ≠ (Offsets.ofCode is.toArray).codeEnd := by
    rw [Offsets.codeEnd_ofCode]
    exact UInt32.ne_of_lt (hend i (List.mem_of_getElem? hi))
  rw [Offsets.boundary?, if_neg hne, Offsets.indexOf?_ofCode hasc, StandsAt, hi, Option.map_some]

/-- Boundaries are in the order of their indices. -/
theorem boundary?_lt_iff {a b : UInt32} {j k : Nat}
    (ha : (Offsets.ofCode is.toArray).boundary? a = some j)
    (hb : (Offsets.ofCode is.toArray).boundary? b = some k) : a < b ↔ j < k := by
  have hindex {offset : UInt32} {l : Nat}
      (h : (Offsets.ofCode is.toArray).indexOf? offset = some l) :
      offset < codeEnd is ∧ l < is.length := by
    obtain ⟨i, hi, rfl⟩ := Option.map_eq_some_iff.1 ((Offsets.indexOf?_ofCode hasc).1 h)
    exact ⟨hend i (List.mem_of_getElem? hi), (List.getElem?_eq_some_iff.1 hi).1⟩
  rw [Offsets.boundary?, Offsets.codeEnd_ofCode, Offsets.size_ofCode] at ha hb
  split at ha <;> split at hb
  · cases ha
    cases hb
    subst a b
    exact iff_of_false (UInt32.lt_irrefl _) (Nat.lt_irrefl _)
  · cases ha
    obtain ⟨hlt, hlen⟩ := hindex hb
    subst a
    exact iff_of_false (UInt32.lt_asymm hlt) (Nat.lt_asymm hlen)
  · cases hb
    obtain ⟨hlt, hlen⟩ := hindex ha
    subst b
    exact iff_of_true hlt hlen
  · exact Offsets.lt_iff_index_lt (Offsets.ascending_ofCode hasc)
      (Offsets.getElem?_of_indexOf? ha) (Offsets.getElem?_of_indexOf? hb)

end

namespace Statement

/-- The statement that a clause guards, by the indices of the instructions. -/
structure Of (t : Statement) (o : Offsets) (c : Clause) : Prop where
  kind : t.kind = c.kind
  start : o.boundary? c.tryOffset = some t.start
  middle : o.boundary? c.tryEnd = some t.middle
  stop : o.boundary? c.handlerEnd = some t.stop

section

variable {is : List Instruction} {t t' : Statement} {c c' : Clause}

theorem clauseSpans_eq {o : Offsets} (h : t.Of o c) (hadjacent : c.handlerOffset = c.tryEnd) :
    clauseSpans o c = [t.protected_, t.handler] := by
  simp [clauseSpans, hadjacent, h.start, h.middle, h.stop, protected_, handler, h.kind]

theorem Of.stop_le (h : t.Of (Offsets.ofCode is.toArray) c) : t.stop ≤ is.length := by
  rw [← Offsets.size_ofCode]
  rcases Offsets.boundary?_eq_some h.stop with heq | hindex
  · exact heq.le
  · exact (Offsets.lt_of_indexOf? hindex).le

section

variable (hasc : is.Pairwise (·.offset < ·.offset)) (hend : ∀ i ∈ is, i.offset < codeEnd is)

include hasc hend

/-- A clause whose ranges are not empty, and are next to each other, guards a statement. -/
theorem exists_of (hadjacent : c.handlerOffset = c.tryEnd) (hprotects : c.tryOffset < c.tryEnd)
    (hhandles : c.handlerOffset < c.handlerEnd)
    (hboundary : ∀ b ∈ c.boundaries, b = codeEnd is ∨ b ∈ is.map Instruction.offset) :
    ∃ t : Statement, t.Of (Offsets.ofCode is.toArray) c := by
  have hindex {b : UInt32} (hb : b ∈ c.boundaries) :
      ∃ j, (Offsets.ofCode is.toArray).boundary? b = some j := by
    rcases hboundary b hb with rfl | hmem
    · exact ⟨is.length, by
        rw [Offsets.boundary?, Offsets.codeEnd_ofCode, if_pos rfl, Offsets.size_ofCode]⟩
    · obtain ⟨i, hi, rfl⟩ := List.mem_map.1 hmem
      obtain ⟨k, hk⟩ := List.mem_iff_getElem?.1 hi
      exact ⟨k, boundary?_of_getElem? hasc hend hk⟩
  obtain ⟨start, hstart⟩ := hindex (b := c.tryOffset) (by simp [Clause.boundaries])
  obtain ⟨middle, hmiddle⟩ := hindex (b := c.tryEnd) (by simp [Clause.boundaries])
  obtain ⟨stop, hstop⟩ := hindex (b := c.handlerEnd) (by simp [Clause.boundaries])
  exact ⟨⟨c.kind, start, middle, stop, (boundary?_lt_iff hasc hend hstart hmiddle).1 hprotects,
    (boundary?_lt_iff hasc hend hmiddle hstop).1 (hadjacent ▸ hhandles)⟩, rfl, hstart, hmiddle,
    hstop⟩

variable (h : t.Of (Offsets.ofCode is.toArray) c) (hadjacent : c.handlerOffset = c.tryEnd)

include h

theorem guards_iff {k : Nat} {i : Instruction} (hi : is[k]? = some i) :
    c.Guards i.offset ↔ t.start ≤ k ∧ k < t.middle := by
  have hk := boundary?_of_getElem? hasc hend hi
  rw [Clause.Guards, ← UInt32.not_lt, boundary?_lt_iff hasc hend hk h.start,
    boundary?_lt_iff hasc hend hk h.middle, Nat.not_lt]

include hadjacent

theorem handles_iff {k : Nat} {i : Instruction} (hi : is[k]? = some i) :
    c.Handles i.offset ↔ t.middle ≤ k ∧ k < t.stop := by
  have hk := boundary?_of_getElem? hasc hend hi
  rw [Clause.Handles, hadjacent, ← UInt32.not_lt, boundary?_lt_iff hasc hend hk h.middle,
    boundary?_lt_iff hasc hend hk h.stop, Nat.not_lt]

theorem spans_iff {k : Nat} {i : Instruction} (hi : is[k]? = some i) :
    c.Spans i.offset ↔ t.start ≤ k ∧ k < t.stop := by
  have hprotects := t.protects
  have hhandles := t.handles
  rw [Clause.Spans, guards_iff hasc hend h hi, handles_iff hasc hend h hadjacent hi]
  omega

end

/-- The statement lies in one of the ranges of another, or beside it. -/
def Nested (t t' : Statement) : Prop :=
  (t'.start ≤ t.start ∧ t.stop ≤ t'.middle) ∨ (t'.middle ≤ t.start ∧ t.stop ≤ t'.stop) ∨
    t.stop ≤ t'.start ∨ t'.stop ≤ t.start

/-- Statements nest if their clauses do. -/
theorem nested_of_encloses (hasc : is.Pairwise (·.offset < ·.offset))
    (hend : ∀ i ∈ is, i.offset < codeEnd is) (h : t.Of (Offsets.ofCode is.toArray) c)
    (hadjacent : c.handlerOffset = c.tryEnd) (h' : t'.Of (Offsets.ofCode is.toArray) c')
    (hadjacent' : c'.handlerOffset = c'.tryEnd) (hencloses : c'.Encloses c) : t.Nested t' := by
  have hlen := h.stop_le
  have hlen' := h'.stop_le
  have hprotects := t.protects
  have hhandles := t.handles
  have hprotects' := t'.protects
  have hhandles' := t'.handles
  have hspans {k : Nat} (hk : k < is.length) := spans_iff hasc hend h hadjacent
    (List.getElem?_eq_getElem hk)
  have hfirst := (hspans (k := t.start) (by omega)).2 (by omega)
  have hlast := (hspans (k := t.stop - 1) (by omega)).2 (by omega)
  rcases hencloses with hin | hin | hout
  · have hfirst := (guards_iff hasc hend h' (List.getElem?_eq_getElem _)).1 (hin _ hfirst)
    have hlast := (guards_iff hasc hend h' (List.getElem?_eq_getElem _)).1 (hin _ hlast)
    exact .inl (by omega)
  · have hfirst := (handles_iff hasc hend h' hadjacent' (List.getElem?_eq_getElem _)).1
      (hin _ hfirst)
    have hlast := (handles_iff hasc hend h' hadjacent' (List.getElem?_eq_getElem _)).1 (hin _ hlast)
    exact .inr (.inl (by omega))
  · -- neither of the two has the first instruction of the other
    have hspans' {k : Nat} (hk : k < is.length) := spans_iff hasc hend h' hadjacent'
      (List.getElem?_eq_getElem hk)
    have hfirst := mt (hspans' (k := t.start) (by omega)).2 (hout _ hfirst)
    have hfirst' : ¬(t.start ≤ t'.start ∧ t'.start < t.stop) := fun hin =>
      hout _ ((hspans (k := t'.start) (by omega)).2 hin) ((hspans' (by omega)).2 (by omega))
    exact .inr (.inr (by omega))

/-- A range of a clause that lies beside the statement, around it or inside one of its ranges, and is
none of the two. -/
theorem suits_of_range {n : Nat} {s : Span} (hsplit : s.kind.split? = none)
    (hlt : s.start < s.stop) (hn : s.stop ≤ n)
    (hplace : s.stop ≤ t.start ∨ t.stop ≤ s.start ∨ (s.start ≤ t.start ∧ t.stop ≤ s.stop) ∨
      (t.start ≤ s.start ∧ s.stop ≤ t.middle) ∨ (t.middle ≤ s.start ∧ s.stop ≤ t.stop))
    (hdistinct : ¬(s.start = t.start ∧ s.stop = t.middle) ∧
      ¬(s.start = t.middle ∧ s.stop = t.stop)) : t.Suits n s := by
  have hwhole (split : Nat) : s.kind.split? ≠ some split := by simp [hsplit]
  refine ⟨.inr ⟨hlt, hn, fun split hs => absurd hs (hwhole split)⟩, ?_, fun _ _ _ => hdistinct⟩
  exact hplace.imp id (.imp id (.imp (fun ⟨hstart, hstop⟩ =>
    ⟨hstart, hstop, fun split hs => absurd hs (hwhole split)⟩) id))

/-- The ranges of another clause that nests with the clause of the statement. -/
theorem suits_of_nested {n : Nat} (hn : t'.stop ≤ n) (h : t.Nested t' ∨ t'.Nested t) :
    t.Suits n t'.protected_ ∧ t.Suits n t'.handler := by
  have hprotects := t.protects
  have hhandles := t.handles
  have hprotects' := t'.protects
  have hhandles' := t'.handles
  unfold Nested at h
  refine ⟨suits_of_range rfl hprotects' (Nat.le_trans hhandles'.le hn) ?_ ?_,
    suits_of_range rfl hhandles' hn ?_ ?_⟩ <;>
    simp only [protected_start, protected_stop, handler_start, handler_stop] <;> omega

/-- The ranges of the statement itself. -/
theorem suits_self {n : Nat} (hn : t.stop ≤ n) : t.Suits n t.protected_ ∧ t.Suits n t.handler :=
  ⟨⟨.inr ⟨t.protects, Nat.le_trans t.handles.le hn, fun _ hs => by cases hs⟩,
    .inr (.inr (.inr (.inl ⟨Nat.le_refl _, Nat.le_refl _⟩))), fun _ hne => absurd rfl hne⟩,
    ⟨.inr ⟨t.handles, hn, fun _ hs => by cases hs⟩,
    .inr (.inr (.inr (.inr ⟨Nat.le_refl _, Nat.le_refl _⟩))), fun _ _ hne => absurd rfl hne⟩⟩

/-! ### Conditionals respect statements -/

/-- A jump from `k` to `j` stays in the ranges of the statement, and enters the statement at its
start only. -/
structure Admits (t : Statement) (k j : Nat) : Prop where
  protected_ : t.start ≤ k → k < t.middle → t.start ≤ j ∧ j < t.middle
  handler : t.middle ≤ k → k < t.stop → t.middle ≤ j ∧ j < t.stop
  enters : t.start < j → j < t.stop → t.start ≤ k ∧ k < t.stop

/-- A conditional without a second part respects the statement if its test does. -/
theorem Admits.respects {test target : Nat} (h : t.Admits test target) :
    t.Respects ⟨.conditional test none, test + 1, target⟩ := by
  obtain ⟨hprotected, hhandler, henters⟩ := h
  by_cases haround : test + 1 ≤ t.start ∧ t.stop ≤ target
  · exact .inr (.inr (.inl ⟨haround.1, haround.2, fun split hsplit => by cases hsplit⟩))
  · have hprotects := t.protects
    have hhandles := t.handles
    show target ≤ t.start ∨ t.stop ≤ test + 1 ∨ _ ∨ (t.start ≤ test + 1 ∧ target ≤ t.middle) ∨
      t.middle ≤ test + 1 ∧ target ≤ t.stop
    omega

/-- A conditional with a second part respects the statement if its test and the jump over the second
part do. -/
theorem Admits.respects_parts {test target join : Nat} (h : t.Admits test target)
    (hlt : test < target) (h' : t.Admits (target - 1) join) (hlt' : target < join) :
    t.Respects ⟨.conditional test (some target), test + 1, join⟩ := by
  obtain ⟨hprotected, hhandler, henters⟩ := h
  obtain ⟨hprotected', hhandler', henters'⟩ := h'
  have hprotects := t.protects
  have hhandles := t.handles
  by_cases haround : test + 1 ≤ t.start ∧ t.stop ≤ join
  · refine .inr (.inr (.inl ⟨haround.1, haround.2, fun split hsplit => ?_⟩))
    -- the second part starts where the test goes, which is not inside the statement
    cases hsplit
    omega
  · show join ≤ t.start ∨ t.stop ≤ test + 1 ∨ _ ∨ (t.start ≤ test + 1 ∧ join ≤ t.middle) ∨
      t.middle ≤ test + 1 ∧ join ≤ t.stop
    omega

theorem admits_of_jump (hasc : is.Pairwise (·.offset < ·.offset))
    (hend : ∀ i ∈ is, i.offset < codeEnd is) (h : t.Of (Offsets.ofCode is.toArray) c)
    {clauses : List Clause} (hregular : Instruction.Regular is clauses) (hc : c ∈ clauses)
    {k j : Nat} {i i' : Instruction} (hi : is[k]? = some i) (hi' : is[j]? = some i')
    (hleave : i.opcode ∉ [.leave, .leaveS]) (ht : i.target? = some i'.offset) : t.Admits k j := by
  have hadjacent := hregular.adjacent c hc
  have hmem := List.mem_of_getElem? hi
  have hguards {k : Nat} {i : Instruction} (hi : is[k]? = some i) := guards_iff hasc hend h hi
  have hhandles {k : Nat} {i : Instruction} (hi : is[k]? = some i) :=
    handles_iff hasc hend h hadjacent hi
  obtain ⟨hstays, hstays'⟩ := hregular.stays i hmem hleave _ ht c hc
  obtain ⟨henters, henters'⟩ := hregular.enters i hmem hleave _ ht c hc
  rw [hguards hi, hguards hi'] at hstays henters
  rw [hhandles hi, hhandles hi'] at hstays' henters'
  refine ⟨fun hstart hlt => hstays ⟨hstart, hlt⟩, fun hstart hlt => hstays' ⟨hstart, hlt⟩,
    fun hstart hlt => ?_⟩
  have hprotects := t.protects
  have hlt' := t.handles
  refine Decidable.byContradiction fun hout => ?_
  rcases Nat.lt_or_ge j t.middle with hbefore | hge
  · -- it would go to the start of the protected range
    have heq := henters ⟨hstart.le, hbefore⟩ (by omega)
    have hstart' := boundary?_of_getElem? hasc hend hi'
    rw [heq, h.start, Option.some.injEq] at hstart'
    omega
  · -- it would go to a handler whose protected range is empty
    have heq := (henters' ⟨hge, hlt⟩ (by omega)).2
    have hmiddle := h.middle
    rw [heq, h.start, Option.some.injEq] at hmiddle
    omega

theorem not_leave_of_condBranch {op : Opcode} (h : op.flow = .condBranch) :
    op ∉ [.leave, .leaveS] := by
  rintro hmem
  rcases List.mem_pair.1 hmem with rfl | rfl <;> cases h

/-- A jump is to an instruction of the body. -/
theorem exists_of_jumps (hasc : is.Pairwise (·.offset < ·.offset)) {k j : Nat}
    (h : (is.toArray.map fun i => i.target?.bind (Offsets.ofCode is.toArray).indexOf?).getD k none =
      some j) :
    ∃ i i', is[k]? = some i ∧ is[j]? = some i' ∧ i.target? = some i'.offset := by
  rw [Array.getD_eq_getD_getElem?, Array.getElem?_map, List.getElem?_toArray] at h
  cases hi : is[k]? with
  | none => simp [hi] at h
  | some i =>
    rw [hi, Option.map_some, Option.getD_some] at h
    obtain ⟨offset, ht, hindex⟩ := Option.bind_eq_some_iff.1 h
    obtain ⟨i', hi', rfl⟩ := Option.map_eq_some_iff.1 ((Offsets.indexOf?_ofCode hasc).1 hindex)
    exact ⟨i, i', rfl, hi', ht⟩

/-- **A conditional respects the statements of regular clauses.** -/
theorem respects_of_conditional (hasc : is.Pairwise (·.offset < ·.offset))
    (hend : ∀ i ∈ is, i.offset < codeEnd is) (h : t.Of (Offsets.ofCode is.toArray) c)
    {clauses : List Clause} (hregular : Instruction.Regular is clauses) (hc : c ∈ clauses)
    {g : Graph} (hg : g.offsets = Offsets.ofCode is.toArray) {s : Span}
    (hs : s ∈ conditionalSpans g is) : t.Respects s := by
  have hadmits {k j : Nat} {i : Instruction} (hi : is[k]? = some i)
      (hleave : i.opcode ∉ [.leave, .leaveS])
      (hj : (is.toArray.map fun i => i.target?.bind g.offsets.indexOf?).getD k none = some j) :
      t.Admits k j := by
    rw [hg] at hj
    obtain ⟨i, i', hi₀, hi', ht⟩ := exists_of_jumps hasc hj
    rw [hi] at hi₀
    cases hi₀
    exact admits_of_jump hasc hend h hregular hc hi hi' hleave ht
  obtain ⟨⟨i, test⟩, hmem, hs⟩ := List.mem_filterMap.1 hs
  have hi : is[test]? = some i := List.mem_zipIdx_iff_getElem?.1 hmem
  simp only [conditionalSpan?, Option.bind_eq_bind, Option.bind_eq_some_iff] at hs
  obtain ⟨_, hflow, target, htarget, _, hstart, last, hlast, _, -, hs⟩ := hs
  replace hflow : i.opcode.flow = .condBranch := by simpa [guard] using hflow
  replace hstart : test + 1 < target := by simpa [guard] using hstart
  cases hs
  have htest := hadmits hi (not_leave_of_condBranch hflow) htarget
  -- with a second part, the jump at the end of the first part respects the statement as well
  split
  · rename_i join hjoin
    split
    · rename_i hlt
      have hjump : t.Admits (target - 1) join := by
        split at hjoin
        · rename_i hbr
          rw [List.getElem?_toArray] at hlast
          exact hadmits hlast (by rcases hbr with hbr | hbr <;> simp [hbr]) hjoin
        · cases hjoin
      exact htest.respects_parts (Nat.lt_of_succ_lt hstart) hjump hlt
    · exact htest.respects
  · exact htest.respects

end

end Statement

/-! ### The region tree -/

/-- The spans of all clauses are candidates. -/
theorem mem_protectedSpans_of_mem {o : Offsets} {clauses : List Clause} {c : Clause} {s : Span}
    (hc : c ∈ clauses) (hs : s ∈ clauseSpans o c) : s ∈ protectedSpans o clauses := by
  have hfold (spans found : List Span) (h : s ∈ found ∨ s ∈ spans) :
      s ∈ spans.foldl (fun found s =>
        if s.kind == .protected_ && found.contains s then found else found ++ [s]) found := by
    induction spans generalizing found with
    | nil => exact h.resolve_right List.not_mem_nil
    | cons r spans ih =>
      refine ih _ ?_
      rcases h with h | h
      · left
        dsimp only
        split
        · exact h
        · exact List.mem_append_left _ h
      · rcases List.mem_cons.1 h with rfl | h
        · left
          dsimp only
          split
          · rename_i hfound
            simp only [Bool.and_eq_true, List.contains_iff_mem] at hfound
            exact hfound.2
          · exact List.mem_append_right _ (List.mem_singleton_self _)
        · exact .inr h
  exact hfold _ _ (.inr (List.mem_flatMap.2 ⟨c, hc, hs⟩))

theorem rank_of_loop {g : Graph} {l : Loop} {s : Span} (h : loopSpan? g l = some s) :
    s.kind.rank = 2 := by
  simp only [loopSpan?] at h
  split at h
  · cases h
  · split at h <;> cases h
    rfl

theorem rank_of_conditional {g : Graph} {is : List Instruction} {s : Span}
    (h : s ∈ conditionalSpans g is) : s.kind.rank = 1 := by
  obtain ⟨⟨i, test⟩, -, h⟩ := List.mem_filterMap.1 h
  simp only [conditionalSpan?, Option.bind_eq_bind, Option.bind_eq_some_iff] at h
  obtain ⟨_, -, target, -, _, -, last, -, _, -, h⟩ := h
  cases h
  rfl

section

variable {is : List Instruction} {clauses : List Clause} {c : Clause} {t : Statement}
  (hasc : is.Pairwise (·.offset < ·.offset)) (hend : ∀ i ∈ is, i.offset < codeEnd is)
  (hregular : Instruction.Regular is clauses)

include hasc hend hregular

/-- The ranges of a regular clause respect the statement of every clause of the body. -/
theorem suits_of_clause (hc : c ∈ clauses) (ht : t.Of (Offsets.ofCode is.toArray) c) {c' : Clause}
    (hc' : c' ∈ clauses) {t' : Statement} (ht' : t'.Of (Offsets.ofCode is.toArray) c') {s : Span}
    (hs : s ∈ clauseSpans (Offsets.ofCode is.toArray) c') : t.Suits is.length s := by
  have hadjacent := hregular.adjacent c hc
  have hadjacent' := hregular.adjacent c' hc'
  by_cases heq : c = c'
  · rw [← heq, Statement.clauseSpans_eq ht hadjacent] at hs
    obtain ⟨hprotected, hhandler⟩ := t.suits_self ht.stop_le
    rcases List.mem_pair.1 hs with rfl | rfl
    · exact hprotected
    · exact hhandler
  · have hnested := hregular.nested.imp fun {a b} h =>
      show b.Encloses a ∨ a.Encloses b from .inl h
    have hsymm : Std.Symm fun a b : Clause => b.Encloses a ∨ a.Encloses b :=
      ⟨fun a b h => Or.symm h⟩
    obtain ⟨hprotected, hhandler⟩ := Statement.suits_of_nested ht'.stop_le
      ((hnested.forall hc hc' heq).imp
        (Statement.nested_of_encloses hasc hend ht hadjacent ht' hadjacent')
        (Statement.nested_of_encloses hasc hend ht' hadjacent' ht hadjacent))
    rw [Statement.clauseSpans_eq ht' hadjacent'] at hs
    rcases List.mem_pair.1 hs with rfl | rfl
    · exact hprotected
    · exact hhandler

/-- **The handler of a regular clause stands behind its protected region** in the region tree, if all
loops respect the statement that the clause guards. -/
theorem paired_regions {g : Graph} (hbuild : Graph.build is clauses = .ok g) (hne : is ≠ [])
    (hc : c ∈ clauses) : ∃ t : Statement, t.Of g.offsets c ∧
      ((∀ l ∈ g.naturalLoops, ∀ s, loopSpan? g l = some s → t.Respects s) →
        t.Paired (regions is clauses g)) := by
  have hg := Graph.describes_of_build hbuild
  have hbounded := (Graph.exists_build_iff hne hasc).1 ⟨g, hbuild⟩
  have hexists {c : Clause} (hc : c ∈ clauses) :
      ∃ t : Statement, t.Of (Offsets.ofCode is.toArray) c :=
    Statement.exists_of hasc hend (hregular.adjacent c hc) (hbounded.nonempty c hc).1
      (hbounded.nonempty c hc).2 (hbounded.boundary c hc)
  obtain ⟨t, ht⟩ := hexists hc
  refine ⟨t, hg.offsets ▸ ht, fun hloops => ?_⟩
  have hmem {s : Span} (hs : s = t.protected_ ∨ s = t.handler) :
      s ∈ (protectedSpans g.offsets clauses ++ g.naturalLoops.filterMap (loopSpan? g) ++
        conditionalSpans g is).mergeSort Span.le := by
    refine List.mem_mergeSort.2 (List.mem_append_left _ (List.mem_append_left _
      (mem_protectedSpans_of_mem hc ?_)))
    rw [hg.offsets, Statement.clauseSpans_eq ht (hregular.adjacent c hc)]
    exact List.mem_pair.2 hs
  refine Statement.paired_foldl_add ht.stop_le
    (List.pairwise_mergeSort Span.le_trans Span.le_total _) (hmem (.inl rfl)) (hmem (.inr rfl))
    fun s hs => ?_
  rw [List.mem_mergeSort, List.mem_append, List.mem_append] at hs
  rcases hs with (hs | hs) | hs
  · obtain ⟨c', hc', hs⟩ := mem_protectedSpans hs
    obtain ⟨t', ht'⟩ := hexists hc'
    exact suits_of_clause hasc hend hregular hc ht hc' ht' (hg.offsets ▸ hs)
  · obtain ⟨l, hl, hs⟩ := List.mem_filterMap.1 hs
    refine ⟨(candidate_of_loop hg hl hs).inside, hloops l hl s hs, fun hrank => ?_⟩
    rw [rank_of_loop hs] at hrank
    cases hrank
  · refine ⟨(candidate_of_conditional hg hs).inside,
      Statement.respects_of_conditional hasc hend ht hregular hc hg.offsets hs, fun hrank => ?_⟩
    rw [rank_of_conditional hs] at hrank
    cases hrank

end

end Listing

/-! ## The bodies of a program -/

namespace Draft

variable {d : Draft} {body : FinishedBody}

theorem toNat_offset (hfinish : d.finish = .ok body) (hlen : body.code.length < 2 ^ 32) {k : Nat}
    {j : Instruction} (hk : d.instructions[k]? = some j) :
    j.offset.toNat = place d.settled k ∧ j.next.toNat = place d.settled (k + 1) := by
  have hlt : k < d.code.size := length_instructions d ▸ (List.getElem?_eq_some_iff.1 hk).1
  obtain ⟨j', hj', hlaid⟩ := exists_laidAs hfinish (Array.getElem?_eq_getElem hlt)
  rw [hk] at hj'
  cases hj'
  rw [hlaid.offset, hlaid.next, toNat_place hfinish hlen, toNat_place hfinish hlen]
  exact ⟨rfl, rfl⟩

/-- The instructions of a finished body ascend, up to the end of the code. -/
theorem ascending_instructions (hfinish : d.finish = .ok body) (hlen : body.code.length < 2 ^ 32) :
    d.instructions.Pairwise (·.offset < ·.offset) ∧
      ∀ i ∈ d.instructions, i.offset < Flow.codeEnd d.instructions := by
  have hlength : d.instructions.length = d.settled.length := by
    rw [length_instructions, length_settled]
  have hplace {j k : Nat} (hj : j < d.settled.length) (hlt : j < k) :
      place d.settled j < place d.settled k :=
    Nat.lt_of_not_le fun hle => Nat.not_le.2 hlt ((place_le_iff hj).1 hle)
  constructor
  · refine List.pairwise_iff_getElem.2 fun j k hj hk hlt => ?_
    rw [UInt32.lt_iff_toNat_lt, (toNat_offset hfinish hlen (List.getElem?_eq_getElem hj)).1,
      (toNat_offset hfinish hlen (List.getElem?_eq_getElem hk)).1]
    exact hplace (hlength ▸ hj) hlt
  · intro i hi
    obtain ⟨k, hk⟩ := List.mem_iff_getElem?.1 hi
    have hlt := (List.getElem?_eq_some_iff.1 hk).1
    have hlast := List.getElem?_eq_getElem
      (show d.instructions.length - 1 < d.instructions.length by omega)
    rw [Flow.codeEnd, List.getLast?_eq_getElem?, hlast, UInt32.lt_iff_toNat_lt,
      (toNat_offset hfinish hlen hk).1, Option.map_some, Option.getD_some,
      (toNat_offset hfinish hlen hlast).2]
    exact hplace (hlength ▸ hlt) (by omega)

end Draft

namespace Image

/-- **Handlers stand behind their protected regions.** In the region tree of every body of a program
that is accepted, every clause has its protected region and, as the next one of the same list, its
handler, unless a loop of the body does not respect the statement that the clause guards. -/
theorem paired_of_generate {language : Language} {options : CodeOptions} {mvid : Vector UInt8 16}
    {unit : Source.CompilationUnit} {log log' : Log} {image : Image}
    (h : generate language options mvid unit log = .ok (some image, log')) {body : FinishedBody}
    (hbody : body ∈ image.bodies) (hlen : body.code.length < 2 ^ 32) {is : List Instruction}
    (hdecode : Instruction.decodeStream body.code = .ok is) {g : Flow.Graph}
    (hbuild : Flow.Graph.build is body.clauses = .ok g) :
    ∀ c ∈ body.clauses, ∃ t : Listing.Statement, t.Of g.offsets c ∧
      ((∀ l ∈ g.naturalLoops, ∀ s, Listing.loopSpan? g l = some s → t.Respects s) →
        t.Paired (Listing.regions is body.clauses g)) := by
  obtain ⟨d, hfinish, hshaped, hblock, hend⟩ := exists_draft_of_generate h hbody
  obtain rfl := Draft.instructions_of_decodeStream hfinish hshaped hlen hdecode
  obtain ⟨hasc, hbefore⟩ := Draft.ascending_instructions hfinish hlen
  have hregular := Draft.regular_of_block hfinish hlen hblock hend
  have hne : d.instructions ≠ [] := by
    obtain ⟨A, halive, hzero⟩ := hblock.exists_alive hend
    have hlt := halive.lt 0 hzero
    rw [← Draft.length_instructions] at hlt
    exact List.ne_nil_of_length_pos hlt
  exact fun c hc => Listing.paired_regions hasc hbefore hregular hbuild hne hc

end Image

end CilScope
