import CilScope.Proofs.Flow.Paths

/-!
# Building the control-flow graph of a body

`Graph.build` is exact. On a body with ascending offsets it succeeds exactly if every branch goes to
an instruction and every clause has two ranges that are not empty, bounded by instructions or by the
end of the code (`Bounded`). The graph then charts the body (`Charts`): its blocks are consecutive
ranges of instructions, cut behind every instruction that ends a run and in front of everything that
a branch or a clause refers to, and its edges are those that the instructions and the clauses ask for
(`Edge`), seen from both ends. The ends of the ranges, which are 32-bit sums, then do not wrap around
(`Bounded.ends`); a body without instructions is accepted with any clauses (`exists_build_iff_nil_or`).
-/

namespace CilScope

/-- The offsets that bound the two ranges of a clause. -/
def Clause.boundaries (c : Clause) : List UInt32 :=
  [c.tryOffset, c.tryEnd, c.handlerOffset, c.handlerEnd]

namespace Flow

/-! ## What a graph has to say -/

/-- The offset behind the last instruction. -/
def codeEnd (is : List Instruction) : UInt32 := (is.getLast?.map Instruction.next).getD 0

/-- The instruction at index `i` stands at `offset`. -/
def StandsAt (is : List Instruction) (i : Nat) (offset : UInt32) : Prop :=
  is[i]?.map Instruction.offset = some offset

/-- Every branch goes to an instruction, and every clause has two ranges that are not empty and that
instructions or the end of the code bound. -/
structure Bounded (is : List Instruction) (clauses : List Clause) : Prop where
  branch : ∀ i ∈ is, ∀ t ∈ i.target?, t ∈ is.map Instruction.offset
  nonempty : ∀ c ∈ clauses, c.tryOffset < c.tryEnd ∧ c.handlerOffset < c.handlerEnd
  boundary : ∀ c ∈ clauses, ∀ b ∈ c.boundaries, b = codeEnd is ∨ b ∈ is.map Instruction.offset

theorem bounded_iff {is : List Instruction} {clauses : List Clause} : Bounded is clauses ↔
    (∀ i ∈ is, ∀ t ∈ i.target?, t ∈ is.map Instruction.offset) ∧
      ∀ c ∈ clauses, (c.tryOffset < c.tryEnd ∧ c.handlerOffset < c.handlerEnd) ∧
        ∀ b ∈ c.boundaries, b = codeEnd is ∨ b ∈ is.map Instruction.offset :=
  ⟨fun h => ⟨h.branch, fun c hc => ⟨h.nonempty c hc, h.boundary c hc⟩⟩,
    fun h => ⟨h.1, fun c hc => (h.2 c hc).1, fun c hc => (h.2 c hc).2⟩⟩

/-- A range ends behind its start only if its end does not wrap around. -/
theorem toNat_add_of_lt {a b : UInt32} (h : a < a + b) : (a + b).toNat = a.toNat + b.toNat := by
  rw [UInt32.lt_iff_toNat_lt, UInt32.toNat_add] at h
  rw [UInt32.toNat_add]
  have ha := a.toNat_lt
  have hb := b.toNat_lt
  omega

/-- **The ends of ranges that a body bounds do not wrap around**: the sums of the offsets and the lengths
fit 32 bits. -/
theorem Bounded.ends {is : List Instruction} {clauses : List Clause} (h : Bounded is clauses) {c : Clause}
    (hc : c ∈ clauses) : c.tryEnd.toNat = c.tryOffset.toNat + c.tryLength.toNat ∧
      c.handlerEnd.toNat = c.handlerOffset.toNat + c.handlerLength.toNat :=
  (h.nonempty c hc).imp toNat_add_of_lt toNat_add_of_lt

theorem exists_standsAt_iff {is : List Instruction} {offset : UInt32} :
    (∃ j, StandsAt is j offset) ↔ offset ∈ is.map Instruction.offset := by
  simp only [StandsAt, ← List.getElem?_map, ← List.mem_iff_getElem?]

namespace Graph

/-- Block `b` has the instruction at `offset`. -/
def HoldsAt (g : Graph) (is : List Instruction) (b : Nat) (offset : UInt32) : Prop :=
  ∃ i, StandsAt is i offset ∧ g.blockOf[i]? = some b

/-- The instruction that ends block `b` is `last`. -/
def EndsWith (g : Graph) (is : List Instruction) (b : Nat) (last : Instruction) : Prop :=
  ∃ block, g.blocks[b]? = some block ∧ is[block.stop - 1]? = some last

/-- Control can go from the end of one block to the start of another, or from a protected range that
starts in a block to its handler. -/
inductive Edge (g : Graph) (is : List Instruction) (clauses : List Clause) : Nat → Nat → Prop
  /-- The last instruction branches into the block. -/
  | jump {b s : Nat} {last : Instruction} {t : UInt32} (hlast : g.EndsWith is b last)
      (ht : t ∈ last.target?) (hs : g.HoldsAt is s t) : Edge g is clauses b s
  /-- Control goes on from the last instruction into the next block. -/
  | next {b : Nat} {last : Instruction} (hlast : g.EndsWith is b last)
      (hfalls : last.opcode.fallsThrough = true) (hb : b + 1 < g.size) : Edge g is clauses b (b + 1)
  /-- A protected range starts in the block, and its handler in the other. -/
  | handler {b s : Nat} {c : Clause} (hc : c ∈ clauses) (hb : g.HoldsAt is b c.tryOffset)
      (hs : g.HoldsAt is s c.handlerOffset) : Edge g is clauses b s

/-- The graph shows the body as it is. -/
structure Charts (g : Graph) (is : List Instruction) (clauses : List Clause) : Prop where
  /-- The first block starts at the first instruction. -/
  entry : g.blocks[0]?.map Block.first = some 0
  /-- A block ends where the next one starts, and the last one ends behind the last instruction. -/
  stop : ∀ b block, g.blocks[b]? = some block →
    block.stop = (g.blocks[b + 1]?.map Block.first).getD is.length
  nonempty : ∀ block ∈ g.blocks, block.first < block.stop
  /-- Every instruction is in the block that `blockOf` says, and in no other. -/
  blockOf : g.blockOf.size = is.length ∧ ∀ i b, g.blockOf[i]? = some b ↔
    ∃ block : Block, g.blocks[b]? = some block ∧ block.first ≤ i ∧ i < block.stop
  /-- Inside a block control goes on to the next instruction and nowhere else. -/
  inside : ∀ block ∈ g.blocks, ∀ k i, block.first ≤ k → k + 1 < block.stop → is[k]? = some i →
    i.target? = none ∧ i.opcode.fallsThrough = true
  /-- Branches go to the starts of blocks. -/
  target : ∀ i ∈ is, ∀ t ∈ i.target?, ∃ block ∈ g.blocks, StandsAt is block.first t
  /-- Clauses are bounded by starts of blocks or the end of the code. -/
  boundary : ∀ c ∈ clauses, ∀ b ∈ c.boundaries, b ≠ codeEnd is →
    ∃ block ∈ g.blocks, StandsAt is block.first b
  succs : ∀ b s, s ∈ g.succs b ↔ g.Edge is clauses b s
  preds : ∀ b s, b ∈ g.preds s ↔ s ∈ g.succs b
  ascending : ∀ block ∈ g.blocks, block.succs.Pairwise (· < ·) ∧ block.preds.Pairwise (· < ·)

end Graph

/-! ## Offsets -/

namespace Offsets

/-- Offsets are in the order of indices. -/
theorem lt_iff_index_lt {o : Offsets} (ho : o.Ascending) {a b : UInt32} {i j : Nat}
    (hi : o.starts[i]? = some a) (hj : o.starts[j]? = some b) : a < b ↔ i < j := by
  obtain ⟨hi', rfl⟩ := Array.getElem?_eq_some_iff.1 hi
  obtain ⟨hj', rfl⟩ := Array.getElem?_eq_some_iff.1 hj
  have hlt {i j : Nat} (hi : i < o.starts.size) (hj : j < o.starts.size) (h : i < j) :
      o.starts[i] < o.starts[j] := List.pairwise_iff_getElem.1 ho i j hi hj h
  refine ⟨fun h => Nat.lt_of_not_le fun hle => ?_, hlt hi' hj'⟩
  rcases Nat.lt_or_eq_of_le hle with hji | rfl
  · exact UInt32.lt_irrefl _ (UInt32.lt_trans h (hlt hj' hi' hji))
  · exact UInt32.lt_irrefl _ h

/-- Bisection ends at the index of an offset that is in the range it searches. -/
theorem bisect_eq {o : Offsets} (ho : o.Ascending) {offset : UInt32} {k : Nat}
    (hk : o.starts[k]? = some offset) {base size : Nat} (hbase : base ≤ k) (hsize : k < base + size)
    (hle : base + size ≤ o.starts.size) : bisect o.starts offset base size = k := by
  fun_induction bisect o.starts offset base size with
  | case1 base size hone => omega
  | case2 base size hone half ih =>
    have hmid : base + half < o.starts.size := by omega
    have hget : o.starts[base + half]? = some (o.starts.getD (base + half) 0) := by
      rw [Array.getD_eq_getD_getElem?, Array.getElem?_eq_getElem hmid, Option.getD_some]
    have horder := lt_iff_index_lt ho hk hget
    by_cases hlt : offset < o.starts.getD (base + half) 0
    · have hk' := horder.1 hlt
      simp only [hlt, dite_true] at ih ⊢
      exact ih hbase (by omega) (by omega)
    · have hk' := mt horder.2 hlt
      simp only [hlt, dite_false] at ih ⊢
      exact ih (by omega) (by omega) (by omega)

/-- The index of an offset is the index of the instruction that stands there. -/
theorem indexOf?_eq_some_iff {o : Offsets} (ho : o.Ascending) {offset : UInt32} {i : Nat} :
    o.indexOf? offset = some i ↔ o.starts[i]? = some offset := by
  refine ⟨getElem?_of_indexOf?, fun h => ?_⟩
  have hlt := (Array.getElem?_eq_some_iff.1 h).1
  have hbisect := bisect_eq ho h (Nat.zero_le i) (by omega) (Nat.le_of_eq (Nat.zero_add _))
  simp only [indexOf?, hbisect, h, if_true]

variable {is : List Instruction}

theorem ascending_ofCode (h : is.Pairwise (·.offset < ·.offset)) :
    (ofCode is.toArray).Ascending := by
  rw [Ascending, starts_ofCode, List.pairwise_map]
  exact h

theorem indexOf?_ofCode (h : is.Pairwise (·.offset < ·.offset)) {offset : UInt32} {i : Nat} :
    (ofCode is.toArray).indexOf? offset = some i ↔ StandsAt is i offset := by
  rw [indexOf?_eq_some_iff (ascending_ofCode h), StandsAt, ofCode, List.map_toArray,
    List.getElem?_toArray, List.getElem?_map]

theorem codeEnd_ofCode (is : List Instruction) :
    (ofCode is.toArray).codeEnd = Flow.codeEnd is := by
  simp only [ofCode, Flow.codeEnd, List.back?_toArray]
  cases is.getLast? <;> rfl

end Offsets

/-! ## Ranges -/

namespace Graph

theorem getElem?_spans (n : Nat) (starts : List Nat) (k : Nat) :
    (spans n starts)[k]? = starts[k]?.map fun s => (s, (starts[k + 1]?).getD n) := by
  induction starts generalizing k with
  | nil => rfl
  | cons s rest ih =>
    rcases rest with _ | ⟨t, rest⟩
    · cases k <;> rfl
    · rw [spans]
      cases k with
      | zero => rfl
      | succ k => simpa using ih k

theorem length_spans (n : Nat) (starts : List Nat) : (spans n starts).length = starts.length := by
  fun_induction spans n starts with
  | case1 | case2 => rfl
  | case3 s t rest ih => exact congrArg (· + 1) ih

/-- Ranges that are not empty. Each starts where the one before it ends, and the first one at `s`. -/
def Consecutive (s : Nat) : List (Nat × Nat) → Prop
  | [] => True
  | r :: ranges => r.1 = s ∧ r.1 < r.2 ∧ Consecutive r.2 ranges

theorem consecutive_spans {n s : Nat} {rest : List Nat} (hasc : (s :: rest).Pairwise (· < ·))
    (hn : ∀ t ∈ s :: rest, t < n) : Consecutive s (spans n (s :: rest)) := by
  induction rest generalizing s with
  | nil => exact ⟨rfl, hn s (List.mem_singleton.2 rfl), trivial⟩
  | cons t rest ih =>
    obtain ⟨hs, hrest⟩ := List.pairwise_cons.1 hasc
    exact ⟨rfl, hs t (List.mem_cons_self ..), ih hrest (List.forall_mem_cons.1 hn).2⟩

theorem Consecutive.le {s : Nat} {ranges : List (Nat × Nat)} (h : Consecutive s ranges) :
    ∀ r ∈ ranges, s ≤ r.1 := by
  induction ranges generalizing s with
  | nil => exact fun r hr => by cases hr
  | cons r ranges ih =>
    obtain ⟨hs, hlt, hrest⟩ := h
    refine List.forall_mem_cons.2 ⟨Nat.le_of_eq hs.symm, fun r' hr' => ?_⟩
    exact Nat.le_trans (by omega) (ih hrest r' hr')

/-- The blocks of the instructions, given the ranges of the blocks, which are numbered from `k` on. -/
def numbering (k : Nat) (ranges : List (Nat × Nat)) : List Nat :=
  (ranges.zipIdx k).flatMap fun r => List.replicate (r.1.2 - r.1.1) r.2

theorem numbering_cons (k : Nat) (r : Nat × Nat) (ranges : List (Nat × Nat)) :
    numbering k (r :: ranges) = List.replicate (r.2 - r.1) k ++ numbering (k + 1) ranges := rfl

/-- The instructions are numbered by the ranges they are in. -/
theorem getElem?_numbering {s : Nat} {ranges : List (Nat × Nat)} (h : Consecutive s ranges)
    (k i b : Nat) : (numbering k ranges)[i]? = some b ↔
      ∃ j r, b = k + j ∧ ranges[j]? = some r ∧ r.1 ≤ s + i ∧ s + i < r.2 := by
  induction ranges generalizing s k i with
  | nil => simp [numbering]
  | cons r ranges ih =>
    obtain ⟨rfl, hlt, hrest⟩ := h
    rw [numbering_cons]
    by_cases hi : i < r.2 - r.1
    · rw [List.getElem?_append_left (by simpa using hi), List.getElem?_replicate_of_lt hi]
      constructor
      · intro hb
        exact ⟨0, r, (Option.some.inj hb).symm, rfl, by omega, by omega⟩
      · rintro ⟨j, r', rfl, hj, hle, -⟩
        cases j with
        | zero => rfl
        | succ j =>
          have := hrest.le r' (List.mem_of_getElem? hj)
          omega
    · rw [List.getElem?_append_right (by simpa using hi), List.length_replicate, ih hrest]
      have hat : r.2 + (i - (r.2 - r.1)) = r.1 + i := by omega
      rw [hat]
      constructor
      · rintro ⟨j, r', rfl, hj, hin⟩
        exact ⟨j + 1, r', by omega, hj, hin⟩
      · rintro ⟨j, r', rfl, hj, hin⟩
        cases j with
        | zero =>
          cases hj
          omega
        | succ j => exact ⟨j, r', by omega, hj, hin⟩

theorem length_numbering {n s : Nat} {rest : List Nat} (hasc : (s :: rest).Pairwise (· < ·))
    (hn : ∀ t ∈ s :: rest, t < n) (k : Nat) :
    (numbering k (spans n (s :: rest))).length = n - s := by
  induction rest generalizing s k with
  | nil => simp [spans, numbering]
  | cons t rest ih =>
    obtain ⟨hs, hrest⟩ := List.pairwise_cons.1 hasc
    obtain ⟨-, hn⟩ := List.forall_mem_cons.1 hn
    have hst := hs t (List.mem_cons_self ..)
    have htn := hn t (List.mem_cons_self ..)
    rw [spans, numbering_cons, List.length_append, List.length_replicate, ih hrest hn]
    omega

/-! ## Starts of blocks -/

section

variable {o : Offsets} {n index j : Nat} {i : Instruction} {b : UInt32} {c : Clause}
  {leaders : List Nat}

/-- An instruction makes blocks start where it goes to, and behind it if control does not simply go
on to what follows. -/
theorem mem_branchLeaders (h : branchLeaders o n i index = .ok leaders) : j ∈ leaders ↔
    (∃ t, i.target? = some t ∧ o.indexOf? t = some j) ∨
      (j = index + 1 ∧ j < n ∧ (i.target?.isSome ∨ i.opcode.fallsThrough = false)) := by
  unfold branchLeaders at h
  cases htarget : i.target? with
  | none =>
    rw [htarget] at h
    cases h
    simp
    grind
  | some t =>
    rw [htarget] at h
    cases hindex : o.indexOf? t with
    | none =>
      simp only [hindex] at h
      cases h
    | some k =>
      simp only [hindex] at h
      cases h
      grind

theorem exists_branchLeaders : (∃ leaders, branchLeaders o n i index = .ok leaders) ↔
    ∀ t ∈ i.target?, ∃ j, o.indexOf? t = some j := by
  unfold branchLeaders
  cases i.target? with
  | none => exact ⟨fun _ t ht => (nomatch ht), fun _ => ⟨_, rfl⟩⟩
  | some t =>
    simp only [Option.mem_some_iff, forall_eq']
    cases o.indexOf? t with
    | none => exact ⟨fun ⟨_, h⟩ => (nomatch h), fun ⟨_, h⟩ => (nomatch h)⟩
    | some k => exact ⟨fun _ => ⟨k, rfl⟩, fun _ => ⟨_, rfl⟩⟩

theorem mem_boundaryLeader (h : boundaryLeader o b = .ok leaders) :
    j ∈ leaders ↔ b ≠ o.codeEnd ∧ o.indexOf? b = some j := by
  unfold boundaryLeader at h
  split at h
  · cases h
    simp [*]
  · split at h
    · cases h
      grind
    · cases h

theorem exists_boundaryLeader :
    (∃ leaders, boundaryLeader o b = .ok leaders) ↔ b = o.codeEnd ∨ ∃ j, o.indexOf? b = some j := by
  unfold boundaryLeader
  split
  · rename_i hend
    exact ⟨fun _ => .inl hend, fun _ => ⟨_, rfl⟩⟩
  · rename_i hend
    split
    · rename_i k hk
      exact ⟨fun _ => .inr ⟨k, hk⟩, fun _ => ⟨_, rfl⟩⟩
    · rename_i hnone
      exact ⟨fun ⟨_, h⟩ => (nomatch h), fun h => by simp [hend, hnone] at h⟩

/-- A clause makes blocks start at its boundaries. -/
theorem mem_clauseLeaders (h : clauseLeaders o c = .ok leaders) :
    j ∈ leaders ↔ ∃ b ∈ c.boundaries, b ≠ o.codeEnd ∧ o.indexOf? b = some j := by
  unfold clauseLeaders at h
  obtain ⟨marks, hmarks, h⟩ := bind_eq_ok h
  split at h
  · cases h
  · cases h
    rw [mem_flatten_of_mapM hmarks]
    constructor
    · rintro ⟨b, hb, leaders, hleaders, hj⟩
      exact ⟨b, hb, (mem_boundaryLeader hleaders).1 hj⟩
    · rintro ⟨b, hb, hj⟩
      obtain ⟨leaders, hleaders⟩ := exists_of_mapM_eq_ok hmarks b hb
      exact ⟨b, hb, leaders, hleaders, (mem_boundaryLeader hleaders).2 hj⟩

theorem exists_clauseLeaders : (∃ leaders, clauseLeaders o c = .ok leaders) ↔
    (c.tryOffset < c.tryEnd ∧ c.handlerOffset < c.handlerEnd) ∧
      ∀ b ∈ c.boundaries, b = o.codeEnd ∨ ∃ j, o.indexOf? b = some j := by
  constructor
  · rintro ⟨leaders, h⟩
    refine ⟨clause_of_leaders h, fun b hb => ?_⟩
    obtain ⟨marks, hmarks, -⟩ := bind_eq_ok h
    exact exists_boundaryLeader.1 (exists_of_mapM_eq_ok hmarks b hb)
  · rintro ⟨⟨htry, hhandler⟩, h⟩
    obtain ⟨marks, hmarks⟩ := exists_mapM fun b hb => exists_boundaryLeader.2 (h b hb)
    have hranges : ¬(c.tryEnd ≤ c.tryOffset ∨ c.handlerEnd ≤ c.handlerOffset) := by
      rw [not_or, UInt32.not_le, UInt32.not_le]
      exact ⟨htry, hhandler⟩
    refine ⟨marks.flatten, ?_⟩
    unfold clauseLeaders
    rw [show [c.tryOffset, c.tryEnd, c.handlerOffset, c.handlerEnd].mapM (boundaryLeader o) = _
      from hmarks]
    simp only [bind, Except.bind, hranges, if_false]
    rfl

end

/-- The indices at which blocks start. -/
def startsOf (n : Nat) (leaders : List Nat) : List Nat :=
  (List.range n).filter fun i => i == 0 || leaders.contains i

/-- A body is cut into blocks at the first instruction and at others behind it. -/
structure Cuts (n : Nat) (starts : List Nat) : Prop where
  entry : starts[0]? = some 0
  ascending : starts.Pairwise (· < ·)
  lt : ∀ s ∈ starts, s < n

theorem mem_startsOf {n j : Nat} {leaders : List Nat} :
    j ∈ startsOf n leaders ↔ j < n ∧ (j = 0 ∨ j ∈ leaders) := by
  simp [startsOf]

theorem cuts_startsOf {n : Nat} (hn : 0 < n) (leaders : List Nat) :
    Cuts n (startsOf n leaders) := by
  refine ⟨?_, List.pairwise_lt_range.filter _, fun s hs => (mem_startsOf.1 hs).1⟩
  obtain ⟨m, rfl⟩ : ∃ m, n = m + 1 := ⟨n - 1, by omega⟩
  simp [startsOf, List.range_succ_eq_map]

namespace Cuts

variable {n : Nat} {starts : List Nat}

theorem lt_iff (h : Cuts n starts) {j k s t : Nat} (hs : starts[j]? = some s)
    (ht : starts[k]? = some t) : s < t ↔ j < k := by
  obtain ⟨hj, rfl⟩ := List.getElem?_eq_some_iff.1 hs
  obtain ⟨hk, rfl⟩ := List.getElem?_eq_some_iff.1 ht
  have hlt {j k : Nat} (hj : j < starts.length) (hk : k < starts.length) (hjk : j < k) :
      starts[j] < starts[k] := List.pairwise_iff_getElem.1 h.ascending j k hj hk hjk
  refine ⟨fun hst => Nat.lt_of_not_le fun hle => ?_, hlt hj hk⟩
  rcases Nat.lt_or_eq_of_le hle with hkj | rfl
  · exact Nat.lt_asymm hst (hlt hk hj hkj)
  · exact Nat.lt_irrefl _ hst

/-- No block starts between the start and the end of another. -/
theorem not_mem_between (h : Cuts n starts) {j s x : Nat} (hs : starts[j]? = some s) (hsx : s < x)
    (hx : x < (starts[j + 1]?).getD n) : x ∉ starts := by
  intro hmem
  obtain ⟨k, hk⟩ := List.mem_iff_getElem?.1 hmem
  have hjk := (h.lt_iff hs hk).1 hsx
  have hlt : j + 1 < starts.length := by
    have := (List.getElem?_eq_some_iff.1 hk).1
    omega
  have hnext := List.getElem?_eq_getElem hlt
  rw [hnext, Option.getD_some] at hx
  have := (h.lt_iff hk hnext).1 hx
  omega

theorem getD_lt_iff (h : Cuts n starts) (j : Nat) :
    (starts[j]?).getD n < n ↔ j < starts.length := by
  by_cases hj : j < starts.length
  · have := h.lt _ (List.getElem_mem hj)
    simp [hj, this]
  · simp [hj]

theorem consecutive (h : Cuts n starts) : Consecutive 0 (spans n starts) := by
  rcases starts with _ | ⟨s, rest⟩
  · trivial
  · obtain rfl : s = 0 := Option.some.inj h.entry
    exact consecutive_spans h.ascending h.lt

theorem length_numbering (h : Cuts n starts) : (numbering 0 (spans n starts)).length = n := by
  rcases starts with _ | ⟨s, rest⟩
  · cases h.entry
  · obtain rfl : s = 0 := Option.some.inj h.entry
    exact Graph.length_numbering h.ascending h.lt 0

end Cuts

/-! ## The graph of a body -/

/-- The blocks that control or a clause leads to from each of the ranges. -/
def leadsTo (is : List Instruction) (clauses : List Clause) (ranges : List (Nat × Nat)) :
    List (List Nat) :=
  ranges.zipIdx.map fun r => (List.range ranges.length).filter
    (targets (.ofCode is.toArray) (numbering 0 ranges).toArray is.toArray clauses r.2 r.1).contains

/-- The graph of a body that is cut into these ranges. -/
def ofRanges (is : List Instruction) (clauses : List Clause) (ranges : List (Nat × Nat)) :
    Graph where
  offsets := .ofCode is.toArray
  blocks := (ranges.zipIdx.map fun r =>
    { first := r.1.1
      stop := r.1.2
      succs := (leadsTo is clauses ranges).toArray.getD r.2 []
      preds := (List.range ranges.length).filter fun p =>
        ((leadsTo is clauses ranges).toArray.getD p []).contains r.2 }).toArray
  blockOf := (numbering 0 ranges).toArray

theorem build_eq_ok_iff {is : List Instruction} {clauses : List Clause} {g : Graph}
    (hne : is ≠ []) : build is clauses = .ok g ↔ ∃ marks clauseMarks,
      (is.zipIdx.mapM fun i => branchLeaders (.ofCode is.toArray) is.length i.1 i.2) = .ok marks ∧
      clauses.mapM (clauseLeaders (.ofCode is.toArray)) = .ok clauseMarks ∧
      g = ofRanges is clauses
        (spans is.length (startsOf is.length (marks.flatten ++ clauseMarks.flatten))) := by
  have hlen : is.length ≠ 0 := fun h => hne (List.eq_nil_of_length_eq_zero h)
  unfold build
  simp only [List.size_toArray, hlen, if_false]
  constructor
  · intro h
    obtain ⟨marks, hmarks, h⟩ := bind_eq_ok h
    obtain ⟨clauseMarks, hclauseMarks, h⟩ := bind_eq_ok h
    exact ⟨marks, clauseMarks, hmarks, hclauseMarks, (Except.ok.inj h).symm⟩
  · rintro ⟨marks, clauseMarks, hmarks, hclauseMarks, rfl⟩
    change ((is.zipIdx.mapM fun i => branchLeaders (.ofCode is.toArray) is.length i.1 i.2) >>= _) =
      Except.ok _
    rw [hmarks, hclauseMarks]
    rfl

section

variable {is : List Instruction} {clauses : List Clause} {ranges : List (Nat × Nat)} {b s : Nat}

theorem getElem?_blocks_ofRanges : (ofRanges is clauses ranges).blocks[b]? = ranges[b]?.map fun r =>
    { first := r.1
      stop := r.2
      succs := (leadsTo is clauses ranges).toArray.getD b []
      preds := (List.range ranges.length).filter fun p =>
        ((leadsTo is clauses ranges).toArray.getD p []).contains b } := by
  simp only [ofRanges, List.getElem?_toArray, List.getElem?_map, List.getElem?_zipIdx, Nat.zero_add,
    Option.map_map]
  rfl

theorem getElem?_blockOf_ofRanges {starts : List Nat} (hcuts : Cuts is.length starts) {i : Nat} :
    (ofRanges is clauses (spans is.length starts)).blockOf[i]? = some b ↔
      ∃ r, (spans is.length starts)[b]? = some r ∧ r.1 ≤ i ∧ i < r.2 := by
  rw [ofRanges, List.getElem?_toArray, getElem?_numbering hcuts.consecutive]
  simp only [Nat.zero_add, exists_and_left, exists_eq_left']

theorem pairwise_leadsTo (b : Nat) :
    ((leadsTo is clauses ranges).toArray.getD b []).Pairwise (· < ·) := by
  rw [Array.getD_eq_getD_getElem?, List.getElem?_toArray, leadsTo, List.getElem?_map]
  cases ranges.zipIdx[b]? with
  | none => exact List.Pairwise.nil
  | some r => exact List.pairwise_lt_range.filter _

theorem size_ofRanges : (ofRanges is clauses ranges).size = ranges.length := by
  simp [size, ofRanges]

/-- The graph knows the block of an instruction by its offset. -/
theorem holdsAt_ofRanges (h : is.Pairwise (·.offset < ·.offset)) {offset : UInt32} :
    (ofRanges is clauses ranges).HoldsAt is b offset ↔
      ((Offsets.ofCode is.toArray).indexOf? offset).bind
        ((numbering 0 ranges).toArray[·]?) = some b := by
  simp only [HoldsAt, Option.bind_eq_some_iff, Offsets.indexOf?_ofCode h, ofRanges]

theorem mem_targets {o : Offsets} {blockOf : Array Nat} {code : Array Instruction} {index : Nat}
    {span : Nat × Nat} : s ∈ targets o blockOf code clauses index span ↔
      (∃ last, code[span.2 - 1]? = some last ∧
        ((∃ t, last.target? = some t ∧ (o.indexOf? t).bind (blockOf[·]?) = some s) ∨
          (last.opcode.fallsThrough = true ∧ span.2 < code.size ∧ s = index + 1))) ∨
      ∃ c ∈ clauses, (o.indexOf? c.tryOffset).bind (blockOf[·]?) = some index ∧
        (o.indexOf? c.handlerOffset).bind (blockOf[·]?) = some s := by
  simp only [targets, List.mem_append, List.mem_filterMap, Option.ite_none_right_eq_some]
  refine or_congr ?_ Iff.rfl
  cases code[span.2 - 1]? with
  | none => simp
  | some last =>
    simp only [List.mem_append, Option.mem_toList, Option.bind_eq_some_iff, Option.some.injEq,
      exists_eq_left']
    refine or_congr Iff.rfl ?_
    by_cases hfalls : last.opcode.fallsThrough = true ∧ span.2 < code.size
    · simp [hfalls]
    · rw [if_neg (by simpa using hfalls)]
      tauto

/-- A block leads to the blocks that its last instruction and the clauses name by their offsets. -/
theorem mem_targets_ofRanges (h : is.Pairwise (·.offset < ·.offset)) {r : Nat × Nat} :
    s ∈ targets (.ofCode is.toArray) (numbering 0 ranges).toArray is.toArray clauses b r ↔
      (∃ last, is[r.2 - 1]? = some last ∧
        ((∃ t, last.target? = some t ∧ (ofRanges is clauses ranges).HoldsAt is s t) ∨
          (last.opcode.fallsThrough = true ∧ r.2 < is.length ∧ s = b + 1))) ∨
      ∃ c ∈ clauses, (ofRanges is clauses ranges).HoldsAt is b c.tryOffset ∧
        (ofRanges is clauses ranges).HoldsAt is s c.handlerOffset := by
  rw [mem_targets]
  simp only [holdsAt_ofRanges h, List.getElem?_toArray, List.size_toArray]

theorem mem_succs_ofRanges : s ∈ (ofRanges is clauses ranges).succs b ↔
    ∃ r, ranges[b]? = some r ∧ s < ranges.length ∧
      s ∈ targets (.ofCode is.toArray) (numbering 0 ranges).toArray is.toArray clauses b r := by
  rw [succs, getElem?_blocks_ofRanges, Option.map_map]
  cases hr : ranges[b]? with
  | none => simp
  | some r => simp [leadsTo, List.getElem?_zipIdx, hr]

/-- The edges of the graph of a body that is cut into ranges. -/
theorem edge_ofRanges (h : is.Pairwise (·.offset < ·.offset)) {starts : List Nat}
    (hcuts : Cuts is.length starts) :
    s ∈ (ofRanges is clauses (spans is.length starts)).succs b ↔
      (ofRanges is clauses (spans is.length starts)).Edge is clauses b s := by
  set ranges := spans is.length starts with hranges
  -- a number that is given to an instruction is the number of a block
  have hlt {b : Nat} {offset : UInt32} (hb : (ofRanges is clauses ranges).HoldsAt is b offset) :
      ∃ r, ranges[b]? = some r := by
    obtain ⟨i, -, hi⟩ := hb
    obtain ⟨r, hr, -⟩ := (getElem?_blockOf_ofRanges hcuts).1 hi
    exact ⟨r, hr⟩
  have hends {last : Instruction} : (ofRanges is clauses ranges).EndsWith is b last ↔
      ∃ r, ranges[b]? = some r ∧ is[r.2 - 1]? = some last := by
    simp only [EndsWith, getElem?_blocks_ofRanges, Option.map_eq_some_iff]
    constructor
    · rintro ⟨block, ⟨r, hr, rfl⟩, hlast⟩
      exact ⟨r, hr, hlast⟩
    · rintro ⟨r, hr, hlast⟩
      exact ⟨_, ⟨r, hr, rfl⟩, hlast⟩
  have hnext {r : Nat × Nat} (hr : ranges[b]? = some r) :
      r.2 < is.length ↔ b + 1 < (ofRanges is clauses ranges).size := by
    rw [hranges, getElem?_spans] at hr
    obtain ⟨t, -, rfl⟩ := Option.map_eq_some_iff.1 hr
    rw [size_ofRanges, hranges, length_spans]
    exact hcuts.getD_lt_iff (b + 1)
  simp only [mem_succs_ofRanges, mem_targets_ofRanges h]
  constructor
  · rintro ⟨r, hr, -, hs⟩
    rcases hs with ⟨last, hlast, ⟨t, ht, hs⟩ | ⟨hfalls, hlt, rfl⟩⟩ | ⟨c, hc, hb, hs⟩
    · exact .jump (hends.2 ⟨r, hr, hlast⟩) ht hs
    · exact .next (hends.2 ⟨r, hr, hlast⟩) hfalls ((hnext hr).1 hlt)
    · exact .handler hc hb hs
  · have hcount {s : Nat} {r : Nat × Nat} (hr : ranges[s]? = some r) : s < ranges.length :=
      (List.getElem?_eq_some_iff.1 hr).1
    intro hedge
    cases hedge with
    | jump hlast ht hs =>
      obtain ⟨r, hr, hlast⟩ := hends.1 hlast
      obtain ⟨r', hr'⟩ := hlt hs
      exact ⟨r, hr, hcount hr', .inl ⟨_, hlast, .inl ⟨_, ht, hs⟩⟩⟩
    | next hlast hfalls hb =>
      obtain ⟨r, hr, hlast⟩ := hends.1 hlast
      refine ⟨r, hr, by rwa [size_ofRanges] at hb, .inl ⟨_, hlast, .inr ⟨hfalls, ?_, rfl⟩⟩⟩
      exact (hnext hr).2 hb
    | handler hc hb hs =>
      obtain ⟨r, hr⟩ := hlt hb
      obtain ⟨r', hr'⟩ := hlt hs
      exact ⟨r, hr, hcount hr', .inr ⟨_, hc, hb, hs⟩⟩

end

/-! ## Building is exact -/

section

variable {is : List Instruction} {clauses : List Clause} {g : Graph}

/-- The places at which a body has to be cut are among the starts of blocks. -/
structure Marked (is : List Instruction) (clauses : List Clause) (starts : List Nat) : Prop where
  target : ∀ i ∈ is, ∀ t ∈ i.target?, ∃ j ∈ starts, StandsAt is j t
  behind : ∀ index i, is[index]? = some i → i.target?.isSome ∨ i.opcode.fallsThrough = false →
    index + 1 < is.length → index + 1 ∈ starts
  boundary : ∀ c ∈ clauses, ∀ b ∈ c.boundaries, b ≠ codeEnd is → ∃ j ∈ starts, StandsAt is j b

/-- A body that has a graph is cut where it has to be. -/
theorem exists_starts_of_build (hne : is ≠ []) (hasc : is.Pairwise (·.offset < ·.offset))
    (h : build is clauses = .ok g) : ∃ starts, Cuts is.length starts ∧ Marked is clauses starts ∧
      g = ofRanges is clauses (spans is.length starts) := by
  obtain ⟨marks, clauseMarks, hmarks, hclauseMarks, rfl⟩ := (build_eq_ok_iff hne).1 h
  have hlt {j : Nat} {offset : UInt32} (hj : StandsAt is j offset) : j < is.length := by
    obtain ⟨i, hi, -⟩ := Option.map_eq_some_iff.1 hj
    exact (List.getElem?_eq_some_iff.1 hi).1
  have hleader {index : Nat} {i : Instruction} (hi : is[index]? = some i) : ∃ l,
      branchLeaders (.ofCode is.toArray) is.length i index = .ok l ∧ l ⊆ marks.flatten := by
    have hmem := List.mk_mem_zipIdx_iff_getElem?.2 hi
    obtain ⟨l, hl⟩ := exists_of_mapM_eq_ok hmarks (i, index) hmem
    exact ⟨l, hl, fun j hj => (mem_flatten_of_mapM hmarks).2 ⟨(i, index), hmem, l, hl, hj⟩⟩
  refine ⟨_, cuts_startsOf (List.length_pos_of_ne_nil hne) _, ⟨?_, ?_, ?_⟩, rfl⟩
  · intro i hi t ht
    obtain ⟨index, hindex⟩ := List.mem_iff_getElem?.1 hi
    obtain ⟨l, hl, hsub⟩ := hleader hindex
    obtain ⟨j, hj⟩ := exists_branchLeaders.1 ⟨l, hl⟩ t ht
    have hmem := hsub ((mem_branchLeaders hl).2 (.inl ⟨t, ht, hj⟩))
    rw [Offsets.indexOf?_ofCode hasc] at hj
    exact ⟨j, mem_startsOf.2 ⟨hlt hj, .inr (List.mem_append_left _ hmem)⟩, hj⟩
  · intro index i hi hends hnext
    obtain ⟨l, hl, hsub⟩ := hleader hi
    have hmem := hsub ((mem_branchLeaders hl).2 (.inr ⟨rfl, hnext, hends⟩))
    exact mem_startsOf.2 ⟨hnext, .inr (List.mem_append_left _ hmem)⟩
  · intro c hc b hb hend
    rw [← Offsets.codeEnd_ofCode] at hend
    obtain ⟨l, hl⟩ := exists_of_mapM_eq_ok hclauseMarks c hc
    obtain ⟨j, hj⟩ := ((exists_clauseLeaders.1 ⟨l, hl⟩).2 b hb).resolve_left hend
    have hmem := (mem_flatten_of_mapM hclauseMarks).2
      ⟨c, hc, l, hl, (mem_clauseLeaders hl).2 ⟨b, hb, hend, hj⟩⟩
    rw [Offsets.indexOf?_ofCode hasc] at hj
    exact ⟨j, mem_startsOf.2 ⟨hlt hj, .inr (List.mem_append_right _ hmem)⟩, hj⟩

theorem map_first_ofRanges {n : Nat} (starts : List Nat) (b : Nat) :
    (ofRanges is clauses (spans n starts)).blocks[b]?.map Block.first = starts[b]? := by
  rw [getElem?_blocks_ofRanges, getElem?_spans, Option.map_map, Option.map_map]
  exact congrFun Option.map_id _

theorem exists_start_of_block {n : Nat} {starts : List Nat} {b : Nat} {block : Block}
    (h : (ofRanges is clauses (spans n starts)).blocks[b]? = some block) :
    starts[b]? = some block.first ∧ block.stop = (starts[b + 1]?).getD n := by
  rw [getElem?_blocks_ofRanges, getElem?_spans] at h
  obtain ⟨r, hr, rfl⟩ := Option.map_eq_some_iff.1 h
  obtain ⟨s, hs, rfl⟩ := Option.map_eq_some_iff.1 hr
  exact ⟨hs, rfl⟩

/-- The graph of a body shows the body as it is. -/
theorem charts_of_build (hne : is ≠ []) (hasc : is.Pairwise (·.offset < ·.offset))
    (h : build is clauses = .ok g) : g.Charts is clauses := by
  have hlinked := linked_of_build hne h
  have hdescribes := describes_of_build h
  obtain ⟨starts, hcuts, hmarked, rfl⟩ := exists_starts_of_build hne hasc h
  have hblock {j : Nat} (hj : j ∈ starts) {offset : UInt32} (hoffset : StandsAt is j offset) :
      ∃ block ∈ (ofRanges is clauses (spans is.length starts)).blocks,
        StandsAt is block.first offset := by
    obtain ⟨b, hb⟩ := List.mem_iff_getElem?.1 hj
    have hfirst : (ofRanges is clauses (spans is.length starts)).blocks[b]?.map Block.first =
        some j := (map_first_ofRanges starts b).trans hb
    obtain ⟨block, hblock, rfl⟩ := Option.map_eq_some_iff.1 hfirst
    exact ⟨block, Array.mem_of_getElem? hblock, hoffset⟩
  constructor
  case entry => rw [map_first_ofRanges, hcuts.entry]
  case stop =>
    intro b block hb
    rw [map_first_ofRanges, (exists_start_of_block hb).2]
  case nonempty => exact fun block hmem => (hdescribes.block block hmem).1
  case blockOf =>
    refine ⟨by simp [ofRanges, hcuts.length_numbering], fun i b => ?_⟩
    rw [getElem?_blockOf_ofRanges hcuts, getElem?_blocks_ofRanges]
    cases (spans is.length starts)[b]? <;> simp
  case inside =>
    intro block hmem k i hfirst hstop hi
    obtain ⟨b, hb⟩ := Array.getElem?_of_mem hmem
    obtain ⟨hs, hend⟩ := exists_start_of_block hb
    have hnot := hcuts.not_mem_between hs (Nat.lt_succ_of_le hfirst) (hend ▸ hstop)
    have hlt : k + 1 < is.length := Nat.lt_of_lt_of_le hstop (hdescribes.block block hmem).2
    have hgoes := mt (fun hends => hmarked.behind k i hi hends hlt) hnot
    simpa using hgoes
  case target =>
    intro i hi t ht
    obtain ⟨j, hj, hoffset⟩ := hmarked.target i hi t ht
    exact hblock hj hoffset
  case boundary =>
    intro c hc b hb hend
    obtain ⟨j, hj, hoffset⟩ := hmarked.boundary c hc b hb hend
    exact hblock hj hoffset
  case succs => exact fun b s => edge_ofRanges hasc hcuts
  case preds => exact fun b s => (hlinked.inverse b s).symm
  case ascending =>
    intro block hmem
    obtain ⟨b, hb⟩ := Array.getElem?_of_mem hmem
    rw [getElem?_blocks_ofRanges] at hb
    obtain ⟨r, -, rfl⟩ := Option.map_eq_some_iff.1 hb
    exact ⟨pairwise_leadsTo b, List.pairwise_lt_range.filter _⟩

/-- A body has a graph exactly if its branches and clauses are bounded by its instructions. -/
theorem exists_build_iff (hne : is ≠ []) (hasc : is.Pairwise (·.offset < ·.offset)) :
    (∃ g, build is clauses = .ok g) ↔ Bounded is clauses := by
  have hbuild : (∃ g, build is clauses = .ok g) ↔
      (∀ i ∈ is.zipIdx, ∃ l, branchLeaders (.ofCode is.toArray) is.length i.1 i.2 = .ok l) ∧
        ∀ c ∈ clauses, ∃ l, clauseLeaders (.ofCode is.toArray) c = .ok l := by
    rw [← exists_mapM_iff, ← exists_mapM_iff]
    simp only [build_eq_ok_iff hne]
    constructor
    · rintro ⟨g, marks, clauseMarks, hmarks, hclauseMarks, -⟩
      exact ⟨⟨marks, hmarks⟩, clauseMarks, hclauseMarks⟩
    · rintro ⟨⟨marks, hmarks⟩, clauseMarks, hclauseMarks⟩
      exact ⟨_, marks, clauseMarks, hmarks, hclauseMarks, rfl⟩
  rw [hbuild, bounded_iff]
  simp only [exists_branchLeaders, exists_clauseLeaders, Offsets.indexOf?_ofCode hasc,
    Offsets.codeEnd_ofCode, exists_standsAt_iff]
  refine and_congr_left' ⟨fun h i hi => ?_, fun h i hi => h i.1 (List.fst_mem_of_mem_zipIdx hi)⟩
  obtain ⟨index, hindex⟩ := List.mem_iff_getElem?.1 hi
  exact h (i, index) (List.mk_mem_zipIdx_iff_getElem?.2 hindex)

/-- Nothing is asked of the clauses of a body without instructions. -/
theorem exists_build_iff_nil_or (hasc : is.Pairwise (·.offset < ·.offset)) :
    (∃ g, build is clauses = .ok g) ↔ is = [] ∨ Bounded is clauses := by
  by_cases hne : is = []
  · subst hne
    exact iff_of_true ⟨_, rfl⟩ (.inl rfl)
  · rw [exists_build_iff hne hasc]
    exact ⟨.inr, fun h => h.resolve_left hne⟩

/-- A body whose branches go to instructions and whose clauses have boundaries has no graph only if a range
of a clause is empty. -/
theorem eq_emptyRange_of_build (hasc : is.Pairwise (·.offset < ·.offset))
    (hbranch : ∀ i ∈ is, ∀ t ∈ i.target?, t ∈ is.map Instruction.offset)
    (hboundary : ∀ c ∈ clauses, ∀ b ∈ c.boundaries, b = codeEnd is ∨ b ∈ is.map Instruction.offset)
    {e : GraphError} (h : build is clauses = .error e) : e = .badClause .emptyRange := by
  unfold build at h
  dsimp only at h
  split at h
  · cases h
  rcases bind_eq_error h with h | ⟨marks, -, h⟩
  · obtain ⟨⟨i, index⟩, hi, herror⟩ := exists_of_mapM_eq_error h
    obtain ⟨leaders, hleaders⟩ : ∃ leaders,
        branchLeaders (.ofCode is.toArray) is.toArray.size i index = .ok leaders := by
      refine exists_branchLeaders.2 fun t ht => ?_
      simp only [Offsets.indexOf?_ofCode hasc]
      exact exists_standsAt_iff.2 (hbranch i (List.fst_mem_of_mem_zipIdx hi) t ht)
    rw [hleaders] at herror
    cases herror
  rcases bind_eq_error h with h | ⟨clauseMarks, -, h⟩
  · obtain ⟨c, hc, herror⟩ := exists_of_mapM_eq_error h
    unfold clauseLeaders at herror
    rcases bind_eq_error herror with herror | ⟨leaders, -, herror⟩
    · obtain ⟨b, hb, herror⟩ := exists_of_mapM_eq_error herror
      obtain ⟨leaders, hleaders⟩ : ∃ leaders, boundaryLeader (.ofCode is.toArray) b = .ok leaders := by
        rw [exists_boundaryLeader]
        simp only [Offsets.indexOf?_ofCode hasc, Offsets.codeEnd_ofCode, exists_standsAt_iff]
        exact hboundary c hc b hb
      rw [hleaders] at herror
      cases herror
    · split at herror <;> cases herror
      rfl
  · cases h

/-- **Building the graph of a body is exact.** -/
theorem build_exact (hne : is ≠ []) (hasc : is.Pairwise (·.offset < ·.offset)) :
    ((∃ g, build is clauses = .ok g) ↔ Bounded is clauses) ∧
      ∀ g, build is clauses = .ok g → g.Charts is clauses :=
  ⟨exists_build_iff hne hasc, fun _ h => charts_of_build hne hasc h⟩

end

/-- A test that skips a protected region, in front of a jump back to it. The region is left over its
handler. -/
def skipping : List Instruction :=
  [⟨0, .ldarg0, .none⟩, ⟨1, .brfalseS, .target 9⟩, ⟨3, .nop, .none⟩, ⟨4, .leaveS, .target 9⟩,
    ⟨6, .endfinally, .none⟩, ⟨7, .brS, .target 0⟩, ⟨9, .ret, .none⟩]

/-- The clause of the region in `skipping`. -/
def skippingClause : Clause := ⟨.finally_, 3, 3, 6, 1⟩

theorem build_skipping : skipping ≠ [] ∧ skipping.Pairwise (·.offset < ·.offset) ∧
    ∃ g, build skipping [skippingClause] = .ok g ∧ g.Charts skipping [skippingClause] := by
  have hne : skipping ≠ [] := by simp [skipping]
  have hasc : skipping.Pairwise (·.offset < ·.offset) := by decide
  obtain ⟨hsucceeds, hcharts⟩ := @build_exact skipping [skippingClause] hne hasc
  have hbounded : Bounded skipping [skippingClause] := by
    simp [bounded_iff, skipping, skippingClause, Instruction.target?, Clause.boundaries,
      Clause.tryEnd, Clause.handlerEnd]
  obtain ⟨g, hg⟩ := hsucceeds.2 hbounded
  exact ⟨hne, hasc, g, hg, hcharts g hg⟩

end Graph

end Flow

end CilScope
