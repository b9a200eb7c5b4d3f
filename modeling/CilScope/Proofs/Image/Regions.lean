import CilScope.Proofs.Draft.Regions
import CilScope.Proofs.Image.Control

/-!
# Regions and branches of a body

`Image.regular_of_generate`: in every body of a program that is accepted, branches go to instructions,
the ranges of the clauses nest in the order of the table, only a leave goes out of a range, and a return
stands in none. A branch into a range goes to the start of a protected range, or to the start of a
handler whose protected range is empty. The latter happens: a region that nothing leads to can be left
without code, and a loop around it goes back to where its handler starts.
-/

namespace CilScope

/-- The offset is in one of the ranges of the clause. -/
def Clause.Spans (c : Clause) (offset : UInt32) : Prop := c.Guards offset ∨ c.Handles offset

/-- The clause `b` has all of `a` in its protected range or in its handler, or nothing of it. -/
def Clause.Encloses (b a : Clause) : Prop :=
  (∀ offset, a.Spans offset → b.Guards offset) ∨ (∀ offset, a.Spans offset → b.Handles offset) ∨
    ∀ offset, a.Spans offset → ¬b.Spans offset

namespace Instruction

/-- The branches and returns of a body respect its clauses, which nest. -/
structure Regular (is : List Instruction) (clauses : List Clause) : Prop where
  target : ∀ i ∈ is, ∀ t, i.target? = some t → ∃ j ∈ is, j.offset = t
  adjacent : ∀ c ∈ clauses, c.handlerOffset = c.tryEnd
  nested : clauses.Pairwise fun a b => b.Encloses a
  stays : ∀ i ∈ is, i.opcode ∉ [.leave, .leaveS] → ∀ t, i.target? = some t → ∀ c ∈ clauses,
    (c.Guards i.offset → c.Guards t) ∧ (c.Handles i.offset → c.Handles t)
  enters : ∀ i ∈ is, i.opcode ∉ [.leave, .leaveS] → ∀ t, i.target? = some t → ∀ c ∈ clauses,
    (c.Guards t → ¬c.Guards i.offset → t = c.tryOffset) ∧
      (c.Handles t → ¬c.Handles i.offset → t = c.handlerOffset ∧ c.tryEnd = c.tryOffset)
  ret : ∀ i ∈ is, i.opcode = .ret → ∀ c ∈ clauses, ¬c.Spans i.offset

end Instruction

namespace Draft

variable {d : Draft} {body : FinishedBody}

/-- The ranges of a clause by the places of its instructions. -/
theorem spans_iff (hfinish : d.finish = .ok body) (hlen : body.code.length < 2 ^ 32) {c : DraftClause}
    {clause : Clause} (hc : c.Within 0 d.code.size)
    (hcovers : Covers d.instructions body.code.length c clause) (offset : UInt32) :
    (clause.Guards offset ↔
      place d.settled c.tryStart ≤ offset.toNat ∧ offset.toNat < place d.settled c.handlerStart) ∧
    (clause.Handles offset ↔
      place d.settled c.handlerStart ≤ offset.toNat ∧
        offset.toNat < place d.settled c.handlerStop) := by
  have hstart := Nat.le_trans hc.order' hc.stop
  have htry := Nat.le_trans hc.order hstart
  simp only [Clause.Guards, Clause.Handles, hcovers.tryOffset, hcovers.tryEnd, hcovers.handlerOffset,
    hcovers.handlerEnd, startOf_instructions hfinish htry, startOf_instructions hfinish hstart,
    startOf_instructions hfinish hc.stop, UInt32.le_iff_toNat_le, UInt32.lt_iff_toNat_lt,
    toNat_place hfinish hlen, and_self]

/-- Clauses that nest in the draft nest in the body. -/
theorem encloses_of_nested (hfinish : d.finish = .ok body) (hlen : body.code.length < 2 ^ 32)
    {a b : DraftClause} {a' b' : Clause} (ha : a.Within 0 d.code.size) (hb : b.Within 0 d.code.size)
    (hcovers : Covers d.instructions body.code.length a a')
    (hcovers' : Covers d.instructions body.code.length b b') (h : a.Nested b) : b'.Encloses a' := by
  have hmono {j k : Nat} (hjk : j ≤ k) := place_mono d.settled hjk
  have hspan {offset : UInt32} (hs : a'.Spans offset) : place d.settled a.tryStart ≤ offset.toNat ∧
      offset.toNat < place d.settled a.handlerStop := by
    obtain ⟨hguards, hhandles⟩ := spans_iff hfinish hlen ha hcovers offset
    rw [Clause.Spans, hguards, hhandles] at hs
    have := hmono ha.order
    have := hmono ha.order'
    omega
  have hiff (offset : UInt32) := spans_iff hfinish hlen hb hcovers' offset
  rcases h with hbehind | ⟨hstart, hstop⟩ | ⟨hstart, hstop⟩
  · refine .inr (.inr fun offset hs => ?_)
    rw [Clause.Spans, (hiff offset).1, (hiff offset).2]
    have := hspan hs
    have := hmono hbehind
    have := hmono hb.order
    omega
  · refine .inl fun offset hs => (hiff offset).1.2 ?_
    have := hspan hs
    have := hmono hstart
    have := hmono hstop
    omega
  · refine .inr (.inl fun offset hs => (hiff offset).2.2 ?_)
    have := hspan hs
    have := hmono hstart
    have := hmono hstop
    omega

/-- A branch of a body goes to the instruction that its label is bound to. -/
theorem exists_target (hfinish : d.finish = .ok body) (hd : Sound d) (hend : d.unreachable = true)
    {j : Instruction} (hj : j ∈ d.instructions) {offset : UInt32} (ht : j.target? = some offset) :
    ∃ k i l t j', d.code[k]? = some i ∧ d.instructions[k]? = some j ∧ LaidAs d k i j ∧
      i.operand = .label l ∧ d.target? l = some t ∧ d.instructions[t]? = some j' ∧
      j'.offset = offset := by
  obtain ⟨k, i, hi, hk, hlaid⟩ := laidAs_of_mem hfinish hj
  rw [hlaid.target] at ht
  obtain ⟨t, htarget, rfl⟩ := Option.map_eq_some_iff.1 ht
  cases hl : i.operand with
  | label l =>
    rw [hl] at htarget
    -- the end of the body cannot be reached, so no branch goes there
    have hlt : t < d.code.size := Nat.lt_of_le_of_ne (hd.bound l t htarget) fun heq => by
      rw [hd.live i (Array.mem_of_getElem? hi) l hl (heq ▸ htarget)] at hend
      cases hend
    obtain ⟨j', hj', hlaid'⟩ := exists_laidAs hfinish (Array.getElem?_eq_getElem hlt)
    exact ⟨k, i, l, t, j', hi, hk, hlaid, hl, htarget, hj', hlaid'.offset⟩
  | none | int | var | token =>
    rw [hl] at htarget
    cases htarget

section

variable {is : List Instruction} {length k t : Nat} {j j' : Instruction} {c : DraftClause}
  {clause : Clause}

theorem Covers.guards_iff (h : Covers is length c clause) (hk : is[k]? = some j) :
    clause.Guards j.offset ↔ c.InTry k :=
  (h.covered k j hk).1

theorem Covers.handles_iff (h : Covers is length c clause) (hk : is[k]? = some j) :
    clause.Handles j.offset ↔ c.InHandler k :=
  (h.covered k j hk).2

/-- A branch that stays in the ranges of a clause of the draft does so in the body. -/
theorem Covers.stays (h : Covers is length c clause) (hk : is[k]? = some j) (ht : is[t]? = some j')
    (hadmits : c.Admits k t) : (clause.Guards j.offset → clause.Guards j'.offset) ∧
      (clause.Handles j.offset → clause.Handles j'.offset) := by
  rw [h.guards_iff hk, h.guards_iff ht, h.handles_iff hk, h.handles_iff ht]
  exact ⟨hadmits.keepsTry, hadmits.keepsHandler⟩

/-- A branch enters the ranges of a clause where it does in the draft. -/
theorem Covers.enters (h : Covers is length c clause) (hk : is[k]? = some j) (ht : is[t]? = some j')
    (hadmits : c.Admits k t) :
    (clause.Guards j'.offset → ¬clause.Guards j.offset → j'.offset = clause.tryOffset) ∧
      (clause.Handles j'.offset → ¬clause.Handles j.offset →
        j'.offset = clause.handlerOffset ∧ clause.tryEnd = clause.tryOffset) := by
  rw [h.guards_iff hk, h.guards_iff ht, h.handles_iff hk, h.handles_iff ht]
  have hoffset : j'.offset = startOf is length t := by simp [startOf, ht]
  refine ⟨fun hin hout => ?_, fun hin hout => ?_⟩
  · rw [hoffset, h.tryOffset, hadmits.entersTry hin hout]
  · obtain ⟨hstart, hempty⟩ := hadmits.entersHandler hin hout
    rw [hoffset, h.handlerOffset, h.tryEnd, h.tryOffset, hstart, hempty]
    exact ⟨rfl, rfl⟩

end

/-- **The body of a block is regular**, if control does not come to the end of the block. -/
theorem regular_of_block (hfinish : d.finish = .ok body) (hlen : body.code.length < 2 ^ 32)
    (hblock : Block .body {} d) (hend : d.unreachable = true) :
    Instruction.Regular d.instructions body.clauses := by
  have hd := hblock.sound .empty
  obtain ⟨new, hpart⟩ := hblock.part .empty
  have hclauses : d.clauses.toList = new := hpart.clauses
  have hnew {c : DraftClause} (hc : c ∈ d.clauses) : c ∈ new := hclauses ▸ Array.mem_toList_iff.2 hc
  -- a branch that is no leave goes to a label of the block, and respects all clauses
  have hadmits {k t : Nat} {i : DraftInstruction} {l : Label} (hi : d.code[k]? = some i)
      (hl : i.operand = .label l) (hleave : i.opcode ≠ .leave) (ht : d.target? l = some t)
      {c : DraftClause} (hc : c ∈ d.clauses) : c.Admits k t := by
    rcases hpart.branch k i l (Nat.zero_le _) hi hl hleave with ⟨hjump, -⟩ | ⟨t', ht', -, -, hall⟩
    · exact hjump.elim
    · rw [ht] at ht'
      cases ht'
      exact hall c (hnew hc)
  have hlong {k : Nat} {i : DraftInstruction} {j : Instruction} (hlaid : LaidAs d k i j)
      (hj : j.opcode ∉ [.leave, .leaveS]) : i.opcode ≠ .leave := by
    intro hi
    rcases hlaid.opcode with hop | hop
    · rw [hop, hi] at hj
      exact hj (by decide)
    · rw [hi] at hop
      rw [← Option.some.inj hop] at hj
      exact hj (by decide)
  refine ⟨fun j hj offset ht => ?_, fun c hc => ?_, ?_, fun j hj hleave offset ht c hc => ?_,
    fun j hj hleave offset ht c hc => ?_, fun j hj hret c hc => ?_⟩
  · obtain ⟨_, _, _, _, j', _, _, _, _, _, hj', hoffset⟩ := exists_target hfinish hd hend hj ht
    exact ⟨j', List.mem_of_getElem? hj', hoffset⟩
  · obtain ⟨c', -, hcovers⟩ := covers_of_mem hfinish hlen hd hc
    rw [hcovers.handlerOffset, hcovers.tryEnd]
  · rw [eq_bodyWith_of_finish hfinish]
    refine List.pairwise_map.2 ((hclauses ▸ hpart.nested).imp_of_mem fun {a b} ha hb hnested => ?_)
    have ha := hpart.within a (hclauses ▸ ha)
    have hb := hpart.within b (hclauses ▸ hb)
    exact encloses_of_nested hfinish hlen ha hb
      (covers_of_le hfinish hlen ha.order ha.order' ha.stop)
      (covers_of_le hfinish hlen hb.order hb.order' hb.stop) hnested
  · obtain ⟨k, i, l, t, j', hi, hk, hlaid, hl, htarget, hj', rfl⟩ :=
      exists_target hfinish hd hend hj ht
    obtain ⟨c', hc', hcovers⟩ := covers_of_mem hfinish hlen hd hc
    exact hcovers.stays hk hj' (hadmits hi hl (hlong hlaid hleave) htarget hc')
  · obtain ⟨k, i, l, t, j', hi, hk, hlaid, hl, htarget, hj', rfl⟩ :=
      exists_target hfinish hd hend hj ht
    obtain ⟨c', hc', hcovers⟩ := covers_of_mem hfinish hlen hd hc
    exact hcovers.enters hk hj' (hadmits hi hl (hlong hlaid hleave) htarget hc')
  · obtain ⟨k, i, hi, hk, hlaid⟩ := laidAs_of_mem hfinish hj
    obtain ⟨c', hc', hcovers⟩ := covers_of_mem hfinish hlen hd hc
    have hop : i.opcode = .ret := by
      rcases hlaid.opcode with hop | hop
      · exact hop.symm.trans hret
      · rw [hret] at hop
        cases (shortForm?_spec hop).2.1
    have hapart := (hpart.ret k i (Nat.zero_le _) hi hop).2 c' (hnew hc')
    obtain ⟨-, horder, horder', -⟩ := hpart.within c' (hnew hc')
    rw [Clause.Spans, hcovers.guards_iff hk, hcovers.handles_iff hk, DraftClause.InTry,
      DraftClause.InHandler]
    unfold DraftClause.Apart at hapart
    omega

end Draft

namespace Image

/-- **Branches and regions of a body are regular.** Every body of a program that is accepted decodes
unless a branch is too long to be written, and its branches and returns respect its clauses. -/
theorem regular_of_generate {language : Language} {options : CodeOptions} {mvid : Vector UInt8 16}
    {unit : Source.CompilationUnit} {log log' : Log} {image : Image}
    (h : generate language options mvid unit log = .ok (some image, log')) {body : FinishedBody}
    (hbody : body ∈ image.bodies) :
    (body.code.length < 2 ^ 31 → ∃ is, Instruction.decodeStream body.code = .ok is) ∧
      (body.code.length < 2 ^ 32 → ∀ is, Instruction.decodeStream body.code = .ok is →
        Instruction.Regular is body.clauses) := by
  obtain ⟨d, hfinish, hshaped, hblock, hend⟩ := exists_draft_of_generate h hbody
  refine ⟨fun hlen => ⟨_, Draft.decodeStream_of_finish hfinish hshaped hlen⟩, fun hlen is hdecode => ?_⟩
  obtain rfl := Draft.instructions_of_decodeStream hfinish hshaped hlen hdecode
  exact Draft.regular_of_block hfinish hlen hblock hend

end Image

end CilScope
