import CilScope.Proofs.Draft.History
import CilScope.Proofs.Draft.Layout

/-!
# Laying out a body is faithful

`Draft.finish_faithful` is about a draft that was made by proper requests and whose body is shorter than
2^31 bytes. Laying it out fails exactly if a limit was exceeded or a branch goes to a label that was
never bound; otherwise the bytes decode to the instructions that were asked for, with all labels, clauses
and positions where the history has them (`Faithful`).

The passes of widening end when one of them widens nothing, so a branch that is short at the end is
in reach of its target (`reaches_settled`), and no instruction of the settled layout fails to be encoded
(`exists_encodeFrom`).
-/

namespace CilScope.Draft

/-! ## Branches that stay short -/

theorem Slot.short_of_widen {offsetOf : Label → Option UInt32} {next : UInt32} {s : Slot}
    (h : (s.widen offsetOf next).short = true) : s.short = true := by
  unfold widen at h
  split at h
  · rename_i hb
    obtain ⟨l, hl, -⟩ := Option.bind_eq_some_iff.1 hb
    unfold shortTarget? at hl
    split at hl
    · assumption
    · cases hl
  · exact h

/-- Widening makes no branch short. -/
theorem Slot.short_widen_le (offsetOf : Label → Option UInt32) (next : UInt32) (s : Slot) :
    (if (s.widen offsetOf next).short = true then 1 else 0) ≤ if s.short = true then 1 else 0 := by
  split
  · rename_i h
    exact Nat.le_of_eq (if_pos (short_of_widen h)).symm
  · exact Nat.zero_le _

theorem countP_widenFrom_le (offsetOf : Label → Option UInt32) (offset : UInt32) (slots : List Slot) :
    (widenFrom offsetOf offset slots).countP (·.short) ≤ slots.countP (·.short) := by
  induction slots generalizing offset with
  | nil => exact Nat.le_refl _
  | cons s slots ih =>
    rw [widenFrom, List.countP_cons, List.countP_cons]
    exact Nat.add_le_add (ih _) (s.short_widen_le offsetOf _)

/-- A pass that widens nothing leaves short what was short. -/
theorem short_widen_of_countP {offsetOf : Label → Option UInt32} {offset : UInt32} {slots : List Slot}
    (h : ¬ (widenFrom offsetOf offset slots).countP (·.short) < slots.countP (·.short)) {k : Nat}
    {s : Slot} (hk : slots[k]? = some s) (hs : s.short = true) :
    (s.widen offsetOf (offset + .ofNat (place slots (k + 1)))).short = true := by
  induction slots generalizing offset k with
  | nil => cases hk
  | cons t slots ih =>
    have hrest := countP_widenFrom_le offsetOf (offset + .ofNat t.size) slots
    have hfirst := t.short_widen_le offsetOf (offset + .ofNat t.size)
    rw [widenFrom, List.countP_cons, List.countP_cons] at h
    rw [← add_place_cons]
    cases k with
    | zero =>
      cases hk
      rw [if_pos hs] at h
      rw [ofNat_place_zero, UInt32.add_zero]
      refine Decidable.byContradiction fun hwide => ?_
      rw [if_neg hwide] at h
      omega
    | succ k => exact ih (by omega) hk

theorem countP_settle (d : Draft) (slots : List Slot) :
    ¬ (d.widen (d.settle slots)).countP (·.short) < (d.settle slots).countP (·.short) := by
  fun_induction d.settle slots with
  | case1 slots next hlt ih => exact ih
  | case2 slots next hlt => exact hlt

/-- The length of the body of a draft. -/
def bodyLength (d : Draft) : Nat := place d.settled d.settled.length

/-- No place overflows in a layout whose length does not. -/
theorem toNat_ofNat_place {slots : List Slot} (hlen : place slots slots.length < 2 ^ 32) (k : Nat) :
    (UInt32.ofNat (place slots k)).toNat = place slots k :=
  UInt32.toNat_ofNat_of_lt (Nat.lt_of_le_of_lt (place_le slots k) hlen)

/-- A branch that is short in the settled layout is in reach of its target. -/
theorem reaches_settled {d : Draft} (hlen : d.bodyLength < 2 ^ 32) {k j : Nat} {s : Slot} {l : Label}
    (hk : d.settled[k]? = some s) (hs : s.short = true) (hl : s.instruction.operand = .label l)
    (ht : d.offsetOf? (offsets d.settled) l = some (.ofNat (place d.settled j))) :
    Instruction.fitsByte ((place d.settled j : Int) - place d.settled (k + 1)) = true := by
  have hshort := short_widen_of_countP (countP_settle d (d.code.toList.map Slot.start)) hk hs
  have htarget : s.shortTarget?.bind (d.offsetOf? (offsets d.settled)) =
      some (.ofNat (place d.settled j)) := by
    simp [Slot.shortTarget?, hs, hl, ht]
  rw [Slot.widen, ← settled, htarget, UInt32.zero_add] at hshort
  rw [← toNat_ofNat_place hlen j, ← toNat_ofNat_place hlen (k + 1)]
  exact hshort

/-! ## When a layout can be encoded -/

theorem length_settled (d : Draft) : d.settled.length = d.code.size := by
  rw [← List.length_map (f := Slot.instruction), (settled_spec d).1, Array.length_toList]

theorem place_le_mul (slots : List Slot) (k : Nat) : place slots k ≤ 6 * k := by
  induction slots generalizing k with
  | nil => simp [place]
  | cons s slots ih =>
    cases k with
    | zero => exact Nat.zero_le _
    | succ k =>
      have hsize : s.size ≤ 6 := by
        rw [Slot.size]
        cases s.opcode <;> decide
      have hrest := ih k
      rw [place_cons_succ]
      omega

/-- No instruction takes more than six bytes. -/
theorem bodyLength_le (d : Draft) : d.bodyLength ≤ 6 * d.code.size := by
  rw [← length_settled]
  exact place_le_mul _ _

theorem encode_fits_of_kind {i : Instruction} (h : i.opcode.operandKind ≠ .shortBranch) :
    i.encode.fits = true := by
  have hsome : i.operandBytes? ≠ none := by
    unfold Instruction.operandBytes?
    split <;> first | exact absurd ‹_› h | simp
  cases hraw : i.operandBytes? with
  | none => exact absurd hraw hsome
  | some raw => rw [Instruction.encode_of_operandBytes? hraw]

/-- Branches are drafted in their long form. -/
theorem kind_ne_of_shaped {i : DraftInstruction} (h : i.Shaped) :
    i.opcode.operandKind ≠ .shortBranch := by
  intro hkind
  simp [DraftInstruction.Shaped, hkind] at h

/-- A short branch is encoded if its target is in reach. -/
theorem encode_fits_of_reach {op : Opcode} {offset target : UInt32}
    (hkind : op.operandKind = .shortBranch) (hoffset : offset.toNat + op.size < 2 ^ 32)
    (hreach : Instruction.fitsByte ((target.toNat : Int) - (offset.toNat + op.size : Nat)) = true) :
    (Instruction.encode ⟨offset, op, .target target⟩).fits = true := by
  let i : Instruction := ⟨offset, op, .target target⟩
  have hdistance : i.distance target = (target.toNat : Int) - (offset.toNat + op.size : Nat) := rfl
  have hfits : i.Fits := by
    have hkind' : i.opcode.operandKind = .shortBranch := hkind
    have hoperand : i.operand = .target target := rfl
    simp only [Instruction.Fits, hkind', hoperand, hdistance]
    simpa [Instruction.fitsByte] using hreach
  obtain ⟨raw, hraw, -⟩ := Instruction.readOperand_of_fits hoffset hfits
  exact congrArg Encoded.fits (Instruction.encode_of_operandBytes? hraw)

theorem exists_encodeFrom {offsetOf : Label → Option UInt32} (offset : UInt32) {slots : List Slot}
    (h : ∀ (k : Nat) s, slots[k]? = some s → ∃ r, operand offsetOf s.instruction.operand = .ok r ∧
      (Instruction.encode ⟨offset + .ofNat (place slots k), s.opcode, r⟩).fits = true) :
    ∃ code, encodeFrom offsetOf offset slots = .ok code := by
  induction slots generalizing offset with
  | nil => exact ⟨[], rfl⟩
  | cons s slots ih =>
    obtain ⟨r, hr, hfits⟩ := h 0 s rfl
    rw [ofNat_place_zero, UInt32.add_zero] at hfits
    have hlater : ∀ (k : Nat) t, slots[k]? = some t → ∃ r,
        operand offsetOf t.instruction.operand = .ok r ∧ (Instruction.encode
          ⟨offset + .ofNat s.size + .ofNat (place slots k), t.opcode, r⟩).fits = true := by
      intro k t ht
      rw [add_place_cons]
      exact h (k + 1) t ht
    obtain ⟨rest, hrest⟩ := ih _ hlater
    refine ⟨(Instruction.encode ⟨offset, s.opcode, r⟩).bytes ++ rest, ?_⟩
    simp only [encodeFrom, hr, hrest, bind, Except.bind, hfits]
    rfl

/-! ## When a body can be laid out -/

theorem offsetOf?_eq_bind (d : Draft) (offsets : Array UInt32) (l : Label) :
    d.offsetOf? offsets l = (d.target? l).bind (offsets[·]?) := by
  rw [target?, Option.bind_assoc]
  rfl

/-- In a layout a label that is bound has the offset of its instruction. -/
theorem offsetOf?_of_target {d : Draft} {slots : List Slot} {l : Label} {k : Nat}
    (hk : d.target? l = some k) (hle : k ≤ slots.length) :
    d.offsetOf? (offsets slots) l = some (.ofNat (place slots k)) := by
  rw [offsetOf?_eq_bind, hk, Option.bind_some, getElem?_offsets, if_pos hle]

/-- An instruction of the settled layout can be encoded, if its label has an offset. -/
theorem encode_fits_of_label {d : Draft} (hlen : d.bodyLength < 2 ^ 31) {k : Nat} {s : Slot}
    (hk : d.settled[k]? = some s) (hshape : s.instruction.Shaped)
    (hlabel : ∀ l, s.instruction.operand = .label l →
      ∃ j, d.offsetOf? (offsets d.settled) l = some (.ofNat (place d.settled j))) :
    ∃ r, operand (d.offsetOf? (offsets d.settled)) s.instruction.operand = .ok r ∧
      (Instruction.encode ⟨UInt32.ofNat (place d.settled k), s.opcode, r⟩).fits = true := by
  obtain ⟨-, hproper⟩ := settled_spec d
  have hmem := List.mem_of_getElem? hk
  have hend : place d.settled k + s.size < 2 ^ 31 := by
    have hle := place_le d.settled (k + 1)
    rw [place_succ hk] at hle
    exact Nat.lt_of_le_of_lt hle hlen
  cases hoperand : s.instruction.operand with
  | label l =>
    obtain ⟨j, hoffset⟩ := hlabel l hoperand
    refine ⟨.target (UInt32.ofNat (place d.settled j)), by simp only [operand, hoffset]; rfl, ?_⟩
    rcases s.opcode_eq (hproper s hmem) with ⟨hshort, hform⟩ | hlong
    · have hlen' : d.bodyLength < 2 ^ 32 := Nat.lt_trans hlen (by decide)
      have hreach := reaches_settled hlen' hk hshort hoperand hoffset
      rw [place_succ hk] at hreach
      refine encode_fits_of_reach (shortForm?_spec hform).2.1 ?_ ?_
      · rw [toNat_ofNat_place hlen']
        exact Nat.lt_trans hend (by decide)
      · rw [toNat_ofNat_place hlen', toNat_ofNat_place hlen']
        exact hreach
    · exact encode_fits_of_kind (hlong ▸ kind_ne_of_shaped hshape)
  | none | int | var | token =>
    refine ⟨_, rfl, encode_fits_of_kind ?_⟩
    rcases s.opcode_eq (hproper s hmem) with ⟨-, hform⟩ | hlong
    · -- what has a short form is a branch, and the operand of a branch is a label
      have hkind := (shortForm?_spec hform).1
      simp [DraftInstruction.Shaped, hkind, hoperand] at hshape
    · exact hlong ▸ kind_ne_of_shaped hshape

section

variable {history : List Event} {d : Draft}

/-- Every label that a branch goes to was bound. -/
def Bound (history : List Event) : Prop :=
  ∀ op l, .branch op l ∈ history → boundTo l history ≠ none

/-- In any layout of the draft a label has the offset of the instruction that it was bound to. -/
theorem offsetOf?_of_drafted (h : Drafted history d) {slots : List Slot}
    (hslots : slots.length = d.code.size) {l : Label} (hl : Given history l) :
    d.offsetOf? (offsets slots) l =
      (boundTo l history).map fun k => .ofNat (place slots k) := by
  have htarget := h.records.target l hl
  cases hbound : boundTo l history with
  | none =>
    rw [offsetOf?_eq_bind, htarget, hbound]
    rfl
  | some k =>
    refine offsetOf?_of_target (htarget.trans hbound) ?_
    rw [hslots, ← Array.length_toList, h.records.code]
    exact boundTo_le hbound

/-- The labels of the instructions in a layout were given out, and bound if all labels were. -/
theorem label_of_slot (h : Drafted history d) {slots : List Slot}
    (hslots : slots.map Slot.instruction = d.code.toList) {s : Slot} (hs : s ∈ slots) {l : Label}
    (hl : s.instruction.operand = .label l) : ∃ op, .branch op l ∈ history := by
  have hmem : s.instruction ∈ emitted history := by
    rw [← h.records.code, ← hslots]
    exact List.mem_map_of_mem hs
  obtain ⟨e, he, hinstruction⟩ := mem_emitted.1 hmem
  rw [branch_of_operand hinstruction hl] at he
  exact ⟨_, he⟩

/-- The instruction in a slot of the settled layout can be encoded. -/
theorem encode_fits_settled (h : Drafted history d) (hfault : d.fault = none)
    (hbound : Bound history) (hlen : d.bodyLength < 2 ^ 31) {k : Nat} {s : Slot}
    (hk : d.settled[k]? = some s) :
    ∃ r, operand (d.offsetOf? (offsets d.settled)) s.instruction.operand = .ok r ∧
      (Instruction.encode ⟨UInt32.ofNat (place d.settled k), s.opcode, r⟩).fits = true := by
  obtain ⟨hmap, -⟩ := settled_spec d
  have hmem := List.mem_of_getElem? hk
  have hshape : s.instruction.Shaped :=
    h.records.shaped hfault _ (hmap ▸ List.mem_map_of_mem hmem)
  refine encode_fits_of_label hlen hk hshape fun l hl => ?_
  obtain ⟨op, hop⟩ := label_of_slot h hmap hmem hl
  obtain ⟨j, hj⟩ := Option.ne_none_iff_exists'.1 (hbound op l hop)
  refine ⟨j, ?_⟩
  rw [offsetOf?_of_drafted h (length_settled d) (h.given_of_branch hop), hj, Option.map_some]

/-- The body of a draft whose code is `code`. -/
def bodyWith (d : Draft) (code : List UInt8) : FinishedBody where
  code := code
  instructionCount := d.code.size
  maxStack := d.maxStack code.length
  locals := d.locals.toList
  clauses := d.clauses.toList.map (clause (offsets d.settled))
  points := d.points.toList.map fun (i, pos) => ((offsets d.settled).getD i 0, pos)

theorem eq_bodyWith_of_finish {body : FinishedBody} (h : d.finish = .ok body) :
    body = d.bodyWith body.code := by
  unfold finish at h
  split at h
  · cases h
  · simp only at h
    split at h
    · cases h
    · obtain ⟨code, hcode, h⟩ := bind_eq_ok h
      cases h
      rfl

theorem finish_eq_bodyWith {code : List UInt8} (hfault : d.fault = none)
    (hbound : ((d.code.toList.map Slot.start).filterMap Slot.shortTarget?).find?
      (fun l => (d.offsetOf? (offsets (d.code.toList.map Slot.start)) l).isNone) = none)
    (hcode : encodeFrom (d.offsetOf? (offsets d.settled)) 0 d.settled = .ok code) :
    d.finish = .ok (d.bodyWith code) := by
  unfold finish
  rw [hfault]
  simp only [hbound]
  rw [settled] at hcode
  simp only [hcode]
  rfl

/-- A draft without an exceeded limit whose labels are bound can be laid out. -/
theorem exists_finish (h : Drafted history d) (hfault : d.fault = none) (hbound : Bound history)
    (hlen : d.bodyLength < 2 ^ 31) : ∃ body, d.finish = .ok body := by
  obtain ⟨code, hcode⟩ := exists_encodeFrom 0 fun k s hk => by
    rw [UInt32.zero_add]
    exact encode_fits_settled h hfault hbound hlen hk
  refine ⟨d.bodyWith code, finish_eq_bodyWith hfault (List.find?_eq_none.2 fun l hl => ?_) hcode⟩
  obtain ⟨s, hs, hl⟩ := List.mem_filterMap.1 hl
  have hoperand : s.instruction.operand = .label l := by
    unfold Slot.shortTarget? at hl
    split at hl
    · cases hl
      assumption
    · cases hl
  have hstart : (d.code.toList.map Slot.start).map Slot.instruction = d.code.toList := by
    rw [List.map_map]
    exact List.map_id _
  obtain ⟨op, hop⟩ := label_of_slot h hstart hs hoperand
  obtain ⟨k, hk⟩ := Option.ne_none_iff_exists'.1 (hbound op l hop)
  rw [offsetOf?_of_drafted h (by simp) (h.given_of_branch hop), hk]
  simp

/-- Laying out succeeds exactly if no limit was exceeded and the labels of branches were bound. -/
theorem exists_finish_iff (h : Drafted history d) (hlen : d.bodyLength < 2 ^ 31) :
    (∃ body, d.finish = .ok body) ↔ ¬ Exceeds history ∧ Bound history := by
  constructor
  · rintro ⟨body, hbody⟩
    obtain ⟨hfault, hcode, -⟩ := finish_eq_ok hbody
    obtain ⟨-, -, hlabels⟩ := encodeFrom_eq_ok hcode
    refine ⟨h.records.fault.1 hfault, fun op l hop hfree => ?_⟩
    have hmem : ⟨op, .label l⟩ ∈ d.settled.map Slot.instruction := by
      rw [(settled_spec d).1, h.records.code]
      exact mem_emitted.2 ⟨_, hop, rfl⟩
    obtain ⟨s, hs, hinstruction⟩ := List.mem_map.1 hmem
    have hsome := hlabels s hs l (by rw [hinstruction])
    rw [offsetOf?_of_drafted h (length_settled d) (h.given_of_branch hop), hfree] at hsome
    cases hsome
  · rintro ⟨hexceeds, hbound⟩
    exact exists_finish h (h.records.fault.2 hexceeds) hbound hlen

end

/-! ## What the bytes of a body say -/

/-- The offset of the instruction with number `k` in a body of this length, or the length behind the last
instruction. -/
def startOf (is : List Instruction) (length k : Nat) : UInt32 :=
  ((is[k]?).map (·.offset)).getD (UInt32.ofNat length)

/-- A decoded operand is the one that was asked for, a label being the offset of the instruction that it
was bound to last. -/
def Renders (history : List Event) (is : List Instruction) (length : Nat) :
    DraftOperand → Operand → Prop
  | .none, .none => True
  | .int v, .int v' => v' = v
  | .var i, .var i' => i' = i
  | .token t, .token t' => t' = t
  | .label l, .target offset => ∃ k, boundTo l history = some k ∧ offset = startOf is length k
  | _, _ => False

/-- A clause covers exactly the instructions of its protected region and of its handler. -/
structure Covers (is : List Instruction) (length : Nat) (c : DraftClause) (clause : Clause) :
    Prop where
  kind : clause.kind = c.kind
  tryOffset : clause.tryOffset = startOf is length c.tryStart
  tryEnd : clause.tryEnd = startOf is length c.handlerStart
  handlerOffset : clause.handlerOffset = startOf is length c.handlerStart
  handlerEnd : clause.handlerEnd = startOf is length c.handlerStop
  covered : ∀ (k : Nat) i, is[k]? = some i →
    (clause.tryOffset ≤ i.offset ∧ i.offset < clause.tryEnd ↔
      c.tryStart ≤ k ∧ k < c.handlerStart) ∧
    (clause.handlerOffset ≤ i.offset ∧ i.offset < clause.handlerEnd ↔
      c.handlerStart ≤ k ∧ k < c.handlerStop)

/-- A finished body, with the instructions that it decodes to, is what the history asked for. -/
structure Faithful (history : List Event) (body : FinishedBody) (is : List Instruction) : Prop where
  decoded : Instruction.decodeStream body.code = .ok is
  count : body.instructionCount = is.length
  length : is.length = (emitted history).length
  instruction : ∀ (k : Nat) i, (emitted history)[k]? = some i → ∃ j, is[k]? = some j ∧
    (j.opcode = i.opcode ∨ i.opcode.shortForm? = some j.opcode) ∧
    Renders history is body.code.length i.operand j.operand
  region : ∀ late early start, history = late ++ .beginTry start :: early →
    start = (emitted early).length
  handler : ∀ late early start kind h, history = late ++ .beginHandler start kind h :: early →
    h = ⟨kind, start, (emitted early).length⟩
  clauses : body.clauses.length = (clausesOf history).length ∧
    ∀ (k : Nat) c, (clausesOf history)[k]? = some c →
      ∃ clause, body.clauses[k]? = some clause ∧ Covers is body.code.length c clause
  points : body.points = (pointsOf history).map fun (k, pos) => (startOf is body.code.length k, pos)
  ordered : body.points.Pairwise fun p q => p.1 ≤ q.1

section

variable {history : List Event} {d : Draft} {body : FinishedBody}

theorem place_mono (slots : List Slot) {k j : Nat} (h : k ≤ j) : place slots k ≤ place slots j := by
  induction slots generalizing k j with
  | nil => simp [place]
  | cons s slots ih =>
    cases k with
    | zero => exact Nat.zero_le _
    | succ k =>
      obtain ⟨j, rfl⟩ : ∃ j', j = j' + 1 := ⟨j - 1, by omega⟩
      rw [place_cons_succ, place_cons_succ]
      exact Nat.add_le_add_left (ih (Nat.le_of_succ_le_succ h)) _

/-- Instructions have their offsets in their order. -/
theorem place_le_iff {slots : List Slot} {j k : Nat} (hk : k < slots.length) :
    place slots j ≤ place slots k ↔ j ≤ k := by
  refine ⟨fun hle => Nat.le_of_not_lt fun hlt => ?_, place_mono slots⟩
  have hsucc := place_succ (List.getElem?_eq_getElem hk)
  have hmono := place_mono slots (show k + 1 ≤ j from hlt)
  have hpos : 0 < slots[k].size := slots[k].opcode.size_pos
  omega

theorem length_laidFrom (offsetOf : Label → Option UInt32) (offset : UInt32) (slots : List Slot) :
    (laidFrom offsetOf offset slots).length = slots.length := by
  induction slots generalizing offset with
  | nil => rfl
  | cons s slots ih => rw [laidFrom, List.length_cons, List.length_cons, ih]

theorem length_instructions (d : Draft) : d.instructions.length = d.code.size := by
  rw [instructions, length_laidFrom, length_settled]

theorem getD_offsets {slots : List Slot} {k : Nat} (hk : k ≤ slots.length) :
    (offsets slots).getD k 0 = .ofNat (place slots k) := by
  rw [Array.getD_eq_getD_getElem?, getElem?_offsets, if_pos hk, Option.getD_some]

/-- A number stands for the offset that its instruction has in the settled layout. -/
theorem startOf_instructions (hfinish : d.finish = .ok body) {k : Nat} (hk : k ≤ d.code.size) :
    startOf d.instructions body.code.length k = UInt32.ofNat (place d.settled k) := by
  rw [startOf, getElem?_instructions]
  rcases Nat.lt_or_eq_of_le hk with hlt | heq
  · rw [← length_settled d] at hlt
    rw [List.getElem?_eq_getElem hlt]
    simp
  · rw [← length_settled d] at heq
    rw [heq, List.getElem?_eq_none (Nat.le_refl _), length_code_of_finish hfinish]
    rfl

theorem toNat_place (hfinish : d.finish = .ok body) (hlen : body.code.length < 2 ^ 32) (k : Nat) :
    (UInt32.ofNat (place d.settled k)).toNat = place d.settled k :=
  toNat_ofNat_place (length_code_of_finish hfinish ▸ hlen) k

/-- The instruction with number `k` is the one that was asked for. -/
theorem instruction_of_finish (h : Drafted history d) (hfinish : d.finish = .ok body) {k : Nat}
    {i : DraftInstruction} (hi : (emitted history)[k]? = some i) :
    ∃ j, d.instructions[k]? = some j ∧
      (j.opcode = i.opcode ∨ i.opcode.shortForm? = some j.opcode) ∧
      Renders history d.instructions body.code.length i.operand j.operand := by
  obtain ⟨hmap, hproper⟩ := settled_spec d
  obtain ⟨-, hcode, -⟩ := finish_eq_ok hfinish
  obtain ⟨-, -, hlabels⟩ := encodeFrom_eq_ok hcode
  rw [← h.records.code, ← hmap, List.getElem?_map] at hi
  obtain ⟨s, hs, rfl⟩ := Option.map_eq_some_iff.1 hi
  have hmem := List.mem_of_getElem? hs
  refine ⟨_, by rw [getElem?_instructions, hs, Option.map_some], ?_, ?_⟩
  · exact (s.opcode_eq (hproper s hmem)).symm.imp id And.right
  · cases hoperand : s.instruction.operand with
    | label l =>
      obtain ⟨op, hop⟩ := label_of_slot h hmap hmem hoperand
      have hoffset := offsetOf?_of_drafted h (length_settled d) (h.given_of_branch hop)
      obtain ⟨target, htarget⟩ := Option.isSome_iff_exists.1 (hlabels s hmem l hoperand)
      rw [htarget] at hoffset
      obtain ⟨k', hk', rfl⟩ := Option.map_eq_some_iff.1 hoffset.symm
      have hle : k' ≤ d.code.size := by
        rw [← Array.length_toList, h.records.code]
        exact boundTo_le hk'
      simp only [laidOperand, htarget, Renders]
      exact ⟨k', hk', (startOf_instructions hfinish hle).symm⟩
    | none | int | var | token => simp [laidOperand, Renders]

theorem startOf_le_iff (hfinish : d.finish = .ok body) (hlen : body.code.length < 2 ^ 32) {j k : Nat}
    (hj : j ≤ d.code.size) (hk : k < d.code.size) :
    startOf d.instructions body.code.length j ≤ startOf d.instructions body.code.length k ↔
      j ≤ k := by
  rw [startOf_instructions hfinish hj, startOf_instructions hfinish (Nat.le_of_lt hk),
    UInt32.le_iff_toNat_le, toNat_place hfinish hlen, toNat_place hfinish hlen,
    place_le_iff (by rw [length_settled]; exact hk)]

/-- A clause covers the instructions between the places where it was opened and closed. -/
theorem covers_of_le (hfinish : d.finish = .ok body) (hlen : body.code.length < 2 ^ 32)
    {c : DraftClause} (htry : c.tryStart ≤ c.handlerStart) (hhandler : c.handlerStart ≤ c.handlerStop)
    (hstop : c.handlerStop ≤ d.code.size) :
    Covers d.instructions body.code.length c (clause (offsets d.settled) c) := by
  have hplace {k : Nat} (hk : k ≤ d.code.size) : (offsets d.settled).getD k 0 =
      startOf d.instructions body.code.length k := by
    rw [getD_offsets (by rw [length_settled]; exact hk), startOf_instructions hfinish hk]
  have htryOffset := hplace (show c.tryStart ≤ d.code.size by omega)
  have hhandlerOffset := hplace (show c.handlerStart ≤ d.code.size by omega)
  have htryEnd : (clause (offsets d.settled) c).tryEnd =
      startOf d.instructions body.code.length c.handlerStart := by
    rw [← hhandlerOffset, Clause.tryEnd, UInt32.add_comm]
    exact UInt32.sub_add_cancel ..
  have hhandlerEnd : (clause (offsets d.settled) c).handlerEnd =
      startOf d.instructions body.code.length c.handlerStop := by
    rw [← hplace hstop, Clause.handlerEnd, UInt32.add_comm]
    exact UInt32.sub_add_cancel ..
  refine ⟨rfl, htryOffset, htryEnd, hhandlerOffset, hhandlerEnd, fun k i hi => ?_⟩
  have hk : k < d.code.size := by
    rw [← length_instructions d]
    exact (List.getElem?_eq_some_iff.1 hi).1
  have hoffset : i.offset = startOf d.instructions body.code.length k := by simp [startOf, hi]
  have hle {j : Nat} (hj : j ≤ d.code.size) := startOf_le_iff hfinish hlen hj hk
  rw [htryEnd, hhandlerEnd, hoffset, ← UInt32.not_le, ← UInt32.not_le, ← Nat.not_le, ← Nat.not_le,
    hle (by omega), hle hstop]
  constructor
  · rw [← hle (show c.tryStart ≤ d.code.size by omega), ← htryOffset]
    rfl
  · rw [← hle (show c.handlerStart ≤ d.code.size by omega), ← hhandlerOffset]
    rfl

theorem covers_of_finish (h : Drafted history d) (hfinish : d.finish = .ok body)
    (hlen : body.code.length < 2 ^ 32) {c : DraftClause} (hc : c ∈ clausesOf history) :
    Covers d.instructions body.code.length c (clause (offsets d.settled) c) := by
  obtain ⟨htry, hhandler, hstop⟩ := h.clause_le hc
  rw [← h.records.code, Array.length_toList] at hstop
  exact covers_of_le hfinish hlen htry hhandler hstop

/-- The body of a history is what the history asked for. -/
theorem faithful_of_finish (h : Drafted history d) (hfinish : d.finish = .ok body)
    (hlen : body.code.length < 2 ^ 31) : Faithful history body d.instructions := by
  have hfault := (finish_eq_ok hfinish).1
  have hbody := eq_bodyWith_of_finish hfinish
  have hsize : (emitted history).length = d.code.size := by
    rw [← h.records.code, Array.length_toList]
  have hpoints : body.points = (pointsOf history).map fun (k, pos) =>
      (startOf d.instructions body.code.length k, pos) := by
    rw [congrArg FinishedBody.points hbody, bodyWith, h.records.points]
    refine List.map_congr_left fun p hp => congrArg (·, p.2) ?_
    have hle : p.1 ≤ d.code.size := hsize ▸ (pairwise_pointsOf history).2 p hp
    rw [getD_offsets (by rw [length_settled]; exact hle), startOf_instructions hfinish hle]
  refine ⟨decodeStream_of_finish hfinish (h.records.shaped hfault) hlen, ?_, ?_,
    fun k i => instruction_of_finish h hfinish, ?_, ?_, ⟨?_, ?_⟩, hpoints, ?_⟩
  · rw [hbody, length_instructions]
    rfl
  · rw [length_instructions, hsize]
  · rintro late early start rfl
    exact h.region_eq
  · rintro late early start kind handler rfl
    exact h.handler_eq
  · rw [hbody, bodyWith, List.length_map, h.records.clauses]
  · intro k c hk
    refine ⟨clause (offsets d.settled) c, ?_,
      covers_of_finish h hfinish (by omega) (List.mem_of_getElem? hk)⟩
    rw [hbody, bodyWith, List.getElem?_map, h.records.clauses, hk, Option.map_some]
  · obtain ⟨hpairwise, hmem⟩ := pairwise_pointsOf history
    rw [hpoints, List.pairwise_map]
    refine hpairwise.imp_of_mem fun {p q} hp hq hle => ?_
    show startOf d.instructions body.code.length p.1 ≤ startOf d.instructions body.code.length q.1
    rw [startOf_instructions hfinish (hsize ▸ hmem p hp),
      startOf_instructions hfinish (hsize ▸ hmem q hq), UInt32.le_iff_toNat_le,
      toNat_place hfinish (by omega), toNat_place hfinish (by omega)]
    exact place_mono _ hle

/-- **Laying out a body is faithful.** It fails exactly if a limit was exceeded or a branch goes to a label
that was never bound; otherwise the body is what the history asked for. -/
theorem finish_faithful (h : Drafted history d) (hlen : d.bodyLength < 2 ^ 31) :
    ((∃ fault, d.finish = .error fault) ↔
      Exceeds history ∨ ∃ op l, .branch op l ∈ history ∧ boundTo l history = none) ∧
    ∀ body, d.finish = .ok body → ∃ is, Faithful history body is := by
  constructor
  · have hok : (∃ fault, d.finish = .error fault) ↔ ¬ ∃ body, d.finish = .ok body := by
      cases d.finish <;> simp
    rw [hok, exists_finish_iff h hlen, Bound, Classical.not_and_iff_not_or_not]
    simp
  · intro body hfinish
    exact ⟨d.instructions, faithful_of_finish h hfinish (length_code_of_finish hfinish ▸ hlen)⟩

end

/-- A branch over a region that is left through a handler, with positions before and behind it. -/
def guarded : List Event :=
  [.emit .ret, .point ⟨4, 3⟩, .mark ⟨0⟩, .endHandler ⟨.finally_, 2, 4⟩, .emit .endfinally,
    .beginHandler 2 .finally_ ⟨.finally_, 2, 4⟩, .branch .leave ⟨0⟩, .emit .nop, .beginTry 2,
    .branch .brfalse ⟨0⟩, .loadInt 1, .point ⟨1, 3⟩, .newLabel ⟨0⟩]

/-- The draft of `guarded`. -/
def guardedDraft : Draft := guarded.foldr (fun e d => e.apply d) {}

theorem drafted_guarded : Drafted guarded guardedDraft := by
  have h := ((Drafted.start.step (.newLabel ⟨0⟩) rfl).step (.point ⟨1, 3⟩) trivial).step
    (.loadInt 1) trivial
  have h := h.step (.branch .brfalse ⟨0⟩) ⟨rfl, .inl (by simp)⟩
  have h := (h.step (.beginTry 2) rfl).step (.emit .nop) rfl
  have h := h.step (.branch .leave ⟨0⟩) ⟨rfl, .inl (by simp)⟩
  have h := h.step (.beginHandler 2 .finally_ ⟨.finally_, 2, 4⟩) ⟨by simp, rfl⟩
  have h := h.step (.emit .endfinally) rfl
  have h := h.step (.endHandler ⟨.finally_, 2, 4⟩) ⟨2, .finally_, by simp⟩
  exact ((h.step (.mark ⟨0⟩) (.inl (by simp))).step (.point ⟨4, 3⟩) trivial).step (.emit .ret) rfl

theorem finish_faithful_guarded : guardedDraft.bodyLength < 2 ^ 31 ∧
    ∃ body is, guardedDraft.finish = .ok body ∧ Faithful guarded body is := by
  have hlen : guardedDraft.bodyLength < 2 ^ 31 :=
    Nat.lt_of_le_of_lt (bodyLength_le _) (by decide)
  obtain ⟨hfails, hok⟩ := finish_faithful drafted_guarded hlen
  refine ⟨hlen, ?_⟩
  cases hfinish : guardedDraft.finish with
  | error fault =>
    rcases hfails.1 ⟨fault, hfinish⟩ with hexceeds | ⟨op, l, hbranch, hfree⟩
    · simp [Exceeds, guarded, localsOf, Event.local?] at hexceeds
    · have hl : l = ⟨0⟩ := by
        simp only [guarded, List.mem_cons, reduceCtorEq, Event.branch.injEq, List.not_mem_nil,
          false_or, or_false] at hbranch
        grind
      subst hl
      simp [boundTo, guarded, Event.binds] at hfree
  | ok body =>
    obtain ⟨is, his⟩ := hok body hfinish
    exact ⟨body, is, rfl, his⟩

end CilScope.Draft
