import CilScope.Proofs.Draft.Growth
import CilScope.Proofs.Except
import CilScope.Proofs.Instruction.Stream

/-!
# Laid-out bodies run as their drafts

A draft can be run as it is: a place is the number of an instruction, and a branch goes to what its
label is bound to. Laying out a draft chooses between short and long branches and turns numbers into
offsets. `Draft.decodeStream_of_finish` says which instructions the bytes of a finished body are, and
`Draft.fetch_of_finish` that these run as the draft does, up to the names of places.
-/

namespace CilScope

namespace Draft

open Machine (Fetched)

/-- Fetching from a draft, by the number of the instruction. -/
def fetch (d : Draft) (pc : Nat) : Option (Fetched Nat) := do
  let i ← d.code[pc]?
  let action ← i.action?
  let target := match i.operand with
    | .label l => d.target? l
    | _ => none
  return { action, next := pc + 1, target }

/-! ## Places -/

/-- The offset of the instruction with number `k`, or the length of the body behind the last. -/
def place (slots : List Slot) (k : Nat) : Nat := ((slots.take k).map Slot.size).sum

@[simp] theorem place_zero (slots : List Slot) : place slots 0 = 0 := rfl

@[simp] theorem ofNat_place_zero (slots : List Slot) : UInt32.ofNat (place slots 0) = 0 := rfl

theorem place_cons_succ (s : Slot) (slots : List Slot) (k : Nat) :
    place (s :: slots) (k + 1) = s.size + place slots k := rfl

theorem place_succ {slots : List Slot} {k : Nat} {s : Slot} (h : slots[k]? = some s) :
    place slots (k + 1) = place slots k + s.size := by
  induction slots generalizing k with
  | nil => cases h
  | cons t slots ih =>
    cases k with
    | zero => cases h; rw [place_cons_succ]; simp
    | succ k => rw [place_cons_succ, place_cons_succ, ih h, Nat.add_assoc]

theorem place_le (slots : List Slot) (k : Nat) : place slots k ≤ place slots slots.length := by
  induction slots generalizing k with
  | nil => simp [place]
  | cons s slots ih =>
    cases k with
    | zero => exact Nat.zero_le _
    | succ k =>
      rw [List.length_cons, place_cons_succ, place_cons_succ]
      exact Nat.add_le_add_left (ih k) _

/-- Adding sizes one after the other comes to the same as adding their sum, also where it overflows. -/
theorem add_place_cons (offset : UInt32) (s : Slot) (slots : List Slot) (k : Nat) :
    offset + .ofNat s.size + .ofNat (place slots k) = offset + .ofNat (place (s :: slots) (k + 1)) := by
  rw [place_cons_succ, UInt32.ofNat_add, UInt32.add_assoc]

theorem getElem?_offsetsFrom (offset : UInt32) (slots : List Slot) (k : Nat) :
    (offsetsFrom offset slots)[k]? =
      if k ≤ slots.length then some (offset + .ofNat (place slots k)) else none := by
  induction slots generalizing offset k with
  | nil =>
    cases k with
    | zero => simp [offsetsFrom]
    | succ k => rfl
  | cons s slots ih =>
    cases k with
    | zero => simp [offsetsFrom]
    | succ k =>
      rw [offsetsFrom, List.getElem?_cons_succ, ih, add_place_cons, List.length_cons]
      simp only [Nat.add_le_add_iff_right]

theorem getElem?_offsets (slots : List Slot) (k : Nat) :
    (offsets slots)[k]? = if k ≤ slots.length then some (.ofNat (place slots k)) else none := by
  rw [offsets, List.getElem?_toArray, getElem?_offsetsFrom, UInt32.zero_add]

theorem offsetOf?_eq_some {d : Draft} {slots : List Slot} {l : Label} {offset : UInt32}
    (h : d.offsetOf? (offsets slots) l = some offset) :
    ∃ k, d.target? l = some k ∧ offset = .ofNat (place slots k) ∧ k ≤ slots.length := by
  obtain ⟨s, hs, h⟩ := Option.bind_eq_some_iff.1 h
  obtain ⟨k, hk, h⟩ := Option.bind_eq_some_iff.1 h
  rw [getElem?_offsets] at h
  split at h
  · cases h
    exact ⟨k, by rw [target?, hs, Option.bind_some, hk], rfl, ‹_›⟩
  · cases h

/-! ## The instructions of a layout -/

/-- The operand in a layout; `none` for a label that is not bound. -/
def laidOperand (offsetOf : Label → Option UInt32) : DraftOperand → Operand
  | .none => .none
  | .int v => .int v
  | .var v => .var v
  | .token t => .token t
  | .label l =>
    match offsetOf l with
    | some offset => .target offset
    | none => .none

/-- The instructions of a layout from `offset` on. -/
def laidFrom (offsetOf : Label → Option UInt32) (offset : UInt32) : List Slot → List Instruction
  | [] => []
  | s :: rest =>
    ⟨offset, s.opcode, laidOperand offsetOf s.instruction.operand⟩ ::
      laidFrom offsetOf (offset + .ofNat s.size) rest

theorem getElem?_laidFrom (offsetOf : Label → Option UInt32) (offset : UInt32) (slots : List Slot)
    (k : Nat) :
    (laidFrom offsetOf offset slots)[k]? = (slots[k]?).map fun s =>
      ⟨offset + .ofNat (place slots k), s.opcode, laidOperand offsetOf s.instruction.operand⟩ := by
  induction slots generalizing offset k with
  | nil => rfl
  | cons s slots ih =>
    cases k with
    | zero => simp [laidFrom]
    | succ k =>
      rw [laidFrom, List.getElem?_cons_succ, ih, List.getElem?_cons_succ, add_place_cons]

theorem operand_eq_ok {offsetOf : Label → Option UInt32} {o : DraftOperand} {r : Operand}
    (h : operand offsetOf o = .ok r) :
    r = laidOperand offsetOf o ∧ ∀ l, o = .label l → (offsetOf l).isSome := by
  cases o with
  | label l =>
    cases hl : offsetOf l with
    | none => simp only [operand, hl] at h; cases h
    | some offset =>
      simp only [operand, hl] at h
      cases h
      refine ⟨by simp only [laidOperand, hl], fun l' hl' => ?_⟩
      cases hl'
      rw [hl]
      rfl
  | none | int | var | token =>
    cases h
    exact ⟨rfl, fun l hl => by cases hl⟩

theorem encodeFrom_cons_eq_ok {offsetOf : Label → Option UInt32} {offset : UInt32} {s : Slot}
    {slots : List Slot} {code : List UInt8} (h : encodeFrom offsetOf offset (s :: slots) = .ok code) :
    ∃ r rest, operand offsetOf s.instruction.operand = .ok r ∧
      (Instruction.encode ⟨offset, s.opcode, r⟩).fits = true ∧
      encodeFrom offsetOf (offset + .ofNat s.size) slots = .ok rest ∧
      code = (Instruction.encode ⟨offset, s.opcode, r⟩).bytes ++ rest := by
  rw [encodeFrom] at h
  obtain ⟨r, hr, h⟩ := bind_eq_ok h
  dsimp only at h
  split at h
  · obtain ⟨rest, hrest, h⟩ := bind_eq_ok h
    cases h
    exact ⟨r, rest, hr, ‹_›, hrest, rfl⟩
  · cases h

/-- A layout that is encoded has all its labels bound and all its branches in reach, and is the
bytes of its instructions. -/
theorem encodeFrom_eq_ok {offsetOf : Label → Option UInt32} {offset : UInt32} {slots : List Slot}
    {code : List UInt8} (h : encodeFrom offsetOf offset slots = .ok code) :
    code = Instruction.bytesOf (laidFrom offsetOf offset slots) ∧
      (∀ i ∈ laidFrom offsetOf offset slots, i.encode.fits = true) ∧
      (∀ s ∈ slots, ∀ l, s.instruction.operand = .label l → (offsetOf l).isSome) := by
  induction slots generalizing offset code with
  | nil =>
    cases h
    exact ⟨rfl, by simp [laidFrom], by simp⟩
  | cons s slots ih =>
    obtain ⟨r, rest, hr, hfits, hrest, rfl⟩ := encodeFrom_cons_eq_ok h
    obtain ⟨rfl, hlabel⟩ := operand_eq_ok hr
    obtain ⟨rfl, hall, hlabels⟩ := ih hrest
    refine ⟨rfl, fun i hi => ?_, fun t ht => ?_⟩
    · rcases List.mem_cons.1 hi with rfl | hi
      · exact hfits
      · exact hall i hi
    · rcases List.mem_cons.1 ht with rfl | ht
      · exact hlabel
      · exact hlabels t ht

theorem length_bytesOf_laidFrom {offsetOf : Label → Option UInt32} {offset : UInt32} {slots : List Slot}
    (h : ∀ i ∈ laidFrom offsetOf offset slots, i.encode.fits = true) :
    (Instruction.bytesOf (laidFrom offsetOf offset slots)).length = place slots slots.length := by
  induction slots generalizing offset with
  | nil => rfl
  | cons s slots ih =>
    rw [laidFrom, Instruction.bytesOf_cons, List.length_append, List.length_cons, place_cons_succ,
      Instruction.length_bytes_of_encode (h _ (List.mem_cons_self ..)),
      ih fun i hi => h i (List.mem_cons_of_mem _ hi)]
    rfl

/-! ## Short and long forms -/

/-- What is short has a short form. -/
def Slot.Proper (s : Slot) : Prop := s.short = true → s.instruction.opcode.shortForm?.isSome

theorem Slot.instruction_widen (offsetOf : Label → Option UInt32) (next : UInt32) (s : Slot) :
    (s.widen offsetOf next).instruction = s.instruction := by
  unfold widen
  split <;> rfl

theorem Slot.proper_widen {offsetOf : Label → Option UInt32} {next : UInt32} {s : Slot} (h : s.Proper) :
    (s.widen offsetOf next).Proper := by
  unfold widen
  split
  · rename_i hb
    obtain ⟨l, hl, -⟩ := Option.bind_eq_some_iff.1 hb
    refine fun _ => h ?_
    unfold shortTarget? at hl
    split at hl
    · assumption
    · cases hl
  · exact h

theorem widenFrom_spec (offsetOf : Label → Option UInt32) (offset : UInt32) {slots : List Slot}
    (h : ∀ s ∈ slots, s.Proper) :
    (widenFrom offsetOf offset slots).map Slot.instruction = slots.map Slot.instruction ∧
      ∀ s ∈ widenFrom offsetOf offset slots, s.Proper := by
  induction slots generalizing offset with
  | nil => exact ⟨rfl, h⟩
  | cons s slots ih =>
    obtain ⟨hmap, hproper⟩ := ih (offset + .ofNat s.size) fun t ht => h t (List.mem_cons_of_mem _ ht)
    refine ⟨?_, fun t ht => ?_⟩
    · rw [widenFrom, List.map_cons, List.map_cons, Slot.instruction_widen, hmap]
    · rcases List.mem_cons.1 ht with rfl | ht
      · exact Slot.proper_widen (h s (List.mem_cons_self ..))
      · exact hproper t ht

/-- Settling the forms changes no instruction. -/
theorem settle_spec (d : Draft) {slots : List Slot} (h : ∀ s ∈ slots, s.Proper) :
    (d.settle slots).map Slot.instruction = slots.map Slot.instruction ∧
      ∀ s ∈ d.settle slots, s.Proper := by
  fun_induction d.settle slots with
  | case1 slots next hlt ih =>
    obtain ⟨hmap, hproper⟩ := widenFrom_spec (d.offsetOf? (offsets slots)) 0 h
    obtain ⟨hmap', hproper'⟩ := ih hproper
    exact ⟨hmap'.trans hmap, hproper'⟩
  | case2 slots next hlt => exact ⟨rfl, h⟩

/-- The layout that a finished draft has. -/
def settled (d : Draft) : List Slot := d.settle (d.code.toList.map Slot.start)

theorem settled_spec (d : Draft) :
    d.settled.map Slot.instruction = d.code.toList ∧ ∀ s ∈ d.settled, s.Proper := by
  have hstart : ∀ s ∈ d.code.toList.map Slot.start, s.Proper := by
    intro s hs
    obtain ⟨i, -, rfl⟩ := List.mem_map.1 hs
    exact id
  obtain ⟨hmap, hproper⟩ := settle_spec d hstart
  refine ⟨hmap.trans ?_, hproper⟩
  rw [List.map_map]
  exact List.map_id _

theorem finish_eq_ok {d : Draft} {body : FinishedBody} (h : d.finish = .ok body) :
    d.fault = none ∧ encodeFrom (d.offsetOf? (offsets d.settled)) 0 d.settled = .ok body.code ∧
      body.locals = d.locals.toList := by
  unfold finish at h
  split at h
  · cases h
  · rename_i hfault
    simp only at h
    split at h
    · cases h
    · obtain ⟨code, hcode, h⟩ := bind_eq_ok h
      cases h
      exact ⟨Option.eq_none_iff_forall_ne_some.2 fun f hf => hfault f hf, hcode, rfl⟩

/-! ## Decoding a layout -/

theorem shortForm?_spec {op op' : Opcode} (h : op.shortForm? = some op') :
    op.operandKind = .branch ∧ op'.operandKind = .shortBranch ∧
      ∀ imm, Machine.action? op' imm = Machine.action? op imm := by
  cases op <;> cases h <;> exact ⟨rfl, rfl, fun imm => by cases imm <;> rfl⟩

theorem Slot.opcode_eq {s : Slot} (h : s.Proper) :
    (s.short = true ∧ s.instruction.opcode.shortForm? = some s.opcode) ∨
      s.opcode = s.instruction.opcode := by
  unfold opcode
  cases hs : s.short with
  | false => exact .inr (by simp)
  | true =>
    obtain ⟨op, hop⟩ := Option.isSome_iff_exists.1 (h hs)
    exact .inl ⟨rfl, by simp [hop]⟩

/-- The short form of an instruction does what the long form does. -/
theorem Slot.action?_eq {s : Slot} (h : s.Proper) :
    Machine.action? s.opcode s.instruction.operand.immediate = s.instruction.action? := by
  rcases s.opcode_eq h with ⟨-, hshort⟩ | hlong
  · exact (shortForm?_spec hshort).2.2 _
  · rw [hlong, DraftInstruction.action?]

theorem immediate_laidOperand (offsetOf : Label → Option UInt32) (o : DraftOperand) :
    Machine.immediate (laidOperand offsetOf o) = o.immediate := by
  cases o with
  | label l => cases h : offsetOf l <;> simp [laidOperand, h, Machine.immediate, DraftOperand.immediate]
  | none | int | var | token => rfl

/-- The operand of an instruction in a layout fits, if it had the right shape in the draft and is no long
branch. -/
theorem fits_laid {offsetOf : Label → Option UInt32} {offset : UInt32} {s : Slot} (hproper : s.Proper)
    (hshape : s.instruction.Shaped)
    (hfits : (Instruction.encode
      ⟨offset, s.opcode, laidOperand offsetOf s.instruction.operand⟩).fits = true)
    (hend : offset.toNat + s.size < 2 ^ 32)
    (hlabel : ∀ l, s.instruction.operand = .label l → (offsetOf l).isSome) :
    Instruction.Fits ⟨offset, s.opcode, laidOperand offsetOf s.instruction.operand⟩ ∨
      Instruction.IsLongBranch
        ⟨offset, s.opcode, laidOperand offsetOf s.instruction.operand⟩ := by
  rcases s.opcode_eq hproper with ⟨-, hshort⟩ | hlong
  · obtain ⟨hkind, hkind', -⟩ := shortForm?_spec hshort
    -- the operand of a branch is a label, and a short branch that is encoded is in reach
    obtain ⟨l, hl⟩ : ∃ l, s.instruction.operand = .label l := by
      unfold DraftInstruction.Shaped at hshape
      rw [hkind] at hshape
      split at hshape <;> simp_all
    obtain ⟨t, ht⟩ := Option.isSome_iff_exists.1 (hlabel l hl)
    have hop : laidOperand offsetOf s.instruction.operand = .target t := by
      rw [hl, laidOperand, ht]
    rw [hop] at hfits ⊢
    have hdisplacement :=
      Instruction.displacement_eq_distance (i := ⟨offset, s.opcode, .target t⟩) hend t
    simp only [Instruction.encode, Instruction.operandBytes?, hkind', hdisplacement] at hfits
    left
    simp only [Instruction.Fits, hkind']
    split at hfits
    · rename_i hsome
      split at hsome
      · rename_i hbyte
        simpa [Instruction.fitsByte] using hbyte
      · cases hsome
    · cases hfits
  · rw [hlong] at hfits ⊢
    unfold DraftInstruction.Shaped at hshape
    unfold Instruction.Fits
    split at hshape
    · rename_i hkind hoperand
      simp [hkind, hoperand, laidOperand]
    · rename_i v hkind hoperand
      left
      simpa [hkind, hoperand, laidOperand, Instruction.fitsByte] using hshape
    · rename_i hkind hoperand
      simp [hkind, hoperand, laidOperand]
    · rename_i v hkind hoperand
      left
      simpa [hkind, hoperand, laidOperand] using hshape
    · rename_i hkind hoperand
      simp [hkind, hoperand, laidOperand]
    · rename_i l hkind hoperand
      obtain ⟨t, ht⟩ := Option.isSome_iff_exists.1 (hlabel l hoperand)
      exact .inr ⟨hkind, t, by simp only [hoperand, laidOperand, ht]⟩
    · rename_i hkind hoperand
      simp [hkind, hoperand, laidOperand]
    · exact hshape.elim

/-- A long branch inside the first half of the address space is in reach of its target. -/
theorem fits_of_near {i : Instruction} (hi : i.IsLongBranch) (hnext : i.offset.toNat + i.size < 2 ^ 31)
    (htarget : ∀ t, i.operand = .target t → t.toNat < 2 ^ 31) : i.Fits := by
  obtain ⟨hkind, t, ht⟩ := hi
  have hlt := htarget t ht
  simp only [Instruction.Fits, hkind, ht, Instruction.distance]
  omega

theorem toNat_add_size {offset : UInt32} {s : Slot} (h : offset.toNat + s.size < 2 ^ 32) :
    (offset + .ofNat s.size).toNat = offset.toNat + s.size := by
  rw [UInt32.toNat_add, UInt32.toNat_ofNat', Nat.add_mod_mod, Nat.mod_eq_of_lt h]

theorem consecutive_laidFrom (offsetOf : Label → Option UInt32) (offset : UInt32) (slots : List Slot)
    (h : offset.toNat + place slots slots.length < 2 ^ 32) :
    Instruction.Consecutive offset.toNat (laidFrom offsetOf offset slots) := by
  induction slots generalizing offset with
  | nil => trivial
  | cons s slots ih =>
    rw [List.length_cons, place_cons_succ] at h
    have hnext : (offset + .ofNat s.size).toNat = offset.toNat + s.size := toNat_add_size (by omega)
    have hrest := ih (offset + .ofNat s.size) (by rw [hnext]; omega)
    rw [hnext] at hrest
    exact ⟨rfl, hrest⟩

/-- The instruction at the offset of a place is the one with its number. -/
theorem find?_laidFrom (offsetOf : Label → Option UInt32) (offset : UInt32) (slots : List Slot)
    (h : offset.toNat + place slots slots.length < 2 ^ 32) (k : Nat) :
    (laidFrom offsetOf offset slots).find? (·.offset = offset + .ofNat (place slots k)) =
      (laidFrom offsetOf offset slots)[k]? := by
  induction slots generalizing offset k with
  | nil => simp [laidFrom]
  | cons s slots ih =>
    cases k with
    | zero => simp [laidFrom]
    | succ k =>
      rw [List.length_cons, place_cons_succ] at h
      have hle := place_le slots k
      have hpos := s.opcode.size_pos
      have hsize : s.size = s.opcode.size := rfl
      have hbound : (offset + .ofNat s.size).toNat + place slots slots.length < 2 ^ 32 := by
        rw [toNat_add_size (by omega)]
        omega
      have hne : offset ≠ offset + .ofNat (place (s :: slots) (k + 1)) := by
        intro heq
        have := congrArg UInt32.toNat heq
        rw [UInt32.toNat_add, UInt32.toNat_ofNat', place_cons_succ, Nat.add_mod_mod,
          Nat.mod_eq_of_lt (by omega)] at this
        omega
      rw [laidFrom, List.find?_cons_of_neg (by simpa only [decide_eq_true_eq] using hne),
        List.getElem?_cons_succ, ← add_place_cons]
      exact ih _ hbound k

section

variable {d : Draft} {body : FinishedBody}

/-- A target in a layout is the offset of a place. -/
theorem target_laidOperand {slots : List Slot} {o : DraftOperand} {t : UInt32}
    (h : laidOperand (d.offsetOf? (offsets slots)) o = .target t) :
    ∃ k, t = UInt32.ofNat (place slots k) := by
  cases o with
  | label l =>
    rw [laidOperand] at h
    split at h
    · rename_i offset hoffset
      cases h
      obtain ⟨k, -, rfl, -⟩ := offsetOf?_eq_some hoffset
      exact ⟨k, rfl⟩
    · cases h
  | none | int | var | token => cases h

/-- The instructions of a finished body. -/
def instructions (d : Draft) : List Instruction :=
  laidFrom (d.offsetOf? (offsets d.settled)) 0 d.settled

theorem getElem?_instructions (d : Draft) (k : Nat) :
    d.instructions[k]? = (d.settled[k]?).map fun s => ⟨.ofNat (place d.settled k), s.opcode,
      laidOperand (d.offsetOf? (offsets d.settled)) s.instruction.operand⟩ := by
  rw [instructions, getElem?_laidFrom, UInt32.zero_add]

theorem length_code_of_finish (h : d.finish = .ok body) :
    body.code.length = place d.settled d.settled.length := by
  obtain ⟨-, hcode, -⟩ := finish_eq_ok h
  obtain ⟨hbytes, hfits, -⟩ := encodeFrom_eq_ok hcode
  rw [hbytes, length_bytesOf_laidFrom hfits]

/-- The instructions of a finished body can be written, and only long branches may be out of reach. -/
theorem fits_instructions (h : d.finish = .ok body) (hshape : ∀ i ∈ d.code.toList, i.Shaped)
    (hlen : body.code.length < 2 ^ 32) :
    ∀ i ∈ d.instructions, (i.Fits ∨ i.IsLongBranch) ∧ i.encode.fits = true := by
  obtain ⟨-, hcode, -⟩ := finish_eq_ok h
  obtain ⟨hbytes, hfits, hlabels⟩ := encodeFrom_eq_ok hcode
  obtain ⟨hmap, hproper⟩ := settled_spec d
  have htotal := length_code_of_finish h
  intro i hi
  refine ⟨?_, hfits i hi⟩
  obtain ⟨k, hk⟩ := List.mem_iff_getElem?.1 hi
  rw [getElem?_instructions] at hk
  obtain ⟨s, hs, rfl⟩ := Option.map_eq_some_iff.1 hk
  have hmem := List.mem_of_getElem? hs
  have hinstr : s.instruction ∈ d.code.toList := hmap ▸ List.mem_map_of_mem hmem
  refine fits_laid (hproper s hmem) (hshape _ hinstr) (hfits _ hi) ?_ (hlabels s hmem)
  have hle := place_le d.settled (k + 1)
  rw [place_succ hs] at hle
  rw [UInt32.toNat_ofNat', Nat.mod_eq_of_lt (by omega)]
  omega

theorem bytesOf_instructions (h : d.finish = .ok body) :
    body.code = Instruction.bytesOf d.instructions := by
  obtain ⟨-, hcode, -⟩ := finish_eq_ok h
  exact (encodeFrom_eq_ok hcode).1

theorem consecutive_instructions (h : d.finish = .ok body) (hlen : body.code.length < 2 ^ 32) :
    Instruction.Consecutive 0 d.instructions := by
  have htotal := length_code_of_finish h
  exact consecutive_laidFrom _ 0 _ (by rw [UInt32.toNat_zero]; omega)

/-- **A finished body decodes to its instructions**, if it decodes, and if the operands of the draft have
the shapes that their opcodes declare. -/
theorem instructions_of_decodeStream (h : d.finish = .ok body)
    (hshape : ∀ i ∈ d.code.toList, i.Shaped) (hlen : body.code.length < 2 ^ 32)
    {is : List Instruction} (hdecode : Instruction.decodeStream body.code = .ok is) :
    is = d.instructions := by
  have hall := fits_instructions h hshape hlen
  have hconsecutive := consecutive_instructions h hlen
  have hbytes := bytesOf_instructions h
  rw [hbytes] at hlen hdecode
  have hfits := Instruction.fits_of_decodeFrom hconsecutive hall (by omega) hdecode
  have hdecode' := Instruction.decodeFrom_bytesOf hconsecutive
    (fun i hi => ⟨hfits i hi, (hall i hi).2⟩) (by omega)
  rw [Instruction.decodeStream, hdecode'] at hdecode
  cases hdecode
  rfl

/-- A finished body decodes if it is so short that all of it is in reach of every branch. -/
theorem decodeStream_of_finish (h : d.finish = .ok body) (hshape : ∀ i ∈ d.code.toList, i.Shaped)
    (hlen : body.code.length < 2 ^ 31) :
    Instruction.decodeStream body.code = .ok d.instructions := by
  have hall := fits_instructions h hshape (by omega)
  have htotal := length_code_of_finish h
  have hfits : ∀ i ∈ d.instructions, i.Fits := by
    intro i hi
    refine (hall i hi).1.elim id fun hbranch => ?_
    obtain ⟨k, hk⟩ := List.mem_iff_getElem?.1 hi
    rw [getElem?_instructions] at hk
    obtain ⟨s, hs, rfl⟩ := Option.map_eq_some_iff.1 hk
    have hle := place_le d.settled (k + 1)
    rw [place_succ hs] at hle
    refine fits_of_near hbranch ?_ fun t ht => ?_
    · show (UInt32.ofNat (place d.settled k)).toNat + s.size < 2 ^ 31
      rw [UInt32.toNat_ofNat', Nat.mod_eq_of_lt (by omega)]
      omega
    · obtain ⟨k', rfl⟩ := target_laidOperand ht
      have hle' := place_le d.settled k'
      rw [UInt32.toNat_ofNat', Nat.mod_eq_of_lt (by omega)]
      omega
  rw [bytesOf_instructions h, Instruction.decodeStream]
  refine Instruction.decodeFrom_bytesOf (consecutive_instructions h (by omega))
    (fun i hi => ⟨hfits i hi, (hall i hi).2⟩) ?_
  rw [← bytesOf_instructions h]
  omega

/-- The instruction behind the one at a place is at the next place. -/
theorem next_laid {slots : List Slot} {k : Nat} {s : Slot} (hs : slots[k]? = some s) (o : Operand) :
    Instruction.next ⟨UInt32.ofNat (place slots k), s.opcode, o⟩ =
      UInt32.ofNat (place slots (k + 1)) := by
  rw [place_succ hs, UInt32.ofNat_add]
  rfl

/-- A branch goes to the place that its label is bound to. -/
theorem target?_laid (h : d.finish = .ok body) {s : Slot} (hs : s ∈ d.settled) (offset : UInt32)
    (op : Opcode) :
    Instruction.target?
        ⟨offset, op, laidOperand (d.offsetOf? (offsets d.settled)) s.instruction.operand⟩ =
      (match s.instruction.operand with
        | .label l => d.target? l
        | _ => none).map fun k => UInt32.ofNat (place d.settled k) := by
  obtain ⟨-, hcode, -⟩ := finish_eq_ok h
  obtain ⟨-, -, hlabels⟩ := encodeFrom_eq_ok hcode
  cases ho : s.instruction.operand with
  | label l =>
    obtain ⟨t, ht⟩ := Option.isSome_iff_exists.1 (hlabels s hs l ho)
    obtain ⟨k, hk, rfl, -⟩ := offsetOf?_eq_some ht
    simp only [Instruction.target?, laidOperand, ht, hk, Option.map_some]
  | none | int | var | token => rfl

/-- **A finished body runs as its draft**, a place of the draft being the offset it has in the
body. -/
theorem fetch_of_finish (h : d.finish = .ok body) (hlen : body.code.length < 2 ^ 32) (pc : Nat) :
    Machine.fetch d.instructions (UInt32.ofNat (place d.settled pc)) =
      (d.fetch pc).map (·.map fun k => UInt32.ofNat (place d.settled k)) := by
  obtain ⟨hmap, hproper⟩ := settled_spec d
  have htotal := length_code_of_finish h
  have hfind : d.instructions.find? (·.offset = .ofNat (place d.settled pc)) = d.instructions[pc]? := by
    have hlaid := find?_laidFrom (d.offsetOf? (offsets d.settled)) 0 d.settled
      (by rw [UInt32.toNat_zero]; omega) pc
    rwa [UInt32.zero_add] at hlaid
  have hcodeAt : d.code[pc]? = (d.settled[pc]?).map Slot.instruction := by
    rw [← List.getElem?_map, hmap, Array.getElem?_toList]
  rw [Machine.fetch, hfind, getElem?_instructions, fetch, hcodeAt]
  cases hs : d.settled[pc]? with
  | none => rfl
  | some s =>
    have hmem := List.mem_of_getElem? hs
    have haction : Machine.action? s.opcode
        (Machine.immediate (laidOperand (d.offsetOf? (offsets d.settled)) s.instruction.operand)) =
        s.instruction.action? := by
      rw [immediate_laidOperand, Slot.action?_eq (hproper s hmem)]
    have hnext := next_laid hs (laidOperand (d.offsetOf? (offsets d.settled)) s.instruction.operand)
    have htarget := target?_laid h hmem (UInt32.ofNat (place d.settled pc)) s.opcode
    simp only [Option.map_some, Option.bind_eq_bind, Option.bind_some, haction, hnext, htarget]
    cases s.instruction.action? with
    | none => rfl
    | some action => rfl

end

end Draft

end CilScope
