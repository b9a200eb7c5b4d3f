import CilScope.Instruction
import CilScope.Proofs.Bytes

/-!
# The instruction stream as a bijection

A byte string decodes to a list of instructions exactly when the list is well formed and its
instructions, encoded one behind the other, are the byte string (`decodeStream_eq_ok_iff`).
Well-formedness is stated on its own: offsets count from zero by the sizes of the instructions
(`Consecutive`), and every operand has the shape its opcode declares and the width of that shape
(`Fits`).

The two halves follow the two steps of decoding: `readOpcode_eq_ok_iff` for the opcode and
`readOperand_eq_ok_iff` for the operand.
-/

namespace CilScope

namespace Opcode

theorem mem_all (op : Opcode) : op ∈ all := by
  cases op <;> decide

theorem ofCode?_code (op : Opcode) : ofCode? op.code = some op := by
  have h : ∀ op ∈ all, ofCode? op.code = some op := by decide +kernel
  exact h op op.mem_all

theorem ofCode?_eq_some_iff {c : UInt16} {op : Opcode} : ofCode? c = some op ↔ op.code = c := by
  constructor
  · intro h
    have := List.find?_some h
    simpa using this
  · rintro rfl
    exact ofCode?_code op

/-- A code has one byte other than the lead byte, or the lead byte and one more. -/
theorem code_cases (op : Opcode) :
    (op.code ≤ 0xFF ∧ op.code.toUInt8 ≠ leadByte ∧ op.code = op.code.toUInt8.toUInt16) ∨
      (0xFF < op.code ∧ op.code = 0xFE00 + op.code.toUInt8.toUInt16) := by
  cases op <;> decide +kernel

/-- An opcode with a code of one byte is that byte. -/
theorem bytes_of_code_eq {op : Opcode} {b : UInt8} (h : op.code = b.toUInt16) :
    op.bytes = [b] := by
  have hb := b.toNat_lt
  have hsmall : ¬ 0xFF < op.code := by
    rw [h, UInt16.lt_iff_toNat_lt, UInt8.toNat_toUInt16]
    simp
    omega
  rw [bytes, if_neg hsmall, h, UInt8.toUInt8_toUInt16]

/-- An opcode whose code starts with the lead byte is the lead byte and the low byte. -/
theorem bytes_of_code_eq_add {op : Opcode} {c : UInt8} (h : op.code = 0xFE00 + c.toUInt16) :
    op.bytes = [leadByte, c] := by
  have hc := c.toNat_lt
  have hlarge : 0xFF < op.code := by
    rw [h, UInt16.lt_iff_toNat_lt, UInt16.toNat_add, UInt8.toNat_toUInt16]
    simp
    omega
  have hlow : op.code.toUInt8 = c := by
    rw [h, ← UInt8.toNat_inj, UInt16.toNat_toUInt8, UInt16.toNat_add, UInt8.toNat_toUInt16]
    simp
    omega
  rw [bytes, if_pos hlarge, hlow]

theorem length_bytes (op : Opcode) : op.bytes.length = op.codeSize := by
  unfold bytes codeSize
  split <;> rfl

theorem codeSize_pos (op : Opcode) : 0 < op.codeSize := by
  unfold codeSize
  split <;> decide

theorem size_pos (op : Opcode) : 0 < op.size :=
  Nat.lt_of_lt_of_le op.codeSize_pos (Nat.le_add_right _ _)

end Opcode

namespace Instruction

/-! ## Opcodes -/

/-- An opcode that was read is followed by the rest. -/
theorem eq_bytes_append_of_readOpcode {offset : UInt32} {b : UInt8} {rest tail : List UInt8}
    {op : Opcode} (h : readOpcode offset b rest = .ok (op, tail)) :
    b :: rest = op.bytes ++ tail := by
  unfold readOpcode at h
  split at h
  · rename_i hlead
    split at h
    · cases h
    · rename_i c rest
      split at h
      · rename_i op' hop
        cases h
        rw [Opcode.bytes_of_code_eq_add (Opcode.ofCode?_eq_some_iff.mp hop), hlead]
        rfl
      · cases h
  · rename_i hlead
    split at h
    · rename_i op' hop
      cases h
      rw [Opcode.ofByte?, if_neg hlead] at hop
      rw [Opcode.bytes_of_code_eq (Opcode.ofCode?_eq_some_iff.mp hop)]
      rfl
    · cases h

/-- The bytes of an opcode are read as that opcode. -/
theorem readOpcode_bytes (offset : UInt32) (op : Opcode) (tail : List UInt8) :
    ∃ b rest, op.bytes ++ tail = b :: rest ∧ readOpcode offset b rest = .ok (op, tail) := by
  rcases op.code_cases with ⟨-, hlead, hcode⟩ | ⟨-, hcode⟩
  · refine ⟨op.code.toUInt8, tail, by rw [Opcode.bytes_of_code_eq hcode]; rfl, ?_⟩
    unfold readOpcode
    rw [if_neg hlead, Opcode.ofByte?, if_neg hlead, ← hcode, Opcode.ofCode?_code]
  · refine ⟨Opcode.leadByte, op.code.toUInt8 :: tail,
      by rw [Opcode.bytes_of_code_eq_add hcode]; rfl, ?_⟩
    simp only [readOpcode, if_true, Opcode.ofSecondByte?, ← hcode, Opcode.ofCode?_code]

/-! ## Operands -/

/-- The displacement from the end of an instruction, counted without a limit. -/
def distance (i : Instruction) (target : UInt32) : Int :=
  target.toNat - (i.offset.toNat + i.size : Nat)

/-- The operand has the shape the opcode declares and fits its width. -/
def Fits (i : Instruction) : Prop :=
  match i.opcode.operandKind, i.operand with
  | .none, .none => True
  | .shortInt, .int v => -128 ≤ v.toInt ∧ v.toInt ≤ 127
  | .int, .int _ => True
  | .shortVar, .var v => v.toNat < 256
  | .var, .var _ => True
  | .shortBranch, .target t => -128 ≤ i.distance t ∧ i.distance t ≤ 127
  | .branch, .target t => -2147483648 ≤ i.distance t ∧ i.distance t ≤ 2147483647
  | .token, .token _ => True
  | _, _ => False

theorem displacement_eq_distance {i : Instruction} (h : i.offset.toNat + i.size < 2 ^ 32)
    (t : UInt32) : i.displacement t = i.distance t := by
  have hsize : i.size < 2 ^ 32 := by omega
  rw [displacement, distance, next, UInt32.toNat_add, UInt32.toNat_ofNat',
    Nat.mod_eq_of_lt hsize, Nat.mod_eq_of_lt h]

theorem absolute_eq_ok {offset : UInt32} {next : Nat} {d : Int} {operand : Operand}
    (h : absolute offset next d = .ok operand) :
    ∃ t : UInt32, operand = .target t ∧ (t.toNat : Int) = next + d := by
  simp only [absolute] at h
  split at h
  · rename_i hrange
    cases h
    refine ⟨_, rfl, ?_⟩
    rw [UInt32.toNat_ofNat', Nat.mod_eq_of_lt (by omega)]
    omega
  · cases h

theorem absolute_of_eq {offset t : UInt32} {next : Nat} {d : Int} (h : (t.toNat : Int) = next + d) :
    absolute offset next d = .ok (.target t) := by
  have ht := t.toNat_lt
  rw [absolute, if_pos (by omega), ← h, Int.toNat_natCast, UInt32.ofNat_toNat]

/-- The low byte of a signed word is the byte the word is cut to. -/
theorem low_byte_eq (v : Int32) : v.toUInt32.toUInt8 = v.toInt8.toUInt8 := by
  apply UInt8.toBitVec_inj.1
  show v.toBitVec.setWidth 8 = v.toBitVec.signExtend 8
  rw [BitVec.signExtend_eq_setWidth_of_le _ (by decide)]

/-- An operand that was read took all the bytes of its kind. -/
theorem length_of_readOperand {offset : UInt32} {next : Nat} {op : Opcode} {raw : List UInt8}
    {operand : Operand} (hraw : raw.length ≤ op.operandKind.size)
    (h : readOperand offset next op raw = .ok operand) : raw.length = op.operandKind.size := by
  unfold readOperand at h
  split at h
  · rename_i hkind
    rw [hkind] at hraw ⊢
    exact Nat.le_zero.mp hraw
  · rename_i hkind
    rw [hkind]
    rfl
  · rename_i hkind
    rw [hkind]
    rfl
  · rename_i hkind
    rw [hkind]
    rfl
  · rename_i hkind
    rw [hkind]
    rfl
  · rename_i hkind
    rw [hkind]
    rfl
  · rename_i hkind
    rw [hkind]
    rfl
  · rename_i hkind
    rw [hkind]
    rfl
  · cases h

/-- An operand that was read has the declared shape, fits it, and is written as it was read. -/
theorem fits_of_readOperand {pos : Nat} {op : Opcode} {raw : List UInt8} {operand : Operand}
    (hpos : pos + op.size < 2 ^ 32) (hraw : raw.length ≤ op.operandKind.size)
    (h : readOperand (UInt32.ofNat pos) (pos + op.size) op raw = .ok operand) :
    Fits ⟨UInt32.ofNat pos, op, operand⟩ ∧
      operandBytes? ⟨UInt32.ofNat pos, op, operand⟩ = some raw := by
  have hoffset : (UInt32.ofNat pos).toNat = pos := by
    rw [UInt32.toNat_ofNat', Nat.mod_eq_of_lt (by omega)]
  have hdisp : ∀ t : UInt32, displacement ⟨UInt32.ofNat pos, op, .target t⟩ t =
      distance ⟨UInt32.ofNat pos, op, .target t⟩ t :=
    fun t => displacement_eq_distance (by rw [hoffset]; exact hpos) t
  have hdist : ∀ t : UInt32,
      distance ⟨UInt32.ofNat pos, op, .target t⟩ t = t.toNat - (pos + op.size : Nat) := by
    intro t
    rw [distance, hoffset]
    rfl
  unfold readOperand at h
  split at h
  · rename_i hkind
    cases h
    rw [hkind] at hraw
    obtain rfl := List.eq_nil_of_length_eq_zero (Nat.le_zero.mp hraw)
    simp [Fits, operandBytes?, hkind]
  · rename_i b hkind
    cases h
    have hlow := Int8.le_toInt b.toInt8
    have hhigh := Int8.toInt_lt b.toInt8
    simp only [Fits, operandBytes?, hkind, low_byte_eq]
    simp
    omega
  · rename_i b₀ b₁ b₂ b₃ hkind
    cases h
    simp [Fits, operandBytes?, hkind, Bytes.ofWord32_word32]
  · rename_i b hkind
    cases h
    have hb := b.toNat_lt
    simp [Fits, operandBytes?, hkind]
    omega
  · rename_i b₀ b₁ hkind
    cases h
    simp [Fits, operandBytes?, hkind, Bytes.ofWord16_word16]
  · rename_i b hkind
    obtain ⟨t, rfl, ht⟩ := absolute_eq_ok h
    have hlow := Int8.le_toInt b.toInt8
    have hhigh := Int8.toInt_lt b.toInt8
    have hd : distance ⟨UInt32.ofNat pos, op, .target t⟩ t = b.toInt8.toInt := by
      rw [hdist, ht]
      omega
    simp only [Fits, operandBytes?, hkind, hdisp, hd, fitsByte]
    simp
    omega
  · rename_i b₀ b₁ b₂ b₃ hkind
    obtain ⟨t, rfl, ht⟩ := absolute_eq_ok h
    have hlow := Int32.le_toInt (Bytes.word32 b₀ b₁ b₂ b₃).toInt32
    have hhigh := Int32.toInt_lt (Bytes.word32 b₀ b₁ b₂ b₃).toInt32
    have hd : distance ⟨UInt32.ofNat pos, op, .target t⟩ t =
        (Bytes.word32 b₀ b₁ b₂ b₃).toInt32.toInt := by
      rw [hdist, ht]
      omega
    simp only [Fits, operandBytes?, hkind, hdisp, hd, Int32.ofInt_toInt, UInt32.toUInt32_toInt32,
      Bytes.ofWord32_word32]
    simp
    omega
  · rename_i b₀ b₁ b₂ b₃ hkind
    cases h
    simp [Fits, operandBytes?, hkind, Bytes.ofWord32_word32]
  · cases h

/-- An operand that fits is written in the width of its opcode and read back. -/
theorem readOperand_of_fits {i : Instruction} (hpos : i.offset.toNat + i.size < 2 ^ 32)
    (h : i.Fits) :
    ∃ raw, i.operandBytes? = some raw ∧ raw.length = i.opcode.operandKind.size ∧
      readOperand i.offset (i.offset.toNat + i.size) i.opcode raw = .ok i.operand := by
  obtain ⟨offset, op, operand⟩ := i
  have hdisp : ∀ t : UInt32,
      displacement ⟨offset, op, .target t⟩ t = distance ⟨offset, op, .target t⟩ t :=
    fun t => displacement_eq_distance (i := ⟨offset, op, .target t⟩) hpos t
  have habs : ∀ t : UInt32,
      absolute offset (offset.toNat + op.size) (distance ⟨offset, op, .target t⟩ t) =
        .ok (.target t) := by
    intro t
    apply absolute_of_eq
    simp only [distance, size]
    omega
  simp only [Fits] at h
  dsimp only
  cases hkind : op.operandKind with
  | none =>
    obtain rfl : operand = .none := by cases operand <;> simp_all
    exact ⟨[], by simp [operandBytes?, hkind], rfl, by simp [readOperand, hkind]⟩
  | shortInt =>
    obtain ⟨v, rfl⟩ : ∃ v, operand = .int v := by cases operand <;> simp_all
    simp only [hkind] at h
    refine ⟨[v.toUInt32.toUInt8], by simp [operandBytes?, hkind], rfl, ?_⟩
    rw [low_byte_eq]
    simp only [readOperand, hkind, Int8.toInt8_toUInt8, Int32.toInt_toInt8]
    rw [Int.bmod_eq_of_le (by omega) (by omega), Int32.ofInt_toInt]
  | int =>
    obtain ⟨v, rfl⟩ : ∃ v, operand = .int v := by cases operand <;> simp_all
    refine ⟨Bytes.ofWord32 v.toUInt32, by simp [operandBytes?, hkind], rfl, ?_⟩
    simp only [readOperand, hkind, Bytes.ofWord32, Bytes.word32_bytes, Int32.toInt32_toUInt32]
  | shortVar =>
    obtain ⟨v, rfl⟩ : ∃ v, operand = .var v := by cases operand <;> simp_all
    simp only [hkind] at h
    refine ⟨[v.toUInt8], by simp [operandBytes?, hkind], rfl, ?_⟩
    simp only [readOperand, hkind, Except.ok.injEq, Operand.var.injEq, ← UInt16.toNat_inj,
      UInt8.toNat_toUInt16, UInt16.toNat_toUInt8]
    omega
  | var =>
    obtain ⟨v, rfl⟩ : ∃ v, operand = .var v := by cases operand <;> simp_all
    refine ⟨Bytes.ofWord16 v, by simp [operandBytes?, hkind], rfl, ?_⟩
    simp only [readOperand, hkind, Bytes.ofWord16, Bytes.word16_bytes]
  | shortBranch =>
    obtain ⟨t, rfl⟩ : ∃ t, operand = .target t := by cases operand <;> simp_all
    simp only [hkind] at h
    refine ⟨[(Int8.ofInt (distance ⟨offset, op, .target t⟩ t)).toUInt8], ?_, rfl, ?_⟩
    · simp only [operandBytes?, hkind, hdisp, fitsByte]
      simp [h]
    · simp only [readOperand, hkind, Int8.toInt8_toUInt8]
      rw [Int8.toInt_ofInt_of_le (by omega) (by omega)]
      exact habs t
  | branch =>
    obtain ⟨t, rfl⟩ : ∃ t, operand = .target t := by cases operand <;> simp_all
    simp only [hkind] at h
    refine ⟨Bytes.ofWord32 (Int32.ofInt (distance ⟨offset, op, .target t⟩ t)).toUInt32, ?_, rfl, ?_⟩
    · simp only [operandBytes?, hkind, hdisp]
    · simp only [readOperand, hkind, Bytes.ofWord32, Bytes.word32_bytes, Int32.toInt32_toUInt32]
      rw [Int32.toInt_ofInt_of_le (by omega) (by omega)]
      exact habs t
  | token =>
    obtain ⟨t, rfl⟩ : ∃ t, operand = .token t := by cases operand <;> simp_all
    refine ⟨Bytes.ofWord32 t.raw, by simp [operandBytes?, hkind], rfl, ?_⟩
    simp only [readOperand, hkind, Bytes.ofWord32, Bytes.word32_bytes]

/-! ## Streams -/

/-- The offsets count from `pos` on, each the one before it plus the size of the instruction
there. -/
def Consecutive (pos : Nat) : List Instruction → Prop
  | [] => True
  | i :: rest => i.offset.toNat = pos ∧ Consecutive (pos + i.size) rest

/-- What a stream may hold: instructions one behind the other from offset zero, with operands that
fit. -/
structure WellFormed (is : List Instruction) : Prop where
  consecutive : Consecutive 0 is
  fits : ∀ i ∈ is, i.Fits

/-- The bytes of instructions one behind the other. -/
def bytesOf (is : List Instruction) : List UInt8 := is.flatMap fun i => i.encode.bytes

theorem encode_of_operandBytes? {i : Instruction} {raw : List UInt8}
    (h : i.operandBytes? = some raw) : i.encode = ⟨i.opcode.bytes ++ raw, true⟩ := by
  rw [encode, h]

theorem length_of_operandBytes? {i : Instruction} {raw : List UInt8}
    (h : i.operandBytes? = some raw) : raw.length = i.opcode.operandKind.size := by
  unfold operandBytes? at h
  split at h
  case h_9 =>
    cases h
    exact List.length_replicate
  case h_6 hkind _ =>
    rw [hkind]
    simp only at h
    split at h
    · cases h
      rfl
    · cases h
  case h_1 hkind =>
    cases h
    rw [hkind]
    rfl
  all_goals
    rename_i hkind _
    cases h
    rw [hkind]
    rfl

/-- An instruction that can be written takes as many bytes as its size says. -/
theorem length_bytes_of_encode {i : Instruction} (h : i.encode.fits = true) :
    i.encode.bytes.length = i.size := by
  cases hbytes : i.operandBytes? with
  | none =>
    rw [encode, hbytes] at h
    cases h
  | some raw =>
    rw [encode_of_operandBytes? hbytes, List.length_append, Opcode.length_bytes,
      length_of_operandBytes? hbytes, size, Opcode.size]

theorem bytesOf_cons (i : Instruction) (is : List Instruction) :
    bytesOf (i :: is) = i.encode.bytes ++ bytesOf is := rfl

/-- A decoded stream is well formed, and its instructions are written as they were read. -/
theorem bytesOf_of_decodeFrom {pos : Nat} {code : List UInt8} {is : List Instruction}
    (hlen : pos + code.length < 2 ^ 32) (h : decodeFrom pos code = .ok is) :
    Consecutive pos is ∧ (∀ i ∈ is, i.Fits ∧ i.encode.fits = true) ∧ bytesOf is = code := by
  fun_induction decodeFrom pos code generalizing is with
  | case1 pos =>
    cases h
    simp [Consecutive, bytesOf]
  | case2 | case3 | case4 => cases h
  | case5 pos b rest offset op tail hop next operand hoperand hle is' hrest =>
    rename_i ih
    cases h
    have hcode := eq_bytes_append_of_readOpcode hop
    have hraw : (tail.take op.operandKind.size).length ≤ op.operandKind.size := by
      rw [List.length_take]
      omega
    have hfull := length_of_readOperand hraw hoperand
    have hsize : (b :: rest).length = op.size + (tail.drop op.operandKind.size).length := by
      rw [hcode, List.length_append, Opcode.length_bytes, Opcode.size, List.length_drop]
      rw [List.length_take] at hfull
      omega
    have hnext : next < 2 ^ 32 := by omega
    obtain ⟨hfits, hbytes⟩ := fits_of_readOperand hnext hraw hoperand
    obtain ⟨hconsecutive, hall, htail⟩ := ih (by omega) hrest
    have hencode := encode_of_operandBytes? hbytes
    refine ⟨⟨?_, hconsecutive⟩, ?_, ?_⟩
    · rw [UInt32.toNat_ofNat', Nat.mod_eq_of_lt (by omega)]
    · intro i hi
      rcases List.mem_cons.mp hi with rfl | hi
      · exact ⟨hfits, by rw [hencode]⟩
      · exact hall i hi
    · rw [bytesOf_cons, hencode, htail, hcode, List.append_assoc, List.take_append_drop]

/-- One instruction that was written is read back first. -/
theorem decodeFrom_append {i : Instruction} {raw : List UInt8} (hraw : i.operandBytes? = some raw)
    (rest : List UInt8) :
    decodeFrom i.offset.toNat (i.encode.bytes ++ rest) =
      match readOperand i.offset (i.offset.toNat + i.size) i.opcode raw with
      | .error e => .error e
      | .ok operand =>
        match decodeFrom (i.offset.toNat + i.size) rest with
        | .error e => .error e
        | .ok is => .ok (⟨i.offset, i.opcode, operand⟩ :: is) := by
  obtain ⟨b, tail, hcode, hop⟩ := readOpcode_bytes i.offset i.opcode (raw ++ rest)
  rw [encode_of_operandBytes? hraw, List.append_assoc, hcode]
  rw [decodeFrom, UInt32.ofNat_toNat]
  split
  · rename_i e herror
    rw [hop] at herror
    cases herror
  · rename_i op tail hread
    rw [hop] at hread
    cases hread
    rw [← length_of_operandBytes? hraw, List.take_left, List.drop_left]
    rfl

/-- The bytes of a well-formed list of instructions decode to the list. -/
theorem decodeFrom_bytesOf {pos : Nat} {is : List Instruction} (hconsecutive : Consecutive pos is)
    (hall : ∀ i ∈ is, i.Fits ∧ i.encode.fits = true) (hlen : pos + (bytesOf is).length < 2 ^ 32) :
    decodeFrom pos (bytesOf is) = .ok is := by
  induction is generalizing pos with
  | nil => rw [bytesOf, List.flatMap_nil, decodeFrom]
  | cons i is ih =>
    obtain ⟨rfl, hconsecutive⟩ := hconsecutive
    obtain ⟨hfits, hencoded⟩ := hall i (List.mem_cons_self ..)
    have hsize := length_bytes_of_encode hencoded
    rw [bytesOf_cons, List.length_append, hsize] at hlen
    obtain ⟨raw, hbytes, -, hoperand⟩ := readOperand_of_fits (by omega) hfits
    have htail := ih hconsecutive (fun j hj => hall j (List.mem_cons_of_mem _ hj)) (by omega)
    rw [bytesOf_cons, decodeFrom_append hbytes, hoperand, htail]

/-! ## Long branches

The displacement of a long branch is cut to 32 bits when it is written, so one that is out of reach is
written too; but it is not read back. -/

/-- A long branch, whether its target is in reach or not. -/
def IsLongBranch (i : Instruction) : Prop :=
  i.opcode.operandKind = .branch ∧ ∃ t, i.operand = .target t

/-- A long branch that can be read is in reach of its target. -/
theorem fits_of_readOperand_branch {i : Instruction} {raw : List UInt8} {operand : Operand}
    (hpos : i.offset.toNat + i.size < 2 ^ 32) (hi : i.IsLongBranch)
    (hraw : i.operandBytes? = some raw)
    (h : readOperand i.offset (i.offset.toNat + i.size) i.opcode raw = .ok operand) : i.Fits := by
  obtain ⟨hkind, t, ht⟩ := hi
  simp only [operandBytes?, hkind, ht, displacement_eq_distance hpos, Option.some.injEq] at hraw
  subst hraw
  simp only [readOperand, hkind, Bytes.ofWord32, Bytes.word32_bytes, Int32.toInt32_toUInt32] at h
  obtain ⟨t', -, ht'⟩ := absolute_eq_ok h
  have hlt := t.toNat_lt
  have hlt' := t'.toNat_lt
  have hdistance : i.distance t = t.toNat - (i.offset.toNat + i.size : Nat) := rfl
  simp only [Fits, hkind, ht]
  -- both targets have the same residue, so they are the same
  rw [Int32.toInt_ofInt, Int.bmod, show ((Int32.size : Nat) : Int) = 4294967296 from rfl] at ht'
  split at ht' <;> omega

/-- The instructions of a stream that can be decoded fit, if all but the long branches do. -/
theorem fits_of_decodeFrom {pos : Nat} {is js : List Instruction} (hconsecutive : Consecutive pos is)
    (hall : ∀ i ∈ is, (i.Fits ∨ i.IsLongBranch) ∧ i.encode.fits = true)
    (hlen : pos + (bytesOf is).length < 2 ^ 32) (h : decodeFrom pos (bytesOf is) = .ok js) :
    ∀ i ∈ is, i.Fits := by
  induction is generalizing pos js with
  | nil => exact fun i hi => absurd hi List.not_mem_nil
  | cons i is ih =>
    obtain ⟨rfl, hconsecutive⟩ := hconsecutive
    obtain ⟨hfits, hencoded⟩ := hall i (List.mem_cons_self ..)
    have hsize := length_bytes_of_encode hencoded
    rw [bytesOf_cons, List.length_append, hsize] at hlen
    obtain ⟨raw, hraw⟩ : ∃ raw, i.operandBytes? = some raw := by
      cases hbytes : i.operandBytes? with
      | none => rw [encode, hbytes] at hencoded; cases hencoded
      | some raw => exact ⟨raw, rfl⟩
    rw [bytesOf_cons, decodeFrom_append hraw] at h
    cases hoperand : readOperand i.offset (i.offset.toNat + i.size) i.opcode raw with
    | error e => rw [hoperand] at h; cases h
    | ok operand =>
      rw [hoperand] at h
      have hfirst : i.Fits :=
        hfits.elim id fun hi => fits_of_readOperand_branch (by omega) hi hraw hoperand
      cases hrest : decodeFrom (i.offset.toNat + i.size) (bytesOf is) with
      | error e => rw [hrest] at h; cases h
      | ok js' =>
        have := ih hconsecutive (fun j hj => hall j (List.mem_cons_of_mem _ hj)) (by omega) hrest
        exact List.forall_mem_cons.2 ⟨hfirst, this⟩

/-- **The instruction stream codec is a bijection.** Bytes decode to a list of instructions exactly
when the list is well formed, every instruction can be written, and writing them one behind the
other gives the bytes. -/
theorem decodeStream_eq_ok_iff {code : List UInt8} (hlen : code.length < 2 ^ 32)
    (is : List Instruction) :
    decodeStream code = .ok is ↔
      WellFormed is ∧ (∀ i ∈ is, i.encode.fits = true) ∧ bytesOf is = code := by
  constructor
  · intro h
    obtain ⟨hconsecutive, hall, hcode⟩ := bytesOf_of_decodeFrom (by omega) h
    exact ⟨⟨hconsecutive, fun i hi => (hall i hi).1⟩, fun i hi => (hall i hi).2, hcode⟩
  · rintro ⟨⟨hconsecutive, hfits⟩, hencoded, rfl⟩
    exact decodeFrom_bytesOf hconsecutive (fun i hi => ⟨hfits i hi, hencoded i hi⟩) (by omega)

/-- A jump forward over a `nop` and a jump back to it. -/
theorem decodeStream_jumps :
    [0x2B, 0x01, 0x00, 0x2B, 0xFD, 0x2A].length < 2 ^ 32 ∧
      decodeStream [0x2B, 0x01, 0x00, 0x2B, 0xFD, 0x2A] =
        .ok [⟨0, .brS, .target 3⟩, ⟨2, .nop, .none⟩, ⟨3, .brS, .target 2⟩, ⟨5, .ret, .none⟩] := by
  refine ⟨by decide, (decodeStream_eq_ok_iff (by decide) _).mpr ⟨⟨?_, ?_⟩, ?_, ?_⟩⟩
  · simp [Consecutive, size, Opcode.size, Opcode.codeSize, Opcode.code, Opcode.operandKind,
      OperandKind.size]
  · simp [Fits, distance, size, Opcode.size, Opcode.codeSize, Opcode.code, Opcode.operandKind,
      OperandKind.size]
  · decide
  · decide

end Instruction

end CilScope
