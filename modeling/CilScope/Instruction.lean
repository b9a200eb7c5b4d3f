import CilScope.Bytes
import CilScope.Opcode
import CilScope.Token

/-!
# Instructions and their byte form

An instruction knows the offset it stands at, and a branch operand is the absolute offset of
its target, so nothing behind the codec deals with displacements. `Instruction.encode` gives the
bytes of one instruction at its own offset, `Instruction.decodeStream` reads a whole body.
-/

namespace CilScope

/-- An inline operand. -/
inductive Operand
  | none
  | int (value : Int32)
  /-- A local or argument index. -/
  | var (index : UInt16)
  /-- The absolute offset jumped to. -/
  | target (offset : UInt32)
  | token (token : Token)
  deriving DecidableEq, Repr, Inhabited

/-- An instruction at its offset in the body. -/
structure Instruction where
  offset : UInt32
  opcode : Opcode
  operand : Operand
  deriving DecidableEq, Repr, Inhabited

/-- What is wrong with a byte stream that is no method body. -/
inductive StreamError
  | unknownOpcode (offset : UInt32) (code : UInt16)
  | truncatedOperand (offset : UInt32) (opcode : Opcode)
  | branchOutOfRange (offset : UInt32)
  deriving DecidableEq, Repr, Inhabited

/-- The label shown for an offset. -/
def offsetLabel (offset : UInt32) : String := "IL_" ++ Text.Hex.padded 4 offset.toNat

/-- The wording of a stream error. -/
def StreamError.message : StreamError → String
  | unknownOpcode offset code =>
    "Unknown opcode 0x" ++ Text.Hex.padded 2 code.toNat ++ " at " ++ offsetLabel offset
  | truncatedOperand offset op =>
    "Truncated operand for " ++ op.mnemonic ++ " at " ++ offsetLabel offset
  | branchOutOfRange offset =>
    "Branch at " ++ offsetLabel offset ++ " leaves the address space"

/-- The bytes written for an instruction, and whether its operand could be stored. -/
structure Encoded where
  bytes : List UInt8
  fits : Bool
  deriving DecidableEq, Repr, Inhabited

namespace Instruction

/-- The number of bytes of the instruction. -/
def size (i : Instruction) : Nat := i.opcode.size

/-- The offset of the instruction that follows. -/
def next (i : Instruction) : UInt32 := i.offset + UInt32.ofNat i.size

/-- The offset jumped to, if the operand is one. -/
def target? (i : Instruction) : Option UInt32 :=
  match i.operand with
  | .target t => some t
  | _ => none

/-- The distance from the end of the instruction to `target`. -/
def displacement (i : Instruction) (target : UInt32) : Int := target.toNat - i.next.toNat

/-- Whether a distance can be stored in a signed byte. -/
def fitsByte (d : Int) : Bool := -128 ≤ d && d ≤ 127

/-- The bytes of the operand, or `none` when a short branch cannot reach its target. An operand
of another shape than the opcode declares is stored as zeros, which keeps the stream aligned. -/
def operandBytes? (i : Instruction) : Option (List UInt8) :=
  match i.opcode.operandKind, i.operand with
  | .none, _ => some []
  | .shortInt, .int v => some [v.toUInt32.toUInt8]
  | .int, .int v => some (Bytes.ofWord32 v.toUInt32)
  | .shortVar, .var v => some [v.toUInt8]
  | .var, .var v => some (Bytes.ofWord16 v)
  | .shortBranch, .target t =>
    let d := i.displacement t
    if fitsByte d then some [(Int8.ofInt d).toUInt8] else none
  | .branch, .target t => some (Bytes.ofWord32 (Int32.ofInt (i.displacement t)).toUInt32)
  | .token, .token t => some (Bytes.ofWord32 t.raw)
  | kind, _ => some (List.replicate kind.size 0)

/-- The byte form of the instruction at its offset. When a short branch cannot reach its target
only the opcode is written. -/
def encode (i : Instruction) : Encoded :=
  match i.operandBytes? with
  | some operand => ⟨i.opcode.bytes ++ operand, true⟩
  | none => ⟨i.opcode.bytes, false⟩

/-- The opcode at the head of `b :: rest`, and the bytes behind it. -/
def readOpcode (offset : UInt32) (b : UInt8) (rest : List UInt8) :
    Except StreamError (Opcode × List UInt8) :=
  if b = Opcode.leadByte then
    match rest with
    | [] => .error (.unknownOpcode offset b.toUInt16)
    | c :: rest =>
      match Opcode.ofSecondByte? c with
      | some op => .ok (op, rest)
      | none => .error (.unknownOpcode offset (0xFE00 + c.toUInt16))
  else
    match Opcode.ofByte? b with
    | some op => .ok (op, rest)
    | none => .error (.unknownOpcode offset b.toUInt16)

theorem length_le_of_readOpcode {offset : UInt32} {b : UInt8} {rest tail : List UInt8}
    {op : Opcode} (h : readOpcode offset b rest = .ok (op, tail)) : tail.length ≤ rest.length := by
  unfold readOpcode at h
  split at h
  · split at h
    · simp at h
    · split at h
      · simp_all
      · simp at h
  · split at h <;> simp_all

/-- The absolute target at distance `d` from position `next`. -/
def absolute (offset : UInt32) (next : Nat) (d : Int) : Except StreamError Operand :=
  let t := (next : Int) + d
  if 0 ≤ t ∧ t < 0x100000000 then .ok (.target (UInt32.ofNat t.toNat))
  else .error (.branchOutOfRange offset)

/-- The operand of `op` stored in `raw`, for an instruction at `offset` that ends at `next`. -/
def readOperand (offset : UInt32) (next : Nat) (op : Opcode) (raw : List UInt8) :
    Except StreamError Operand :=
  match op.operandKind, raw with
  | .none, _ => .ok .none
  | .shortInt, [b] => .ok (.int (Int32.ofInt b.toInt8.toInt))
  | .int, [b₀, b₁, b₂, b₃] => .ok (.int (Bytes.word32 b₀ b₁ b₂ b₃).toInt32)
  | .shortVar, [b] => .ok (.var b.toUInt16)
  | .var, [b₀, b₁] => .ok (.var (Bytes.word16 b₀ b₁))
  | .shortBranch, [b] => absolute offset next b.toInt8.toInt
  | .branch, [b₀, b₁, b₂, b₃] =>
    absolute offset next (Bytes.word32 b₀ b₁ b₂ b₃).toInt32.toInt
  | .token, [b₀, b₁, b₂, b₃] => .ok (.token ⟨Bytes.word32 b₀ b₁ b₂ b₃⟩)
  | _, _ => .error (.truncatedOperand offset op)

/-- The instructions of the bytes from position `pos` on. -/
def decodeFrom (pos : Nat) : List UInt8 → Except StreamError (List Instruction)
  | [] => .ok []
  | b :: rest =>
    let offset := UInt32.ofNat pos
    match h : readOpcode offset b rest with
    | .error e => .error e
    | .ok (op, tail) =>
      let next := pos + op.size
      match readOperand offset next op (tail.take op.operandKind.size) with
      | .error e => .error e
      | .ok operand =>
        have := length_le_of_readOpcode h
        match decodeFrom next (tail.drop op.operandKind.size) with
        | .error e => .error e
        | .ok is => .ok (⟨offset, op, operand⟩ :: is)
termination_by bytes => bytes.length
decreasing_by
  simp only [List.length_drop, List.length_cons]
  omega

/-- The instructions of a complete method body. -/
def decodeStream (code : List UInt8) : Except StreamError (List Instruction) := decodeFrom 0 code

end Instruction

end CilScope
