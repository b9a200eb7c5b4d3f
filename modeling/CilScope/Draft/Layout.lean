import CilScope.Draft.Basic

/-!
# Laying out a body

A finished draft becomes bytes. Every branch starts in its short form; a pass over the code widens
the branches that do not reach their targets, and passes are repeated as long as one of them
widens something. What is left short then reaches its target. `Draft.finish` is the whole of it.
Offsets are added up in 32 bits.
-/

namespace CilScope

/-- A body with its code in bytes. -/
structure FinishedBody where
  code : List UInt8
  instructionCount : Nat
  maxStack : UInt16
  locals : List LocalVar
  clauses : List Clause
  /-- The offsets that statements start at. -/
  points : List (UInt32 × Source.Position)
  deriving DecidableEq, Repr, Inhabited

namespace Draft

/-- A drafted instruction with the form chosen for it. -/
structure Slot where
  instruction : DraftInstruction
  short : Bool
  deriving DecidableEq, Repr, Inhabited

namespace Slot

/-- What can be short starts short. -/
def start (i : DraftInstruction) : Slot := ⟨i, i.opcode.shortForm?.isSome⟩

/-- The opcode in the chosen form. -/
def opcode (s : Slot) : Opcode :=
  if s.short then s.instruction.opcode.shortForm?.getD s.instruction.opcode
  else s.instruction.opcode

/-- The number of bytes of the chosen form. -/
def size (s : Slot) : Nat := s.opcode.size

/-- The label of a branch that is still short. -/
def shortTarget? (s : Slot) : Option Label :=
  match s.short, s.instruction.operand with
  | true, .label l => some l
  | _, _ => none

/-- The slot with its branch widened if it does not reach its target from `next`, the offset
behind it. -/
def widen (offsetOf : Label → Option UInt32) (next : UInt32) (s : Slot) : Slot :=
  match s.shortTarget?.bind offsetOf with
  | some target => { s with short := Instruction.fitsByte ((target.toNat : Int) - next.toNat) }
  | none => s

end Slot

/-- The offsets of the slots from `offset` on, and the offset behind them. -/
def offsetsFrom (offset : UInt32) : List Slot → List UInt32
  | [] => [offset]
  | s :: rest => offset :: offsetsFrom (offset + .ofNat s.size) rest

/-- The offsets of the instructions, and the length of the body. -/
def offsets (slots : List Slot) : Array UInt32 := (offsetsFrom 0 slots).toArray

/-- The offset a label is bound to in a layout. -/
def offsetOf? (d : Draft) (offsets : Array UInt32) (l : Label) : Option UInt32 :=
  (d.labels[l.index]?).bind fun s => s.target.bind (offsets[·]?)

/-- Widens the branches from `offset` on that do not reach their targets. -/
def widenFrom (offsetOf : Label → Option UInt32) (offset : UInt32) : List Slot → List Slot
  | [] => []
  | s :: rest =>
    let next := offset + .ofNat s.size
    s.widen offsetOf next :: widenFrom offsetOf next rest

/-- One pass of widening. -/
def widen (d : Draft) (slots : List Slot) : List Slot :=
  widenFrom (d.offsetOf? (offsets slots)) 0 slots

/-- Passes of widening until one widens nothing. -/
def settle (d : Draft) (slots : List Slot) : List Slot :=
  let next := d.widen slots
  if next.countP (·.short) < slots.countP (·.short) then d.settle next else slots
termination_by slots.countP (·.short)

/-- The operand of a drafted instruction in a layout. -/
def operand (offsetOf : Label → Option UInt32) : DraftOperand → Except GenerationFault Operand
  | .none => return .none
  | .int v => return .int v
  | .var v => return .var v
  | .token t => return .token t
  | .label l =>
    match offsetOf l with
    | some offset => return .target offset
    | none => throw (.unboundLabel l.index)

/-- The bytes of the slots from `offset` on. -/
def encodeFrom (offsetOf : Label → Option UInt32) (offset : UInt32) :
    List Slot → Except GenerationFault (List UInt8)
  | [] => return []
  | s :: rest => do
    let operand ← operand offsetOf s.instruction.operand
    let encoded := Instruction.encode ⟨offset, s.opcode, operand⟩
    unless encoded.fits do throw (.branchOutOfRange offset)
    return encoded.bytes ++ (← encodeFrom offsetOf (offset + .ofNat s.size) rest)

/-- The clause of a protected region in a layout. -/
def clause (offsets : Array UInt32) (c : DraftClause) : Clause :=
  let at_ (i : Nat) : UInt32 := offsets.getD i 0
  { kind := c.kind
    tryOffset := at_ c.tryStart
    tryLength := at_ c.handlerStart - at_ c.tryStart
    handlerOffset := at_ c.handlerStart
    handlerLength := at_ c.handlerStop - at_ c.handlerStart }

/-- Bodies below this length can have the small header. -/
def smallCodeLimit : Nat := 64

/-- The depth of the stack that goes with the small header. -/
def smallMaxStack : UInt16 := 8

/-- The depth of the stack that a body records: that of the small header if the body can have
one. -/
def maxStack (d : Draft) (codeLength : Nat) : UInt16 :=
  if codeLength < smallCodeLimit ∧ d.maxDepth ≤ smallMaxStack.toUInt32 ∧ d.locals.isEmpty ∧
      d.clauses.isEmpty then
    smallMaxStack
  else d.maxDepth.toUInt16

/-- The body of a finished draft. -/
def finish (d : Draft) : Except GenerationFault FinishedBody := do
  if let some fault := d.fault then throw fault
  let slots := d.code.toList.map Slot.start
  let isUnbound (l : Label) : Bool := (d.offsetOf? (offsets slots) l).isNone
  if let some l := (slots.filterMap Slot.shortTarget?).find? isUnbound then
    throw (.unboundLabel l.index)
  let slots := d.settle slots
  let offsets := offsets slots
  let code ← encodeFrom (d.offsetOf? offsets) 0 slots
  return {
    code
    instructionCount := d.code.size
    maxStack := d.maxStack code.length
    locals := d.locals.toList
    clauses := d.clauses.toList.map (clause offsets)
    points := d.points.toList.map fun (i, pos) => (offsets.getD i 0, pos) }

end Draft

end CilScope
