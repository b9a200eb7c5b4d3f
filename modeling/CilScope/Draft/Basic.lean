import CilScope.BuildError
import CilScope.Metadata.Basic
import CilScope.Source.Position

/-!
# Method bodies under construction

A draft collects the instructions of one body. Branches go to labels, which are bound to a place
in the code before or after their use. The draft knows how deep the evaluation stack is and
whether the next instruction can be reached: behind a jump it cannot, until a label is bound that
a branch already targets, and then the stack is as deep as that branch left it. A limit of the
instruction formats that is exceeded is remembered and reported when the body is laid out.
-/

namespace CilScope

/-- A place in a draft that branches can go to. -/
structure Label where
  index : Nat
  deriving DecidableEq, Repr, Inhabited

/-- What is known of a label. -/
structure LabelState where
  /-- The instruction it is bound to. -/
  target : Option Nat := none
  /-- The depth of the stack there. -/
  depth : Option UInt32 := none
  deriving DecidableEq, Repr, Inhabited

/-- The operand of a drafted instruction. -/
inductive DraftOperand
  | none
  | int (value : Int32)
  | var (index : UInt16)
  | label (target : Label)
  | token (token : Token)
  deriving DecidableEq, Repr, Inhabited

/-- A drafted instruction. Branches are drafted in their long form. -/
structure DraftInstruction where
  opcode : Opcode
  operand : DraftOperand
  deriving DecidableEq, Repr, Inhabited

/-- A protected region with its handler, by instructions. The handler starts where the region
ends. -/
structure DraftClause where
  kind : ClauseKind
  tryStart : Nat
  handlerStart : Nat
  handlerStop : Nat
  deriving DecidableEq, Repr, Inhabited

/-- A handler that is still open. -/
structure OpenHandler where
  kind : ClauseKind
  tryStart : Nat
  start : Nat
  deriving DecidableEq, Repr, Inhabited

/-- A method body under construction. -/
structure Draft where
  code : Array DraftInstruction := #[]
  labels : Array LabelState := #[]
  locals : Array LocalVar := #[]
  clauses : Array DraftClause := #[]
  /-- The instructions that statements start at. -/
  points : Array (Nat × Source.Position) := #[]
  /-- How deep the stack is. -/
  depth : UInt32 := 0
  maxDepth : UInt32 := 0
  unreachable : Bool := false
  /-- The first limit that was exceeded. -/
  fault : Option GenerationFault := none
  deriving DecidableEq, Repr, Inhabited

/-- How many values an opcode takes from the stack and how many it leaves there, for the opcodes
for which no signature decides that. -/
def Opcode.stackEffect : Opcode → UInt32 × UInt32
  | .ldarg0 | .ldarg1 | .ldarg2 | .ldarg3 | .ldloc0 | .ldloc1 | .ldloc2 | .ldloc3 | .ldnull
  | .ldcI4M1 | .ldcI40 | .ldcI41 | .ldcI42 | .ldcI43 | .ldcI44 | .ldcI45 | .ldcI46 | .ldcI47
  | .ldcI48 | .ldstr | .ldsfld => (0, 1)
  | .stloc0 | .stloc1 | .stloc2 | .stloc3 | .pop | .throw | .stsfld => (1, 0)
  | .dup => (1, 2)
  | .add | .sub | .mul | .div | .rem | .and | .or | .xor | .ceq | .cgt | .clt | .ldelemRef => (2, 1)
  | .neg | .not | .convI4 | .box | .ldlen | .ldfld => (1, 1)
  | .stfld => (2, 0)
  | op => if op.flow = .condBranch then (1, 0) else (0, 0)

namespace Draft

/-! ### Labels -/

/-- A fresh label, not yet bound. -/
def newLabel (d : Draft) : Draft × Label :=
  ({ d with labels := d.labels.push {} }, ⟨d.labels.size⟩)

/-- Binds a label to the next instruction. Code behind a jump becomes reachable again if a branch
targets the label. -/
def mark (d : Draft) (l : Label) : Draft :=
  let known : Option UInt32 := (d.labels[l.index]?).bind (·.depth)
  let bound : LabelState :=
    { target := some d.code.size, depth := if d.unreachable then known else known.or d.depth }
  let d' := { d with labels := d.labels.setIfInBounds l.index bound }
  if d.unreachable then
    match known with
    | some depth => { d' with depth, unreachable := false }
    | none => { d' with depth := 0 }
  else d'

/-- A fresh label bound to the next instruction. -/
def here (d : Draft) : Draft × Label :=
  let (d, l) := d.newLabel
  (d.mark l, l)

/-- The next instruction. It takes a label of its own, which touches neither the stack nor what
can be reached. -/
def anchor (d : Draft) : Draft × Nat :=
  ({ d with labels := d.labels.push { target := some d.code.size } }, d.code.size)

/-- Whether the next instruction can be reached. -/
def isReachable (d : Draft) : Bool := !d.unreachable

/-! ### Instructions -/

/-- Remembers the first exceeded limit. -/
def exceed (d : Draft) (fault : GenerationFault) : Draft := { d with fault := d.fault.or fault }

/-- The depth of a stack that `pops` values are taken from. There is nothing below its ground. -/
def below (depth pops : UInt32) : UInt32 := .ofNat (depth.toNat - pops.toNat)

/-- Appends an instruction that takes `pops` values and leaves `pushes`. -/
def push (d : Draft) (opcode : Opcode) (operand : DraftOperand) (pops pushes : UInt32) : Draft :=
  let depth := below d.depth pops + pushes
  let maxDepth := max d.maxDepth depth
  let code := d.code.push { opcode, operand }
  if opcode.fallsThrough then { d with code, depth, maxDepth }
  else { d with code, depth := 0, maxDepth, unreachable := true }

/-- Appends an instruction without operand. -/
def emit (d : Draft) (op : Opcode) : Draft := d.push op .none op.stackEffect.1 op.stackEffect.2

/-- Appends an instruction with a token that is no call. -/
def emitToken (d : Draft) (op : Opcode) (t : Token) : Draft :=
  d.push op (.token t) op.stackEffect.1 op.stackEffect.2

/-- Appends a call. -/
def emitCall (d : Draft) (op : Opcode) (t : Token) (pops pushes : UInt32) : Draft :=
  d.push op (.token t) pops pushes

/-- The opcode that loads one of the small constants. -/
def constantOpcode? (v : Int32) : Option Opcode :=
  [((-1 : Int32), Opcode.ldcI4M1), (0, .ldcI40), (1, .ldcI41), (2, .ldcI42), (3, .ldcI43),
   (4, .ldcI44), (5, .ldcI45), (6, .ldcI46), (7, .ldcI47), (8, .ldcI48)].lookup v

/-- Loads a constant, in the shortest form. -/
def loadInt (d : Draft) (v : Int32) : Draft :=
  match constantOpcode? v with
  | some op => d.emit op
  | none => d.push (if Instruction.fitsByte v.toInt then .ldcI4S else .ldcI4) (.int v) 0 1

/-- An access to a variable in the shortest form: without an operand for the first four, with a
byte for those below 256, else with the long operand. -/
def access (d : Draft) (first : List Opcode) (short long : Opcode) (index : UInt16)
    (pops pushes : UInt32) : Draft :=
  match first[index.toNat]? with
  | some op => d.emit op
  | none => d.push (if index.toNat < 256 then short else long) (.var index) pops pushes

/-- Loads a local. -/
def loadLocal (d : Draft) (index : UInt16) : Draft :=
  d.access [.ldloc0, .ldloc1, .ldloc2, .ldloc3] .ldlocS .ldloc index 0 1

/-- Stores a local. -/
def storeLocal (d : Draft) (index : UInt16) : Draft :=
  d.access [.stloc0, .stloc1, .stloc2, .stloc3] .stlocS .stloc index 1 0

/-- Loads an argument. -/
def loadArg (d : Draft) (index : UInt16) : Draft :=
  d.access [.ldarg0, .ldarg1, .ldarg2, .ldarg3] .ldargS .ldarg index 0 1

/-- Stores an argument; only the first 256 can be stored. -/
def storeArg (d : Draft) (index : UInt16) : Draft :=
  let d := if 255 < index.toNat then d.exceed (.argumentOutOfRange index.toNat) else d
  d.push .stargS (.var index) 1 0

/-- How many values a branch takes from the stack. -/
def branchPops : Opcode → UInt32
  | .br | .leave => 0
  | .brfalse | .brtrue => 1
  | _ => 2

/-- Appends a branch. The first branch to a label decides how deep the stack is there; leaving a
protected region empties it. -/
def branch (d : Draft) (op : Opcode) (l : Label) : Draft :=
  let depth := if op = .leave then 0 else d.depth
  let expected := below depth (branchPops op)
  let labels := d.labels.modify l.index fun s => { s with depth := s.depth.or expected }
  { d with labels, depth }.push op (.label l) (branchPops op) 0

/-! ### Locals, positions and protected regions -/

/-- Declares a local and gives its slot. -/
def declareLocal (d : Draft) (sig : TypeSig) (name : Option String) : Draft × UInt16 :=
  let slot := d.locals.size
  let d' := { d with locals := d.locals.push { sig, name } }
  if slot < 0x10000 then (d', UInt16.ofNat slot) else (d'.exceed .tooManyLocals, 0xFFFF)

/-- Notes that a statement starts here. -/
def point (d : Draft) (pos : Source.Position) : Draft :=
  let (d, index) := d.anchor
  { d with points := d.points.push (index, pos) }

/-- Opens a protected region. -/
def beginTry (d : Draft) : Draft × Nat := d.anchor

/-- Ends the region that starts at `tryStart` and opens its handler. A handler can always be
reached, and one that catches finds the exception on the stack. -/
def beginHandler (d : Draft) (tryStart : Nat) (kind : ClauseKind) : Draft × OpenHandler :=
  let (d, start) := d.anchor
  let depth : UInt32 := match kind with
    | .catch_ _ => 1
    | .finally_ => 0
  ({ d with depth, maxDepth := max d.maxDepth depth, unreachable := false },
    { kind, tryStart, start })

/-- Ends a handler. -/
def endHandler (d : Draft) (h : OpenHandler) : Draft :=
  let (d, stop) := d.anchor
  let clause : DraftClause :=
    { kind := h.kind, tryStart := h.tryStart, handlerStart := h.start, handlerStop := stop }
  { d with clauses := d.clauses.push clause }

end Draft

end CilScope
