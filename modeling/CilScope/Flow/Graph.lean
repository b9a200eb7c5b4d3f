import CilScope.Instruction
import CilScope.Metadata.Basic

/-!
# The control-flow graph of a method body

A block is a maximal run of instructions that control enters at the top and leaves at the bottom.
Blocks start at offset zero, at every branch target, behind every instruction that ends a run, and
at every boundary of an exception clause. A handler is entered from the block that opens its
protected range, which keeps the graph single-entry. `Graph.build` refuses a body with a branch
or a clause that does not fall on an instruction.
-/

namespace CilScope.Flow

/-- What is wrong with an exception clause. -/
inductive ClauseDefect
  | notBoundary (offset : UInt32)
  | emptyRange
  deriving DecidableEq, Repr, Inhabited

/-- The wording of a clause defect. -/
def ClauseDefect.message : ClauseDefect → String
  | notBoundary offset => offsetLabel offset ++ " is not an instruction boundary"
  | emptyRange => "empty protected or handler range"

/-- Why a body has no control-flow graph. -/
inductive GraphError
  | badBranchTarget (offset target : UInt32)
  | badClause (defect : ClauseDefect)
  deriving DecidableEq, Repr, Inhabited

/-- The wording of a graph error in the method of this name. -/
def GraphError.message (method : String) : GraphError → String
  | badBranchTarget offset target =>
    "Branch at " ++ offsetLabel offset ++ " in " ++ method ++ " targets " ++ offsetLabel target ++
      ", which is not an instruction boundary"
  | badClause defect => "Malformed exception clause in " ++ method ++ ": " ++ defect.message

/-- A run of instructions with the blocks control can go to and come from, both ascending. -/
structure Block where
  /-- The index of the first instruction. -/
  first : Nat
  /-- One past the index of the last instruction. -/
  stop : Nat
  succs : List Nat
  preds : List Nat
  deriving DecidableEq, Repr, Inhabited

/-- The offsets at which the instructions of a body start, and the end of the code. -/
structure Offsets where
  starts : Array UInt32
  codeEnd : UInt32
  deriving DecidableEq, Repr, Inhabited

namespace Offsets

/-- The offsets of a body. -/
def ofCode (code : Array Instruction) : Offsets where
  starts := code.map (·.offset)
  codeEnd := match code.back? with
    | some last => last.next
    | none => 0

/-- The last index in `[base, base + size)` whose offset is not above `offset`, by bisection. -/
def bisect (starts : Array UInt32) (offset : UInt32) (base size : Nat) : Nat :=
  if size ≤ 1 then base
  else
    let half := size / 2
    bisect starts offset (if offset < starts.getD (base + half) 0 then base else base + half)
      (size - half)
termination_by size

/-- The index of the instruction at `offset`. -/
def indexOf? (o : Offsets) (offset : UInt32) : Option Nat :=
  let i := bisect o.starts offset 0 o.starts.size
  if o.starts[i]? = some offset then some i else none

/-- The offset of the instruction at `index`; behind the last one, the end of the code. -/
def offsetAt (o : Offsets) (index : Nat) : UInt32 := o.starts.getD index o.codeEnd

/-- The index of the instruction at `offset`, where the end of the code counts as one past the
last instruction. -/
def boundary? (o : Offsets) (offset : UInt32) : Option Nat :=
  if offset = o.codeEnd then some o.starts.size else o.indexOf? offset

end Offsets

/-- The control-flow graph of a body. -/
structure Graph where
  offsets : Offsets
  blocks : Array Block
  /-- The block of every instruction. -/
  blockOf : Array Nat
  deriving DecidableEq, Repr, Inhabited

namespace Graph

/-- The indices at which the instruction `i` at `index` makes a block start. -/
def branchLeaders (o : Offsets) (n : Nat) (i : Instruction) (index : Nat) :
    Except GraphError (List Nat) := do
  let after := if (i.target?.isSome || !i.opcode.fallsThrough) && index + 1 < n then [index + 1]
    else []
  match i.target? with
  | none => return after
  | some target =>
    match o.indexOf? target with
    | some t => return t :: after
    | none => throw (.badBranchTarget i.offset target)

/-- The index at which a clause boundary makes a block start; the end of the code makes none. -/
def boundaryLeader (o : Offsets) (offset : UInt32) : Except GraphError (List Nat) :=
  if offset = o.codeEnd then return []
  else
    match o.indexOf? offset with
    | some i => return [i]
    | none => throw (.badClause (.notBoundary offset))

/-- The indices at which a clause makes blocks start. -/
def clauseLeaders (o : Offsets) (c : Clause) : Except GraphError (List Nat) := do
  let marks ← [c.tryOffset, c.tryEnd, c.handlerOffset, c.handlerEnd].mapM (boundaryLeader o)
  if c.tryEnd ≤ c.tryOffset ∨ c.handlerEnd ≤ c.handlerOffset then throw (.badClause .emptyRange)
  return marks.flatten

/-- The ranges between consecutive starts; the last one ends at `n`. -/
def spans (n : Nat) : List Nat → List (Nat × Nat)
  | [] => []
  | [s] => [(s, n)]
  | s :: t :: rest => (s, t) :: spans n (t :: rest)

/-- The block of the instruction at `offset`. -/
def blockAt? (g : Graph) (offset : UInt32) : Option Nat :=
  (g.offsets.indexOf? offset).bind (g.blockOf[·]?)

/-- The blocks control can reach from the block at `index` with range `span`, in no order. -/
def targets (o : Offsets) (blockOf : Array Nat) (code : Array Instruction)
    (clauses : List Clause) (index : Nat) (span : Nat × Nat) : List Nat :=
  let blockAt? (offset : UInt32) := (o.indexOf? offset).bind (blockOf[·]?)
  let jumps := match code[span.2 - 1]? with
    | none => []
    | some last =>
      (last.target?.bind blockAt?).toList ++
        if last.opcode.fallsThrough && span.2 < code.size then [index + 1] else []
  jumps ++ clauses.filterMap fun c =>
    if blockAt? c.tryOffset = some index then blockAt? c.handlerOffset else none

/-- The control-flow graph of a body. -/
def build (instructions : List Instruction) (clauses : List Clause) : Except GraphError Graph := do
  let code := instructions.toArray
  let o := Offsets.ofCode code
  let n := code.size
  if n = 0 then return ⟨o, #[], #[]⟩
  let marks ← instructions.zipIdx.mapM fun (i, index) => branchLeaders o n i index
  let clauseMarks ← clauses.mapM (clauseLeaders o)
  let leaders := marks.flatten ++ clauseMarks.flatten
  let ranges := spans n ((List.range n).filter fun i => i == 0 || leaders.contains i)
  let blockOf := (ranges.zipIdx.flatMap fun ((s, e), k) => List.replicate (e - s) k).toArray
  let indices := List.range ranges.length
  let succs := (ranges.zipIdx.map fun (span, index) =>
    let reached := targets o blockOf code clauses index span
    indices.filter reached.contains).toArray
  let preds (b : Nat) := indices.filter fun p => (succs.getD p []).contains b
  let blocks := ranges.zipIdx.map fun ((first, stop), index) =>
    { first, stop, succs := succs.getD index [], preds := preds index }
  return ⟨o, blocks.toArray, blockOf⟩

/-- The blocks control can go to from block `b`. -/
def succs (g : Graph) (b : Nat) : List Nat := (g.blocks[b]?.map (·.succs)).getD []

/-- The blocks control can come from to block `b`. -/
def preds (g : Graph) (b : Nat) : List Nat := (g.blocks[b]?.map (·.preds)).getD []

/-- The number of blocks. -/
def size (g : Graph) : Nat := g.blocks.size

end Graph

end CilScope.Flow
