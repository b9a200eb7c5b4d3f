import CilScope.Listing.Region

/-!
# Outlines

The lines of a structured body before names are put in: every instruction once, in stream order,
between the lines that open and close its regions. A branch over the edge of a region around it is
shown by what it does there.
-/

namespace CilScope.Listing

open CilScope.Flow

/-- What a branch does at the edge of a region. -/
inductive Jump
  | continue_
  | break_
  | else_
  | endif
  deriving DecidableEq, Repr, Inhabited

/-- The word shown for a jump. -/
def Jump.text : Jump → String
  | continue_ => "continue"
  | break_ => "break"
  | else_ => "else"
  | endif => "endif"

/-- A line of an outline. -/
inductive Item
  /-- The instruction at an index. -/
  | instruction (index : Nat) (jump : Option Jump)
  /-- The line that names a region. -/
  | heading (span : Span)
  /-- The line between the two parts of a conditional. -/
  | otherwise
  /-- The brace that opens a block. -/
  | opening
  /-- The brace that closes a block, with what it ends. -/
  | closing (kind : Option RegionKind)
  deriving DecidableEq, Repr, Inhabited

namespace Outline

/-- What a branch to `target` does at the edge of a region it stands in. -/
def jumpOut? (o : Offsets) (target : UInt32) (s : Span) : Option Jump :=
  match s.kind with
  | .loop =>
    if o.offsetAt s.start = target then some .continue_
    else if o.offsetAt s.stop = target then some .break_
    else none
  | .conditional .. => if o.offsetAt s.stop = target then some .endif else none
  | _ => none

/-- What the test of a conditional does by branching to `target`. -/
def testJump? (o : Offsets) (target : UInt32) (s : Span) : Option Jump :=
  if s.kind.split?.map o.offsetAt = some target then some .else_
  else if o.offsetAt s.stop = target then some .endif
  else none

/-- What the instruction at `index` is shown to do, where `next` is the region behind it and
`around` are the regions it stands in, innermost first. -/
def jump? (o : Offsets) (code : Array Instruction) (around : List Span) (next : Option Span)
    (index : Nat) : Option Jump := do
  let target ← (← code[index]?).target?
  let test? := next.bind fun s =>
    match s.kind with
    | .conditional test _ => if test = index then testJump? o target s else none
    | _ => none
  test?.or (around.findSome? (jumpOut? o target))

/-- The instructions of `[start, stop)`, shown flat. -/
def flat (o : Offsets) (code : Array Instruction) (around : List Span) (next : Option Span)
    (start stop : Nat) : List Item :=
  (List.range' start (stop - start)).map fun i => .instruction i (jump? o code around next i)

/-- The items of `[start, stop)` with these regions in it. -/
def items (o : Offsets) (code : Array Instruction) (around : List Span) (start stop : Nat) :
    List Region → List Item
  | [] => flat o code around none start stop
  | .mk s body alternative :: rest =>
    if s.start < stop then
      let inner := s :: around
      let split := s.kind.split?.getD s.stop
      flat o code around (some s) start s.start ++
        [.heading s, .opening] ++ items o code inner s.start split body ++
        (if s.kind.split?.isSome then
          [.closing none, .otherwise, .opening] ++ items o code inner split s.stop alternative
        else []) ++
        [.closing (some s.kind)] ++ items o code around s.stop stop rest
    else flat o code around (some s) start stop

end Outline

/-- The outline of a body. -/
def outline (instructions : List Instruction) (clauses : List Clause) (g : Graph) : List Item :=
  let code := instructions.toArray
  Outline.items g.offsets code [] 0 code.size (regions instructions clauses g)

end CilScope.Listing
