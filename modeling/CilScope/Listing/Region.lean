import CilScope.Flow.Loops

/-!
# Regions of a method body

The control structures shown in a structured listing. Exception clauses give protected and handler
regions, natural loops give loops, and forward conditional branches give conditionals. The
candidates are put into a tree, outermost first; one that can be entered from outside, that
straddles a region of the tree, or whose test lies outside its parent is left out, and its
instructions stay flat.
-/

namespace CilScope.Listing

open CilScope.Flow

/-- What a region shows. -/
inductive RegionKind
  | protected_
  | handler (kind : ClauseKind)
  | loop
  /-- The test at `test` skips the first part; the second part, if any, starts at `split`. -/
  | conditional (test : Nat) (split : Option Nat)
  deriving DecidableEq, Repr, Inhabited

/-- The order among regions of one span, outermost first. -/
def RegionKind.rank : RegionKind → Nat
  | protected_ | handler _ => 0
  | conditional .. => 1
  | loop => 2

/-- Where the second part of a conditional starts. -/
def RegionKind.split? : RegionKind → Option Nat
  | conditional _ split => split
  | _ => none

/-- Whether index `i` lies at or behind the place where a second part starts. -/
def behindSplit (split : Option Nat) (i : Nat) : Bool :=
  match split with
  | some split => split ≤ i
  | none => false

/-- A range `[start, stop)` of instructions that shows a control structure. -/
structure Span where
  kind : RegionKind
  start : Nat
  stop : Nat
  deriving DecidableEq, Repr, Inhabited

namespace Span

/-- Whether `other` lies inside. -/
def contains (s other : Span) : Bool := s.start ≤ other.start && other.stop ≤ s.stop

/-- Whether the two have an instruction in common. -/
def overlaps (s other : Span) : Bool := other.start < s.stop && s.start < other.stop

/-- Outer before inner: by ascending start, then by descending end, then by rank. -/
def le (a b : Span) : Bool :=
  a.start < b.start || (a.start == b.start &&
    (b.stop < a.stop || (a.stop == b.stop && a.kind.rank ≤ b.kind.rank)))

/-- Whether `inner` may stand inside: it must not straddle the two parts of a conditional; a
conditional must have its test inside, and one that ends with a loop is left to read as a
`break` of that loop. -/
def admits (outer inner : Span) : Bool :=
  (match outer.kind.split? with
    | some split => !(inner.start < split && split < inner.stop)
    | none => true) &&
  match inner.kind with
  | .conditional test _ =>
    outer.start ≤ test && !(outer.kind == .loop && outer.stop == inner.stop)
  | _ => true

/-- A conditional without its second part. -/
def withoutElse? (s : Span) : Option Span :=
  match s.kind with
  | .conditional test (some split) => some ⟨.conditional test none, s.start, split⟩
  | _ => none

end Span

/-- A span with the regions nested in it: those of its only or first part, and those of the second
part of a conditional. -/
inductive Region
  | mk (span : Span) (body alternative : List Region)
  deriving Repr, Inhabited

namespace Region

/-- The range and what it shows. -/
def span : Region → Span
  | mk s _ _ => s

/-- Puts a span into a list of disjoint regions in ascending order, or refuses it. No region of
the list starts behind the span. -/
def insert (s : Span) : List Region → Option (List Region)
  | [] => some [mk s [] []]
  | mk outer body alternative :: rest =>
    if outer.contains s then
      if !outer.admits s then none
      else if behindSplit outer.kind.split? s.start then
        (insert s alternative).map fun alternative => mk outer body alternative :: rest
      else
        (insert s body).map fun body => mk outer body alternative :: rest
    else if outer.overlaps s then none
    else (insert s rest).map (mk outer body alternative :: ·)

/-- Puts a candidate into the tree. A conditional that does not fit is tried once more without its
second part: a first part that ends in a jump out of the enclosing loop looks as if it had one. -/
def add (tree : List Region) (s : Span) : List Region :=
  ((insert s tree).or (s.withoutElse?.bind (insert · tree))).getD tree

end Region

/-- The spans of a clause. -/
def clauseSpans (o : Offsets) (c : Clause) : List Span :=
  [(RegionKind.protected_, c.tryOffset, c.tryEnd),
   (RegionKind.handler c.kind, c.handlerOffset, c.handlerEnd)].filterMap fun (kind, start, stop) =>
    match o.boundary? start, o.boundary? stop with
    | some start, some stop => some ⟨kind, start, stop⟩
    | _, _ => none

/-- The spans of all clauses; a range protected by several handlers counts once. -/
def protectedSpans (o : Offsets) (clauses : List Clause) : List Span :=
  (clauses.flatMap (clauseSpans o)).foldl (fun found s =>
    if s.kind == .protected_ && found.contains s then found else found ++ [s]) []

/-- The span of a natural loop, if it is laid out behind its header and entered there only. -/
def loopSpan? (g : Graph) (l : Loop) : Option Span :=
  let block (b : Nat) := g.blocks.getD b default
  let start := (block l.header).first
  let stop := (l.body.map fun b => (block b).stop).foldl max 0
  let inside (b : Block) := decide (start ≤ b.first) && decide (b.first < stop)
  if l.body.any fun b => (block b).first < start then none
  else if g.blocks.all fun b =>
      !(decide (start < b.first) && inside b) || b.preds.all fun p => inside (block p) then
    some ⟨.loop, start, stop⟩
  else none

/-- Which part of a conditional `[start, stop)` an instruction is in: 0 for none. -/
def part (start stop : Nat) (split : Option Nat) (i : Nat) : Nat :=
  if start ≤ i ∧ i < stop then
    if behindSplit split i then 2 else 1
  else 0

/-- The span of the conditional whose test is the instruction `i` at `test`, given the index
every instruction jumps to. A jump at the end of the first part, over what follows, makes a second
part. Nothing but the test may jump into a part from outside it. -/
def conditionalSpan? (code : Array Instruction) (jumps : Array (Option Nat)) (i : Instruction)
    (test : Nat) : Option Span := do
  guard (i.opcode.flow = .condBranch)
  let target ← jumps.getD test none
  let start := test + 1
  guard (start < target)
  let last ← code[target - 1]?
  let join := if last.opcode = .br ∨ last.opcode = .brS then jumps.getD (target - 1) none else none
  let (split, stop) := match join with
    | some join => if target < join then (some target, join) else (none, target)
    | none => (none, target)
  let part := part start stop split
  guard (jumps.zipIdx.all fun (goal, from_) =>
    match goal with
    | some target => from_ == test || part target == 0 || part target == part from_
    | none => true)
  return ⟨.conditional test split, start, stop⟩

/-- The spans of all conditionals. -/
def conditionalSpans (g : Graph) (instructions : List Instruction) : List Span :=
  let code := instructions.toArray
  let jumps := code.map fun i => i.target?.bind g.offsets.indexOf?
  instructions.zipIdx.filterMap fun (i, test) => conditionalSpan? code jumps i test

/-- The region tree of a body. -/
def regions (instructions : List Instruction) (clauses : List Clause) (g : Graph) : List Region :=
  let candidates := protectedSpans g.offsets clauses ++ g.naturalLoops.filterMap (loopSpan? g) ++
    conditionalSpans g instructions
  (candidates.mergeSort Span.le).foldl Region.add []

end CilScope.Listing
