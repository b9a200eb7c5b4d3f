import CilScope.Flow.Graph

/-!
# Reverse postorder and dominators

A depth-first walk from the entry block gives the reverse postorder. A block dominates another one
if every path from the entry to the latter passes through the former; the immediate dominators
form a tree, which is refined pass by pass in reverse postorder: the parent of a block becomes the
nearest common ancestor of the parents' candidates, its predecessors placed so far.
-/

namespace CilScope.Flow.Graph

/-- How many blocks are not in a set. -/
def missing (g : Graph) (visited : List Nat) : Nat :=
  (List.range g.size).countP (· ∉ visited)

/-- How many edges and blocks a walk still has to leave behind. -/
def pending : List (Nat × List Nat) → Nat
  | [] => 0
  | (_, succs) :: rest => succs.length + 1 + pending rest

theorem countP_notMem_cons_lt {s : Nat} {visited l : List Nat} (hs : s ∈ l)
    (hv : s ∉ visited) : l.countP (· ∉ s :: visited) < l.countP (· ∉ visited) := by
  induction l with
  | nil => simp at hs
  | cons a l ih =>
    have le : l.countP (fun b => decide (b ∉ s :: visited)) ≤
        l.countP (fun b => decide (b ∉ visited)) :=
      List.countP_mono_left fun b _ h => by simp_all
    by_cases h : a = s
    · subst h
      simp [hv] at *
      omega
    · have := ih (by simpa [Ne.symm h] using hs)
      by_cases ha : a ∈ visited <;> simp [h, ha] at * <;> omega

/-- One more block in the set is one block less outside. -/
theorem missing_cons_lt {g : Graph} {visited : List Nat} {s : Nat} (hs : s < g.size)
    (hv : s ∉ visited) : g.missing (s :: visited) < g.missing visited :=
  countP_notMem_cons_lt (List.mem_range.2 hs) hv

/-- Continues a depth-first walk. The stack holds the blocks being left, each with the successors
still to be tried; `done` holds the blocks already left, the last one first. -/
def walk (g : Graph) (visited : List Nat) (stack : List (Nat × List Nat)) (done : List Nat) :
    List Nat :=
  match stack with
  | [] => done
  | (b, []) :: rest => walk g visited rest (b :: done)
  | (b, s :: succs) :: rest =>
    if h : s < g.size ∧ s ∉ visited then
      have := missing_cons_lt h.1 h.2
      walk g (s :: visited) ((s, g.succs s) :: (b, succs) :: rest) done
    else
      walk g visited ((b, succs) :: rest) done
termination_by (g.missing visited, pending stack)
decreasing_by
  · exact Prod.Lex.right _ (by simp [pending])
  · exact Prod.Lex.left _ _ this
  · exact Prod.Lex.right _ (by simp [pending])

/-- The blocks reachable from the entry, each before the blocks it leads to unless an edge goes
back. -/
def reversePostorder (g : Graph) : List Nat :=
  if g.size = 0 then [] else walk g [0] [(0, g.succs 0)] []

/-- The parent of every block in the dominator tree. The entry is its own parent, and a block
that has not been placed has none. -/
abbrev Tree := Array (Option Nat)

namespace Tree

/-- A block and its ancestors, going up at most `steps` times. -/
def chain (t : Tree) : (steps : Nat) → (b : Nat) → List Nat
  | 0, b => [b]
  | steps + 1, b =>
    match t.getD b none with
    | some up => if up = b then [b] else b :: chain t steps up
    | none => [b]

/-- A block and all its ancestors. -/
def ancestors (t : Tree) (b : Nat) : List Nat := t.chain t.size b

/-- Whether `a` is `b` or an ancestor of it. -/
def dominates (t : Tree) (a b : Nat) : Bool := (t.ancestors b).contains a

/-- The nearest common ancestor of two placed blocks. As long as the two differ, the one with the
higher number goes up to its parent; they have to meet within `steps`. -/
def meet (t : Tree) (number : Nat → Nat) : (steps : Nat) → (a b : Nat) → Option Nat
  | 0, a, b => if a = b then some a else none
  | steps + 1, a, b =>
    if a = b then some a
    else if number b < number a then
      match t.getD a none with
      | some up => if up = a then some b else meet t number steps up b
      | none => some b
    else if number a < number b then
      match t.getD b none with
      | some up => if up = b then some a else meet t number steps a up
      | none => some a
    else none

/-- The parent a block gets from its placed predecessors. -/
def parentOf (t : Tree) (number : Nat → Nat) (preds : List Nat) : Option (Option Nat) :=
  (preds.filter fun p => (t.getD p none).isSome).foldlM (fun found p =>
    match found with
    | none => some (some p)
    | some current => (t.meet number (t.size + t.size) p current).map some) none

/-- The tree with the parent of one block computed anew. -/
def refit (g : Graph) (number : Nat → Nat) (t : Tree) (b : Nat) : Option Tree :=
  (t.parentOf number (g.preds b)).map (t.setIfInBounds b)

/-- One pass over the blocks of `order`. -/
def pass (g : Graph) (number : Nat → Nat) (order : List Nat) (t : Tree) : Option Tree :=
  order.foldlM (refit g number) t

/-- Passes until nothing changes, which has to be within `passes`. -/
def refine (g : Graph) (number : Nat → Nat) (order : List Nat) : (passes : Nat) → Tree → Option Tree
  | 0, _ => none
  | passes + 1, t => do
    let next ← pass g number order t
    if next = t then some t else refine g number order passes next

end Tree

/-- The tree in which no block is placed. -/
def bare (g : Graph) : Tree := Array.replicate g.size none

/-- Where the passes over the blocks, numbered in reverse postorder, come to rest. Nothing comes of it if
they or two blocks that go up need longer than is allowed, which does not happen in a graph whose
edges are the same seen from either end. -/
def dominators? (g : Graph) : Option Tree :=
  match g.reversePostorder with
  | [] => some g.bare
  | entry :: order =>
    Tree.refine g (entry :: order).idxOf order (g.size + 1) (g.bare.setIfInBounds entry (some entry))

/-- The dominator tree: the immediate dominator of every reachable block, the entry being its own.
A parent only ever moves up the tree, so the passes come to rest. -/
def dominators (g : Graph) : Tree := g.dominators?.getD g.bare

end CilScope.Flow.Graph
