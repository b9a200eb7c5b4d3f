import CilScope.Flow.Dominators

/-!
# Natural loops

A back edge leads to a block that dominates its source. The loop of a header consists of the
header and all reachable blocks from which the source of a back edge can be reached without passing
through the header.
-/

namespace CilScope.Flow

/-- A loop: its header and its blocks, ascending, the header included. -/
structure Loop where
  header : Nat
  body : List Nat
  deriving DecidableEq, Repr, Inhabited

namespace Graph

/-- Adds to `members` every block of `work` and all reachable blocks that lead to it without
passing through a member. -/
def grow (g : Graph) (tree : Tree) (members work : List Nat) : List Nat :=
  match work with
  | [] => members
  | b :: work =>
    if h : b < g.size ∧ b ∉ members then
      have := missing_cons_lt h.1 h.2
      let before := (g.preds b).filter fun p => (tree.getD p none).isSome
      grow g tree (b :: members) (before ++ work)
    else
      grow g tree members work
termination_by (g.missing members, work.length)
decreasing_by
  · exact Prod.Lex.left _ _ this
  · exact Prod.Lex.right _ (by simp)

/-- The sources of the back edges to `header`. -/
def latches (g : Graph) (tree : Tree) (header : Nat) : List Nat :=
  (List.range g.size).filter fun b =>
    (tree.getD b none).isSome && (g.succs b).contains header && tree.dominates header b

/-- The natural loops, by ascending header. -/
def naturalLoops (g : Graph) : List Loop :=
  let tree := g.dominators
  (List.range g.size).filterMap fun header =>
    match g.latches tree header with
    | [] => none
    | latches =>
      let members := grow g tree [header] latches
      some ⟨header, (List.range g.size).filter members.contains⟩

end Graph

end CilScope.Flow
