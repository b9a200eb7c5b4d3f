import CilScope.Proofs.Flow.Dominators

/-!
# Natural loops

The loops of a graph are its natural loops. A back edge leads from a block that can be reached to a block
that dominates it (`BackEdge`). The loop of a header consists of the header and the blocks that can be
reached and from which a path leads to the source of a back edge around the header (`Around`). The
worklist that grows a loop from those sources finds exactly these blocks (`mem_grow_iff`): what it adds leads
to a source (`forall_mem_grow`), and in the end nothing is left to be added (`pursued_grow`).
-/

namespace CilScope.Flow.Graph

/-- An edge from a block that can be reached to one that dominates it. -/
def BackEdge (g : Graph) (source header : Nat) : Prop :=
  g.Reachable source ∧ source ∈ g.preds header ∧ g.Dominates header source

/-- A path leads from `b` to `l` that does not pass through the header. -/
inductive Around (g : Graph) (header : Nat) : (b l : Nat) → Prop
  | refl {l : Nat} (hl : l ≠ header) : Around g header l l
  | step {b s l : Nat} (hb : b ≠ header) (hs : s ∈ g.succs b) (h : Around g header s l) :
      Around g header b l

variable {g : Graph} {header a b l : Nat}

theorem Around.ne (h : g.Around header b l) : b ≠ header := by
  cases h with
  | refl hl => exact hl
  | step hb => exact hb

/-- What dominates the end of a path and is not on it dominates its start. -/
theorem Around.dominates (h : g.Around header b l) (hl : g.Dominates header l) :
    g.Dominates header b := by
  induction h with
  | refl => exact hl
  | step _ hs hrest ih => exact StrictlyDominates.pred ⟨Ne.symm hrest.ne, ih hl⟩ hs

/-! ## The worklist -/

section

variable {tree : Tree} {members work : List Nat}

/-- What holds of the members and of the worklist, and with every block but the header of its placed
predecessors, holds of all that is added. -/
theorem forall_mem_grow {P : Nat → Prop} (hheader : header ∈ members)
    (hmembers : ∀ b ∈ members, P b) (hwork : ∀ b ∈ work, P b)
    (hstep : ∀ b, P b → b ≠ header → ∀ p ∈ g.preds b, (tree.getD p none).isSome → P p) :
    ∀ b ∈ grow g tree members work, P b := by
  fun_induction grow g tree members work with
  | case1 => exact hmembers
  | case2 members b work hb _ before ih =>
    obtain ⟨hPb, hwork⟩ := List.forall_mem_cons.1 hwork
    have hne : b ≠ header := fun heq => hb.2 (heq ▸ hheader)
    refine ih (List.mem_cons_of_mem _ hheader) (List.forall_mem_cons.2 ⟨hPb, hmembers⟩) ?_
    intro p hp
    rcases List.mem_append.1 hp with hp | hp
    · obtain ⟨hpreds, hplaced⟩ := List.mem_filter.1 hp
      exact hstep b hPb hne p hpreds hplaced
    · exact hwork p hp
  | case3 members b work _ ih => exact ih hheader hmembers (List.forall_mem_cons.1 hwork).2

/-- The placed predecessors of every member but the header are members too or in the worklist. -/
def Pursued (g : Graph) (tree : Tree) (header : Nat) (members work : List Nat) : Prop :=
  ∀ b ∈ members, b ≠ header → ∀ p ∈ g.preds b, (tree.getD p none).isSome → p ∈ members ∨ p ∈ work

/-- In the end all of the worklist has been added, and with it all that it leads to. -/
theorem pursued_grow (hg : g.Linked) (hwork : ∀ b ∈ work, b < g.size)
    (h : Pursued g tree header members work) :
    work ⊆ grow g tree members work ∧ Pursued g tree header (grow g tree members work) [] := by
  fun_induction grow g tree members work with
  | case1 members => exact ⟨List.nil_subset _, h⟩
  | case2 members b work hb _ before ih =>
    obtain ⟨-, hwork⟩ := List.forall_mem_cons.1 hwork
    have hbefore : ∀ p ∈ before ++ work, p < g.size := by
      intro p hp
      rcases List.mem_append.1 hp with hp | hp
      · exact lt_size_of_mem_succs ((hg.inverse p b).2 (List.mem_filter.1 hp).1)
      · exact hwork p hp
    have hnext : Pursued g tree header (b :: members) (before ++ work) := by
      intro c hc hne p hp hplaced
      rcases List.mem_cons.1 hc with rfl | hc
      · exact .inr (List.mem_append_left _ (List.mem_filter.2 ⟨hp, hplaced⟩))
      · have hmem := h c hc hne p hp hplaced
        simp only [List.mem_cons, List.mem_append] at hmem ⊢
        tauto
    obtain ⟨hadded, hend⟩ := ih hbefore hnext
    refine ⟨List.cons_subset.2 ⟨mem_grow g tree (List.mem_cons_self ..), ?_⟩, hend⟩
    exact fun c hc => hadded (List.mem_append_right _ hc)
  | case3 members b work hb ih =>
    obtain ⟨hlt, hwork⟩ := List.forall_mem_cons.1 hwork
    have hmem : b ∈ members := by tauto
    have hnext : Pursued g tree header members work := by
      intro c hc hne p hp hplaced
      rcases h c hc hne p hp hplaced with hp | hp
      · exact .inl hp
      · rcases List.mem_cons.1 hp with rfl | hp
        · exact .inl hmem
        · exact .inr hp
    obtain ⟨hadded, hend⟩ := ih hwork hnext
    exact ⟨List.cons_subset.2 ⟨mem_grow g tree hmem, hadded⟩, hend⟩

end

/-- A loop that is grown from blocks that can be reached consists of the header and of the blocks that can
be reached and lead to one of them around the header. -/
theorem mem_grow_iff (hg : g.Linked) {sources : List Nat} (hsources : ∀ l ∈ sources, g.Reachable l) :
    b ∈ grow g g.dominators [header] sources ↔
      b = header ∨ g.Reachable b ∧ ∃ l ∈ sources, g.Around header b l := by
  constructor
  · let P (b : Nat) : Prop := b = header ∨ g.Reachable b ∧ ∃ l ∈ sources, g.Around header b l
    have hsource : ∀ c ∈ sources, P c := by
      intro c hc
      by_cases heq : c = header
      · exact .inl heq
      · exact .inr ⟨hsources c hc, c, hc, .refl heq⟩
    have hstep : ∀ c, P c → c ≠ header → ∀ p ∈ g.preds c, (g.dominators.getD p none).isSome → P p := by
      intro c hc hne p hp hplaced
      by_cases heq : p = header
      · exact .inl heq
      · obtain ⟨-, l, hl, haround⟩ := hc.resolve_left hne
        exact .inr ⟨(isSome_dominators_iff hg).1 hplaced, l, hl,
          .step heq ((hg.inverse p c).2 hp) haround⟩
    exact forall_mem_grow (P := P) (List.mem_singleton.2 rfl) (by simp [P]) hsource hstep b
  · have hstart : Pursued g g.dominators header [header] sources := by simp [Pursued]
    obtain ⟨hadded, hend⟩ := pursued_grow hg (fun l hl => (hsources l hl).lt hg) hstart
    rintro (rfl | ⟨hreach, l, hl, haround⟩)
    · exact mem_grow g _ (List.mem_singleton.2 rfl)
    · induction haround with
      | refl => exact hadded hl
      | @step c s l hne hs hrest ih =>
        have hmem := ih (hreach.step hs) hl
        simpa using hend s hmem hrest.ne c ((hg.inverse c s).1 hs)
          ((isSome_dominators_iff hg).2 hreach)

/-! ## The loops of a graph -/

theorem mem_latches_iff (hg : g.Linked) : l ∈ g.latches g.dominators header ↔ g.BackEdge l header := by
  simp only [latches, List.mem_filter, List.mem_range, Bool.and_eq_true, List.contains_iff_mem,
    isSome_dominators_iff hg]
  constructor
  · rintro ⟨-, ⟨hreach, hs⟩, hdom⟩
    exact ⟨hreach, (hg.inverse l header).1 hs, (dominates_iff hg hreach).1 hdom⟩
  · rintro ⟨hreach, hp, hdom⟩
    exact ⟨hreach.lt hg, ⟨hreach, (hg.inverse l header).2 hp⟩, (dominates_iff hg hreach).2 hdom⟩

/-- The loop of a header. -/
def loopAt (g : Graph) (header : Nat) : Loop :=
  ⟨header, (List.range g.size).filter
    (grow g g.dominators [header] (g.latches g.dominators header)).contains⟩

/-- The loops are those of the headers, in the order of the blocks. -/
theorem naturalLoops_eq (g : Graph) : g.naturalLoops =
    ((List.range g.size).filter fun header => !(g.latches g.dominators header).isEmpty).map g.loopAt := by
  rw [naturalLoops, ← List.filterMap_eq_map, List.filterMap_filter]
  refine List.filterMap_congr fun header _ => ?_
  cases hlatches : g.latches g.dominators header with
  | nil => rfl
  | cons l ls => simp [loopAt, hlatches]

theorem mem_loopAt (hg : g.Linked) (hheader : header < g.size) : b ∈ (g.loopAt header).body ↔
    b = header ∨ g.Reachable b ∧ ∃ l, g.BackEdge l header ∧ g.Around header b l := by
  have hsources : ∀ l ∈ g.latches g.dominators header, g.Reachable l := fun l hl =>
    ((mem_latches_iff hg).1 hl).1
  simp only [loopAt, List.mem_filter, List.mem_range, List.contains_iff_mem,
    mem_grow_iff hg hsources, mem_latches_iff hg]
  refine ⟨And.right, fun h => ⟨?_, h⟩⟩
  rcases h with rfl | ⟨hreach, -⟩
  · exact hheader
  · exact hreach.lt hg

/-- **The loops of a graph are its natural loops.** There is one for each block that is the target of a back
edge, in ascending order. It consists of its header and of the blocks that can be reached and lead to the
source of a back edge around the header, each of them once and in ascending order; and the header dominates
all of them. -/
theorem naturalLoops_exact (hg : g.Linked) :
    (g.naturalLoops.map (·.header)).Pairwise (· < ·) ∧
    (∀ header, header ∈ g.naturalLoops.map (·.header) ↔ ∃ l, g.BackEdge l header) ∧
    ∀ loop ∈ g.naturalLoops,
      loop.body.Pairwise (· < ·) ∧
      (∀ b, b ∈ loop.body ↔ b = loop.header ∨
        g.Reachable b ∧ ∃ l, g.BackEdge l loop.header ∧ g.Around loop.header b l) ∧
      ∀ b ∈ loop.body, g.Dominates loop.header b := by
  have hheaders : g.naturalLoops.map (·.header) =
      (List.range g.size).filter fun header => !(g.latches g.dominators header).isEmpty := by
    rw [naturalLoops_eq, List.map_map]
    exact List.map_id _
  rw [hheaders]
  refine ⟨List.pairwise_lt_range.filter _, ?_, ?_⟩
  · intro header
    simp only [List.mem_filter, List.mem_range, Bool.not_eq_true', List.isEmpty_eq_false_iff_exists_mem,
      mem_latches_iff hg]
    refine ⟨And.right, fun h => ⟨?_, h⟩⟩
    obtain ⟨l, -, hp, -⟩ := h
    exact lt_size_of_mem_preds hp
  · intro loop hloop
    rw [naturalLoops_eq] at hloop
    obtain ⟨header, hheader, rfl⟩ := List.mem_map.1 hloop
    have hlt : header < g.size := List.mem_range.1 (List.mem_filter.1 hheader).1
    refine ⟨List.pairwise_lt_range.filter _, fun b => mem_loopAt hg hlt, fun b hb => ?_⟩
    rcases (mem_loopAt hg hlt).1 hb with rfl | ⟨-, l, hback, haround⟩
    · exact .refl g b
    · exact haround.dominates hback.2.2

/-- A loop with two back edges to its header, and an edge to the header from a block that cannot be
reached. -/
def twofold : Graph where
  offsets := ⟨#[], 0⟩
  blocks := #[⟨0, 1, [1], []⟩, ⟨1, 2, [2], [0, 2, 3, 4]⟩, ⟨2, 3, [1, 3], [1]⟩, ⟨3, 4, [1], [2]⟩,
    ⟨4, 5, [1], []⟩]
  blockOf := #[0, 1, 2, 3, 4]

/-- The sources of both back edges are in one loop, and the block that cannot be reached is not in it. -/
theorem naturalLoops_twofold : twofold.Linked ∧
    ∃ loop ∈ twofold.naturalLoops, loop.header = 1 ∧ 2 ∈ loop.body ∧ 3 ∈ loop.body ∧ 4 ∉ loop.body := by
  have hlinked : twofold.Linked := linked_of_forall (by decide) (by decide) (by decide)
  have hpath : twofold.Path [2, 1, 0] 2 :=
    .step (.step (.entry (by decide)) (by decide)) (by decide)
  -- a block with one predecessor is dominated by it, and one with none cannot be reached
  have hdom {p b : Nat} (hb : b ≠ 0) (hp : twofold.preds b = [p]) : twofold.Dominates p b := by
    intro trace htrace
    cases htrace with
    | entry => exact absurd rfl hb
    | @step trace c _ h hs =>
      obtain rfl : c = p := List.mem_singleton.1 (hp ▸ (hlinked.inverse c b).1 hs)
      exact List.mem_cons_of_mem _ h.last_mem
  have hunreachable : ¬twofold.Reachable 4 := by
    rintro ⟨trace, htrace⟩
    cases htrace with
    | @step trace c _ h hs => exact absurd ((hlinked.inverse c 4).1 hs) List.not_mem_nil
  have hdom₂ : twofold.Dominates 1 2 := hdom (by decide) rfl
  have hback₂ : twofold.BackEdge 2 1 := ⟨⟨_, hpath⟩, by decide, hdom₂⟩
  have hback₃ : twofold.BackEdge 3 1 :=
    ⟨⟨_, .step hpath (by decide)⟩, by decide, hdom₂.trans (hdom (by decide) rfl)⟩
  obtain ⟨-, hheaders, hloops⟩ := naturalLoops_exact hlinked
  obtain ⟨loop, hloop, hheader⟩ := List.mem_map.1 ((hheaders 1).2 ⟨2, hback₂⟩)
  obtain ⟨-, hbody, -⟩ := hloops loop hloop
  have hsource {l : Nat} (hl : twofold.BackEdge l 1) (hne : l ≠ 1) : l ∈ loop.body :=
    (hbody l).2 (.inr ⟨hl.1, l, hheader ▸ hl, .refl (hheader ▸ hne)⟩)
  refine ⟨hlinked, loop, hloop, hheader, hsource hback₂ (by decide), hsource hback₃ (by decide), ?_⟩
  intro h
  rcases (hbody 4).1 h with heq | ⟨hreach, -⟩
  · simp [hheader] at heq
  · exact hunreachable hreach

end CilScope.Flow.Graph
