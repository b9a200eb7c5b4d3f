import CilScope.Proofs.Flow.Paths

/-!
# What reverse postorder lists

The blocks on the stack of a depth-first walk, from the bottom up, and behind them the blocks already
left, are at all times a list in which every block but the entry stands behind a predecessor
(`Walking`): leaving a block does not change the list, and a block that is entered is put right behind
the one it is entered from. In the end it holds exactly the blocks that can be reached (`Postordered`).
-/

namespace CilScope.Flow.Graph

/-- A list of the blocks that can be reached, each of them once, the entry first and every other block
behind a predecessor. -/
structure Postordered (g : Graph) (order : List Nat) : Prop where
  nodup : order.Nodup
  head : order.head? = some 0
  mem : ∀ b, b ∈ order ↔ g.Reachable b
  led : ∀ b ∈ order, b ≠ 0 → ∃ p, b ∈ g.succs p ∧ [p, b].Sublist order

/-- What comes before a block in a list without repetitions stands in the part in front of it. -/
theorem mem_of_pair_sublist {p b : Nat} {front back : List Nat} (hnodup : (front ++ b :: back).Nodup)
    (h : [p, b].Sublist (front ++ b :: back)) : p ∈ front := by
  induction front with
  | nil =>
    have hb : b ∈ back := by
      cases h with
      | cons _ h => exact h.subset (by simp)
      | cons_cons _ h => exact h.subset (by simp)
    exact absurd hb (List.nodup_cons.1 hnodup).1
  | cons c front ih =>
    cases h with
    | cons _ h => exact List.mem_cons_of_mem _ (ih (List.nodup_cons.1 hnodup).2 h)
    | cons_cons _ h => exact List.mem_cons_self ..

/-- Places in a list without repetitions are in the order of the list. -/
theorem idxOf_lt_of_pair_sublist {a b : Nat} {order : List Nat} (hnodup : order.Nodup)
    (h : [a, b].Sublist order) : order.idxOf a < order.idxOf b := by
  have hmem : b ∈ order := h.subset (by simp)
  obtain ⟨front, back, rfl⟩ := List.append_of_mem hmem
  have hb : b ∉ front := fun hmem =>
    (List.nodup_append.1 hnodup).2.2 b hmem b (List.mem_cons_self ..) rfl
  have ha : a ∈ front := mem_of_pair_sublist hnodup h
  rw [List.idxOf_append_of_mem ha, List.idxOf_append_of_notMem hb, List.idxOf_cons_self]
  exact (List.idxOf_lt_length_of_mem ha).trans_le (Nat.le_add_right ..)

/-- The list that a walk is about to give, as far as it is known: the blocks on the stack from the bottom
up, and behind them those already left. -/
def ahead (stack : List (Nat × List Nat)) (done : List Nat) : List Nat :=
  (stack.map (·.1)).reverse ++ done

@[simp] theorem ahead_nil (done : List Nat) : ahead [] done = done := rfl

@[simp] theorem ahead_cons (b : Nat) (succs : List Nat) (rest : List (Nat × List Nat))
    (done : List Nat) : ahead ((b, succs) :: rest) done = ahead rest (b :: done) := by
  simp [ahead]

/-- What holds at every point of a depth-first walk. -/
structure Walking (g : Graph) (visited : List Nat) (stack : List (Nat × List Nat))
    (done : List Nat) : Prop where
  nodup : (ahead stack done).Nodup
  head : (ahead stack done).head? = some 0
  known : ∀ b, b ∈ visited ↔ b ∈ ahead stack done
  reachable : ∀ b ∈ ahead stack done, g.Reachable b
  led : ∀ b ∈ ahead stack done, b ≠ 0 → ∃ p, b ∈ g.succs p ∧ [p, b].Sublist (ahead stack done)
  /-- What is still to be tried are successors. -/
  untried : ∀ f ∈ stack, f.2 ⊆ g.succs f.1
  /-- The other successors of the blocks on the stack are known already. -/
  tried : ∀ f ∈ stack, ∀ s ∈ g.succs f.1, s ∈ f.2 ∨ s ∈ visited
  left : ∀ b ∈ done, ∀ s ∈ g.succs b, s ∈ visited

namespace Walking

variable {g : Graph} {visited : List Nat} {b s : Nat} {succs : List Nat}
  {rest : List (Nat × List Nat)} {done : List Nat}

theorem untried_tail (h : Walking g visited ((b, s :: succs) :: rest) done) :
    ∀ f ∈ (b, succs) :: rest, f.2 ⊆ g.succs f.1 := by
  intro f hf
  rcases List.mem_cons.1 hf with rfl | hf
  · exact (List.cons_subset.1 (h.untried (b, s :: succs) (List.mem_cons_self ..))).2
  · exact h.untried f (List.mem_cons_of_mem _ hf)

/-- Once the first successor is known too, the others are still to be tried. -/
theorem tried_tail (h : Walking g visited ((b, s :: succs) :: rest) done) {visited' : List Nat}
    (hs : s ∈ visited') (hvisited : visited ⊆ visited') :
    ∀ f ∈ (b, succs) :: rest, ∀ t ∈ g.succs f.1, t ∈ f.2 ∨ t ∈ visited' := by
  intro f hf t ht
  rcases List.mem_cons.1 hf with rfl | hf
  · rcases h.tried (b, s :: succs) (List.mem_cons_self ..) t ht with hmem | hmem
    · rcases List.mem_cons.1 hmem with rfl | hmem
      · exact .inr hs
      · exact .inl hmem
    · exact .inr (hvisited hmem)
  · exact (h.tried f (List.mem_cons_of_mem _ hf) t ht).imp_right (@hvisited t)

/-- A block is left. -/
theorem leave (h : Walking g visited ((b, []) :: rest) done) : Walking g visited rest (b :: done) where
  nodup := by simpa using h.nodup
  head := by simpa using h.head
  known := by simpa using h.known
  reachable := by simpa using h.reachable
  led := by simpa using h.led
  untried := fun f hf => h.untried f (List.mem_cons_of_mem _ hf)
  tried := fun f hf => h.tried f (List.mem_cons_of_mem _ hf)
  left := by
    intro c hc s hs
    rcases List.mem_cons.1 hc with rfl | hc
    · rcases h.tried (c, []) (List.mem_cons_self ..) s hs with hnone | hvisited
      · cases hnone
      · exact hvisited
    · exact h.left c hc s hs

/-- A successor is known already. -/
theorem skip (h : Walking g visited ((b, s :: succs) :: rest) done) (hs : s ∈ visited) :
    Walking g visited ((b, succs) :: rest) done where
  nodup := by simpa using h.nodup
  head := by simpa using h.head
  known := by simpa using h.known
  reachable := by simpa using h.reachable
  led := by simpa using h.led
  untried := h.untried_tail
  tried := h.tried_tail hs (List.Subset.refl _)
  left := h.left

/-- A successor is entered. -/
theorem enter (h : Walking g visited ((b, s :: succs) :: rest) done) (hs : s ∉ visited) :
    Walking g (s :: visited) ((s, g.succs s) :: (b, succs) :: rest) done := by
  have hedge : s ∈ g.succs b :=
    h.untried (b, s :: succs) (List.mem_cons_self ..) (List.mem_cons_self ..)
  -- `s` is put behind the part that ends with the block it is entered from
  obtain ⟨front, hfront, hold, hnew⟩ : ∃ front, b ∈ front ∧
      ahead ((b, s :: succs) :: rest) done = front ++ done ∧
      ahead ((s, g.succs s) :: (b, succs) :: rest) done = front ++ s :: done :=
    ⟨ahead rest [b], by simp [ahead], by simp [ahead], by simp [ahead]⟩
  have hfresh : s ∉ front ++ done := fun hmem => hs ((h.known s).2 (hold ▸ hmem))
  have hperm : (front ++ s :: done).Perm (s :: (front ++ done)) := List.perm_middle
  have hsub : (front ++ done).Sublist (front ++ s :: done) :=
    (List.sublist_cons_self s done).append_left front
  refine ⟨?_, ?_, ?_, ?_, ?_, ?_, ?_, ?_⟩
  · rw [hnew, hperm.nodup_iff, List.nodup_cons, ← hold]
    exact ⟨hold ▸ hfresh, h.nodup⟩
  · have hhead := h.head
    rw [hold, List.head?_append_of_ne_nil _ (List.ne_nil_of_mem hfront)] at hhead
    rw [hnew, List.head?_append_of_ne_nil _ (List.ne_nil_of_mem hfront), hhead]
  · intro c
    rw [hnew, hperm.mem_iff, List.mem_cons, List.mem_cons, h.known, hold]
  · intro c hc
    rw [hnew, hperm.mem_iff, List.mem_cons, ← hold] at hc
    rcases hc with rfl | hc
    · have hb : b ∈ ahead ((b, c :: succs) :: rest) done := by
        rw [hold]
        exact List.mem_append_left _ hfront
      exact (h.reachable b hb).step hedge
    · exact h.reachable c hc
  · intro c hc hne
    rw [hnew, hperm.mem_iff, List.mem_cons, ← hold] at hc
    rw [hnew]
    rcases hc with rfl | hc
    · refine ⟨b, hedge, ?_⟩
      exact (List.singleton_sublist.2 hfront).append (List.singleton_sublist.2 (List.mem_cons_self ..))
    · obtain ⟨p, hp, hbefore⟩ := h.led c hc hne
      rw [hold] at hbefore
      exact ⟨p, hp, hbefore.trans hsub⟩
  · intro f hf
    rcases List.mem_cons.1 hf with rfl | hf
    · exact List.Subset.refl _
    · exact h.untried_tail f hf
  · intro f hf t ht
    rcases List.mem_cons.1 hf with rfl | hf
    · exact .inl ht
    · exact h.tried_tail (List.mem_cons_self ..) (fun _ => List.mem_cons_of_mem _) f hf t ht
  · exact fun c hc t ht => List.mem_cons_of_mem _ (h.left c hc t ht)

/-- When nothing is left on the stack, every block that can be reached has been left. -/
theorem postordered (h : Walking g visited [] done) : Postordered g done where
  nodup := h.nodup
  head := h.head
  mem := by
    intro b
    refine ⟨h.reachable b, ?_⟩
    rintro ⟨trace, htrace⟩
    induction htrace with
    | entry => exact List.mem_of_mem_head? h.head
    | @step trace c s _ hs ih => exact (h.known s).1 (h.left c ih s hs)
  led := h.led

end Walking

variable {g : Graph}

theorem postordered_walk (hg : g.Linked) {visited : List Nat} {stack : List (Nat × List Nat)}
    {done : List Nat} (h : Walking g visited stack done) :
    Postordered g (walk g visited stack done) := by
  fun_induction walk g visited stack done with
  | case1 visited done => exact h.postordered
  | case2 visited done b rest ih => exact ih h.leave
  | case3 visited done b s succs rest hs _ ih => exact ih (h.enter hs.2)
  | case4 visited done b s succs rest hs ih =>
    have hlt : s < g.size :=
      hg.succ_lt (h.untried (b, s :: succs) (List.mem_cons_self ..) (List.mem_cons_self ..))
    exact ih (h.skip (by tauto))

/-- The reverse postorder starts with the entry and holds the blocks that can be reached. -/
theorem postordered_reversePostorder (hg : g.Linked) :
    ∃ order, g.reversePostorder = 0 :: order ∧ Postordered g (0 :: order) := by
  have hstart : Walking g [0] [(0, g.succs 0)] [] := by
    constructor <;> simp +contextual [ahead, reachable_entry hg.entry]
  have h := postordered_walk hg hstart
  have heq : g.reversePostorder = walk g [0] [(0, g.succs 0)] [] := by
    rw [reversePostorder, if_neg (Nat.ne_of_gt hg.entry)]
  obtain ⟨order, horder⟩ : ∃ order, walk g [0] [(0, g.succs 0)] [] = 0 :: order :=
    List.head?_eq_some_iff.1 h.head
  exact ⟨order, heq.trans horder, horder ▸ h⟩

end CilScope.Flow.Graph
