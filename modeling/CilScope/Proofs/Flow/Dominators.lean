import CilScope.Proofs.Flow.Postorder

/-!
# Dominators

The dominator tree of a graph is exact. Two facts about the parents in a tree that is still being refined
are kept by every change of one parent, whatever the order of the changes:

* `Rooted`: parents go up to the entry by falling numbers, and a strict dominator of a block dominates its
  parent. So a tree never loses a dominator (`Rooted.above_of_dominates`), and two blocks that go up meet
  before they pass by a common one (`Rooted.meet_spec`).
* `Covers`: short paths to a block pass through its parent. Each pass makes the paths for which this is
  known longer by one block (`Passed.pass`), and those of as many blocks as the graph has settle dominance.

Together they leave only one tree (`Exact`). Another pass cannot change it, so the passes come to rest
(`Passed.refine`).
-/

namespace CilScope.Flow.Graph

variable {g : Graph}

/-! ## Trees -/

namespace Tree

theorem getD_setIfInBounds {t : Tree} {b : Nat} (hb : b < t.size) (parent : Option Nat) (c : Nat) :
    (t.setIfInBounds b parent).getD c none = if c = b then parent else t.getD c none := by
  by_cases hc : c = b
  · subst hc
    simp [hb]
  · simp [hc, Ne.symm hc]

section

variable {t : Tree} {number : Nat → Nat} {steps a b up : Nat}

theorem meet_self (t : Tree) (number : Nat → Nat) (steps a : Nat) :
    t.meet number steps a a = some a := by
  cases steps <;> exact if_pos rfl

theorem meet_left (hlt : number b < number a) (ha : t.getD a none = some up) (hne : up ≠ a) :
    t.meet number (steps + 1) a b = t.meet number steps up b := by
  have hab : a ≠ b := fun heq => by simp [heq] at hlt
  rw [meet, if_neg hab, if_pos hlt, ha]
  exact if_neg hne

theorem meet_right (hlt : number a < number b) (hb : t.getD b none = some up) (hne : up ≠ b) :
    t.meet number (steps + 1) a b = t.meet number steps a up := by
  have hab : a ≠ b := fun heq => by simp [heq] at hlt
  rw [meet, if_neg hab, if_neg hlt.not_gt, if_pos hlt, hb]
  exact if_neg hne

end

/-- A block and its ancestors. -/
inductive Above (t : Tree) : Nat → Nat → Prop
  | refl (b : Nat) : Above t b b
  | up {a b c : Nat} (hb : t.getD b none = some c) (hne : c ≠ b) (h : Above t a c) : Above t a b

theorem Above.trans {t : Tree} {a b c : Nat} (hab : t.Above a b) (hbc : t.Above b c) :
    t.Above a c := by
  induction hbc with
  | refl => exact hab
  | up hb hne _ ih => exact .up hb hne ih

theorem above_of_mem_chain {t : Tree} {steps a b : Nat} (h : a ∈ t.chain steps b) : t.Above a b := by
  induction steps generalizing b with
  | zero =>
    obtain rfl := List.mem_singleton.1 h
    exact .refl a
  | succ steps ih =>
    rw [chain] at h
    split at h
    · rename_i up hup
      split at h
      · obtain rfl := List.mem_singleton.1 h
        exact .refl a
      · rename_i hne
        rcases List.mem_cons.1 h with rfl | h
        · exact .refl a
        · exact .up hup hne (ih h)
    · obtain rfl := List.mem_singleton.1 h
      exact .refl a

end Tree

/-- A tree in which parents go up to the entry, by falling number, and in which no dominator is lost. -/
structure Rooted (g : Graph) (number : Nat → Nat) (t : Tree) : Prop where
  size : t.size = g.size
  number_lt : ∀ b, g.Reachable b → number b < g.size
  number_inj : ∀ a b, g.Reachable a → g.Reachable b → number a = number b → a = b
  entry : t.getD 0 none = some 0
  reachable : ∀ b up, t.getD b none = some up → g.Reachable b
  falls : ∀ b up, t.getD b none = some up → b ≠ 0 → number up < number b
  placed : ∀ b up, t.getD b none = some up → ∃ upper, t.getD up none = some upper
  dominated : ∀ b up, t.getD b none = some up → ∀ d, g.StrictlyDominates d b → g.Dominates d up

namespace Rooted

variable {number : Nat → Nat} {t : Tree} {a b d : Nat}

/-- What holds of the entry, and of every block of whose parent it holds, holds of all placed blocks. -/
theorem induct (h : Rooted g number t) {P : Nat → Prop} (hentry : P 0)
    (hstep : ∀ b up, t.getD b none = some up → up ≠ b → P up → P b) (b : Nat) {up : Nat}
    (hb : t.getD b none = some up) : P b := by
  induction hr : number b using Nat.strong_induction_on generalizing b up with
  | _ r ih =>
    by_cases hzero : b = 0
    · exact hzero ▸ hentry
    · have hlt : number up < number b := h.falls b up hb hzero
      obtain ⟨upper, hupper⟩ := h.placed b up hb
      have hne : up ≠ b := fun heq => by simp [heq] at hlt
      exact hstep b up hb hne (ih (number up) (hr ▸ hlt) up hupper rfl)

theorem above_entry (h : Rooted g number t) {up : Nat} (hb : t.getD b none = some up) :
    t.Above 0 b :=
  h.induct (.refl 0) (fun _ _ hb hne ih => .up hb hne ih) b hb

theorem placed_of_above (h : Rooted g number t) (hab : t.Above a b) {up : Nat}
    (hb : t.getD b none = some up) : ∃ upper, t.getD a none = some upper := by
  induction hab generalizing up with
  | refl => exact ⟨up, hb⟩
  | up hb' _ _ ih =>
    obtain ⟨upper, hupper⟩ := h.placed _ _ hb'
    exact ih hupper

theorem number_le_of_above (h : Rooted g number t) (hab : t.Above a b) : number a ≤ number b := by
  induction hab with
  | refl => exact le_rfl
  | @up b c hb hne _ ih =>
    by_cases hzero : b = 0
    · subst hzero
      rw [h.entry] at hb
      exact absurd (Option.some.inj hb).symm hne
    · exact ih.trans (h.falls b c hb hzero).le

/-- The dominators of a placed block are among its ancestors. -/
theorem above_of_dominates (h : Rooted g number t) {up : Nat} (hb : t.getD b none = some up)
    (hdom : g.Dominates d b) : t.Above d b := by
  have hentry : 0 < g.size := (Nat.zero_le _).trans_lt (h.number_lt b (h.reachable b up hb))
  refine h.induct (P := fun b => g.Dominates d b → t.Above d b) ?_ ?_ b hb hdom
  · intro hdom
    rw [hdom.eq_entry hentry]
    exact .refl 0
  · intro b up hb hne ih hdom
    by_cases heq : d = b
    · exact heq ▸ .refl d
    · exact .up hb hne (ih (h.dominated b up hb d ⟨heq, hdom⟩))

/-- The walk up the tree is long enough to meet all ancestors. -/
theorem mem_chain (h : Rooted g number t) {steps up : Nat} (hb : t.getD b none = some up)
    (hsteps : number b ≤ steps) : a ∈ t.chain steps b ↔ t.Above a b := by
  refine ⟨Tree.above_of_mem_chain, fun hab => ?_⟩
  induction hab generalizing steps up with
  | refl =>
    cases steps with
    | zero => exact List.mem_singleton.2 rfl
    | succ steps =>
      rw [Tree.chain, hb]
      dsimp only
      split <;> simp
  | @up b c hb' hne _ ih =>
    have hlt : number c < number b := by
      refine h.falls b c hb' ?_
      rintro rfl
      rw [h.entry] at hb'
      exact hne (Option.some.inj hb').symm
    obtain ⟨upper, hupper⟩ := h.placed b c hb'
    cases steps with
    | zero => omega
    | succ steps =>
      simp only [Tree.chain, hb', if_neg hne]
      exact List.mem_cons_of_mem _ (ih hupper (by omega))

theorem mem_ancestors (h : Rooted g number t) {up : Nat} (hb : t.getD b none = some up) :
    a ∈ t.ancestors b ↔ t.Above a b := by
  have hnumber := h.number_lt b (h.reachable b up hb)
  exact h.mem_chain hb (by rw [h.size]; omega)

/-! ## The meet of blocks -/

/-- Of two blocks the one with the higher number can go up, and no common dominator is passed by. -/
theorem climb (h : Rooted g number t) {up up' : Nat} (ha : t.getD a none = some up)
    (hb : t.getD b none = some up') (hlt : number b < number a) :
    up ≠ a ∧ number up < number a ∧ (∃ upper, t.getD up none = some upper) ∧
      ∀ d, g.Dominates d a → g.Dominates d b → g.Dominates d up := by
  have hzero : a ≠ 0 := by
    rintro rfl
    exact hlt.not_ge (h.number_le_of_above (h.above_entry hb))
  have hfall : number up < number a := h.falls a up ha hzero
  refine ⟨fun heq => by simp [heq] at hfall, hfall, h.placed a up ha, fun d hda hdb => ?_⟩
  refine h.dominated a up ha d ⟨?_, hda⟩
  rintro rfl
  exact hlt.not_ge (h.number_le_of_above (h.above_of_dominates hb hdb))

/-- Two placed blocks meet, at an ancestor of both that their common dominators dominate. -/
theorem meet_spec (h : Rooted g number t) {steps up up' : Nat} (ha : t.getD a none = some up)
    (hb : t.getD b none = some up') (hsteps : number a + number b ≤ steps) :
    ∃ m, t.meet number steps a b = some m ∧ t.Above m a ∧ t.Above m b ∧
      ∀ d, g.Dominates d a → g.Dominates d b → g.Dominates d m := by
  induction steps generalizing a b up up' with
  | zero =>
    obtain rfl := h.number_inj a b (h.reachable a up ha) (h.reachable b up' hb) (by omega)
    exact ⟨a, Tree.meet_self t number 0 a, .refl a, .refl a, fun d hd _ => hd⟩
  | succ steps ih =>
    rcases lt_trichotomy (number a) (number b) with hlt | heq | hlt
    · obtain ⟨hne, hfall, ⟨upper, hupper⟩, hdom⟩ := h.climb hb ha hlt
      obtain ⟨m, hm, hma, hmb, hdom'⟩ := ih ha hupper (by omega)
      refine ⟨m, (Tree.meet_right hlt hb hne).trans hm, hma, .up hb hne hmb, fun d hda hdb => ?_⟩
      exact hdom' d hda (hdom d hdb hda)
    · obtain rfl := h.number_inj a b (h.reachable a up ha) (h.reachable b up' hb) heq
      exact ⟨a, Tree.meet_self t number _ a, .refl a, .refl a, fun d hd _ => hd⟩
    · obtain ⟨hne, hfall, ⟨upper, hupper⟩, hdom⟩ := h.climb ha hb hlt
      obtain ⟨m, hm, hma, hmb, hdom'⟩ := ih hupper hb (by omega)
      refine ⟨m, (Tree.meet_left hlt ha hne).trans hm, .up ha hne hma, hmb, fun d hda hdb => ?_⟩
      exact hdom' d (hdom d hda hdb) hdb

/-- The meet of a block with the blocks of a list. -/
theorem foldl_meet (h : Rooted g number t) {ps : List Nat}
    (hps : ∀ p ∈ ps, ∃ up, t.getD p none = some up) {current up : Nat}
    (hcurrent : t.getD current none = some up) :
    ∃ m, ps.foldlM (fun found p => match found with
        | none => some (some p)
        | some current => (t.meet number (t.size + t.size) p current).map some) (some current) =
          some (some m) ∧
      t.Above m current ∧ (∀ p ∈ ps, t.Above m p) ∧
      ∀ d, g.Dominates d current → (∀ p ∈ ps, g.Dominates d p) → g.Dominates d m := by
  induction ps generalizing current up with
  | nil => exact ⟨current, rfl, .refl current, by simp, fun d hd _ => hd⟩
  | cons p ps ih =>
    obtain ⟨hp, hps⟩ := List.forall_mem_cons.1 hps
    obtain ⟨upper, hp⟩ := hp
    have hsteps : number p + number current ≤ t.size + t.size := by
      have hlt := h.number_lt p (h.reachable p upper hp)
      have hlt' := h.number_lt current (h.reachable current up hcurrent)
      have hsize := h.size
      omega
    obtain ⟨next, hnext, hmp, hmc, hdom⟩ := h.meet_spec hp hcurrent hsteps
    obtain ⟨_, hplaced⟩ := h.placed_of_above hmp hp
    obtain ⟨m, hm, hcurrent', hall, hdom'⟩ := ih hps hplaced
    refine ⟨m, ?_, hcurrent'.trans hmc, ?_, ?_⟩
    · rw [List.foldlM_cons]
      dsimp only
      rw [hnext]
      exact hm
    · exact List.forall_mem_cons.2 ⟨hcurrent'.trans hmp, hall⟩
    · intro d hd hds
      obtain ⟨hdp, hds⟩ := List.forall_mem_cons.1 hds
      exact hdom' d (hdom d hdp hd) hds

/-- The parent a block gets is an ancestor of all its placed predecessors, and what dominates those
dominates it. -/
theorem parentOf_spec (h : Rooted g number t) {preds : List Nat} {p up : Nat} (hp : p ∈ preds)
    (hplaced : t.getD p none = some up) :
    ∃ m, t.parentOf number preds = some (some m) ∧
      (∀ q ∈ preds, ∀ up, t.getD q none = some up → t.Above m q) ∧
      ∀ d, (∀ q ∈ preds, ∀ up, t.getD q none = some up → g.Dominates d q) → g.Dominates d m := by
  have hmem (q : Nat) : q ∈ (preds.filter fun q => (t.getD q none).isSome) ↔
      q ∈ preds ∧ ∃ up, t.getD q none = some up := by
    rw [List.mem_filter, Option.isSome_iff_exists]
  rw [Tree.parentOf]
  generalize (preds.filter fun q => (t.getD q none).isSome) = placed at hmem ⊢
  cases placed with
  | nil => exact absurd ((hmem p).2 ⟨hp, up, hplaced⟩) List.not_mem_nil
  | cons q qs =>
    have hall : ∀ r ∈ q :: qs, ∃ up, t.getD r none = some up := fun r hr => ((hmem r).1 hr).2
    obtain ⟨⟨upper, hq⟩, hqs⟩ := List.forall_mem_cons.1 hall
    obtain ⟨m, hm, habove, hallAbove, hdom⟩ := h.foldl_meet hqs hq
    refine ⟨m, hm, ?_, ?_⟩
    · intro r hr up hup
      exact List.forall_mem_cons.2 ⟨habove, hallAbove⟩ r ((hmem r).2 ⟨hr, up, hup⟩)
    · intro d hd
      have hd' : ∀ r ∈ q :: qs, g.Dominates d r := by
        intro r hr
        obtain ⟨hr, up, hup⟩ := (hmem r).1 hr
        exact hd r hr up hup
      obtain ⟨hdq, hdqs⟩ := List.forall_mem_cons.1 hd'
      exact hdom d hdq hdqs

end Rooted

/-! ## One parent computed anew -/

/-- The tree `t'` is `t` with a parent for `b` that is an ancestor of all its placed predecessors and is
dominated by what dominates it. -/
structure Refitted (g : Graph) (t : Tree) (b m : Nat) (t' : Tree) : Prop where
  size : t'.size = t.size
  getD : ∀ c, t'.getD c none = if c = b then some m else t.getD c none
  above : ∀ q ∈ g.preds b, ∀ up, t.getD q none = some up → t.Above m q
  dominates : ∀ d, g.StrictlyDominates d b → g.Dominates d m

namespace Rooted

variable {number : Nat → Nat} {t t' : Tree} {b m p up : Nat}

/-- What is computed for a block of which a predecessor is placed. -/
theorem exists_refit (h : Rooted g number t) (hg : g.Linked) (hp : p ∈ g.preds b)
    (hplaced : t.getD p none = some up) : ∃ m t', t.refit g number b = some t' ∧ Refitted g t b m t' := by
  obtain ⟨m, hm, habove, hdom⟩ := h.parentOf_spec hp hplaced
  have hlt : b < t.size := h.size ▸ lt_size_of_mem_preds hp
  refine ⟨m, t.setIfInBounds b (some m), by rw [Tree.refit, hm]; rfl, by simp,
    Tree.getD_setIfInBounds hlt _, habove, ?_⟩
  -- a strict dominator dominates all predecessors
  exact fun d hd => hdom d fun q hq _ _ => hd.pred ((hg.inverse q b).2 hq)

/-- The tree stays rooted if one of the placed predecessors comes before the block. -/
theorem refit (h : Rooted g number t) (hg : g.Linked) (hb : b ≠ 0) (hp : p ∈ g.preds b)
    (hplaced : t.getD p none = some up) (hnumber : number p < number b) (ht : Refitted g t b m t') :
    Rooted g number t' := by
  have hget := ht.getD
  have hmp : t.Above m p := ht.above p hp up hplaced
  refine ⟨ht.size.trans h.size, h.number_lt, h.number_inj, ?_, ?_, ?_, ?_, ?_⟩
  · rw [hget, if_neg (Ne.symm hb), h.entry]
  · intro c up hc
    rw [hget] at hc
    split at hc
    · rename_i heq
      exact heq ▸ (h.reachable p _ hplaced).step ((hg.inverse p b).2 hp)
    · exact h.reachable c up hc
  · intro c up hc hne
    rw [hget] at hc
    split at hc
    · rename_i heq
      cases hc
      exact heq ▸ (h.number_le_of_above hmp).trans_lt hnumber
    · exact h.falls c up hc hne
  · intro c up hc
    have hplaced : ∃ upper, t.getD up none = some upper := by
      rw [hget] at hc
      split at hc
      · cases hc
        exact h.placed_of_above hmp hplaced
      · exact h.placed c up hc
    rw [hget]
    split
    · exact ⟨m, rfl⟩
    · exact hplaced
  · intro c up hc d hd
    rw [hget] at hc
    split at hc
    · rename_i heq
      cases hc
      exact ht.dominates d (heq ▸ hd)
    · exact h.dominated c up hc d hd

end Rooted

/-! ## Short paths -/

/-- The block is placed if a path of at most `k` blocks leads to it, and all such paths pass through
its parent. -/
def Covers (g : Graph) (t : Tree) (k b : Nat) : Prop :=
  ∀ trace, g.Path trace b → trace.length ≤ k → ∃ up, t.getD b none = some up ∧ up ∈ trace

variable {number : Nat → Nat} {t : Tree} {k a b : Nat}

theorem Covers.congr {t' : Tree} (h : g.Covers t k b) (heq : t'.getD b none = t.getD b none) :
    g.Covers t' k b := by
  intro trace htrace hlength
  rw [heq]
  exact h trace htrace hlength

/-- Short paths to a block pass through all its ancestors. -/
theorem mem_of_above (h : ∀ c, g.Covers t k c) (hab : t.Above a b) {trace : List Nat}
    (htrace : g.Path trace b) (hlength : trace.length ≤ k) : a ∈ trace := by
  induction hab generalizing trace with
  | refl => exact htrace.last_mem
  | @up b c hb _ _ ih =>
    obtain ⟨up, hup, hmem⟩ := h b trace htrace hlength
    obtain rfl : c = up := Option.some.inj (hb.symm.trans hup)
    obtain ⟨front, hfront, hsuffix⟩ := htrace.cut hmem
    exact hsuffix.subset (ih hfront (hsuffix.length_le.trans hlength))

/-- A parent that is an ancestor of all placed predecessors covers paths that are longer by one. -/
theorem covers_of_above {t' : Tree} {m : Nat} (hg : g.Linked) (hb : b ≠ 0) (h : ∀ c, g.Covers t k c)
    (hm : t'.getD b none = some m)
    (habove : ∀ q ∈ g.preds b, ∀ up, t.getD q none = some up → t.Above m q) :
    g.Covers t' (k + 1) b := by
  intro trace htrace hlength
  refine ⟨m, hm, ?_⟩
  cases htrace with
  | entry => exact absurd rfl hb
  | @step front q _ hfront hs =>
    have hlength : front.length ≤ k := by simpa using hlength
    obtain ⟨up, hup, -⟩ := h q front hfront hlength
    have hmq : t.Above m q := habove q ((hg.inverse q b).1 hs) up hup
    exact List.mem_cons_of_mem _ (mem_of_above h hmq hfront hlength)

/-! ## Passes -/

/-- What holds in the middle of a pass, when the blocks of `seen` have been dealt with. -/
structure Underway (g : Graph) (number : Nat → Nat) (k : Nat) (seen : List Nat) (t : Tree) : Prop where
  rooted : Rooted g number t
  covers : ∀ c, g.Covers t k c
  placed : ∀ c ∈ seen, ∃ up, t.getD c none = some up
  advanced : ∀ c ∈ seen, g.Covers t (k + 1) c

/-- A pass deals with one more block, of which a predecessor has been dealt with. -/
theorem Underway.next {seen : List Nat} {p : Nat} (h : Underway g number k seen t) (hg : g.Linked)
    (hb : b ≠ 0) (hp : p ∈ seen) (hedge : b ∈ g.succs p) (hnumber : number p < number b) :
    ∃ t', t.refit g number b = some t' ∧ Underway g number k (seen ++ [b]) t' := by
  obtain ⟨up, hplaced⟩ := h.placed p hp
  have hpreds : p ∈ g.preds b := (hg.inverse p b).1 hedge
  obtain ⟨m, t', heq, ht⟩ := h.rooted.exists_refit hg hpreds hplaced
  have hm : t'.getD b none = some m := by rw [ht.getD, if_pos rfl]
  have hkept {c : Nat} (hc : c ≠ b) : t'.getD c none = t.getD c none := by
    rw [ht.getD, if_neg hc]
  have hcovers : g.Covers t' (k + 1) b := covers_of_above hg hb h.covers hm ht.above
  refine ⟨t', heq, h.rooted.refit hg hb hpreds hplaced hnumber ht, ?_, ?_, ?_⟩
  · intro c
    by_cases hc : c = b
    · subst hc
      exact fun trace htrace hlength => hcovers trace htrace (hlength.trans (Nat.le_succ k))
    · exact (h.covers c).congr (hkept hc)
  · intro c hc
    by_cases heq : c = b
    · exact ⟨m, heq ▸ hm⟩
    · rw [hkept heq]
      exact h.placed c (by simpa [heq] using hc)
  · intro c hc
    by_cases heq : c = b
    · exact heq ▸ hcovers
    · exact (h.advanced c (by simpa [heq] using hc)).congr (hkept heq)

/-- A whole pass. -/
theorem Underway.foldlM {order : List Nat} (horder : Postordered g order) (hg : g.Linked)
    (hnumber : ∀ a b, [a, b].Sublist order → number a < number b) {seen rest : List Nat}
    (hsplit : order = seen ++ rest) (hentry : 0 ∈ seen) (h : Underway g number k seen t) :
    ∃ t', rest.foldlM (Tree.refit g number) t = some t' ∧ Underway g number k order t' := by
  induction rest generalizing seen t with
  | nil =>
    rw [hsplit, List.append_nil]
    exact ⟨t, rfl, h⟩
  | cons b rest ih =>
    have hnodup : (seen ++ b :: rest).Nodup := hsplit ▸ horder.nodup
    have hb : b ≠ 0 := by
      rintro rfl
      exact (List.nodup_append.1 hnodup).2.2 0 hentry 0 (List.mem_cons_self ..) rfl
    obtain ⟨p, hedge, hbefore⟩ := horder.led b (by simp [hsplit]) hb
    have hp : p ∈ seen := mem_of_pair_sublist hnodup (hsplit ▸ hbefore)
    obtain ⟨next, heq, hnext⟩ := h.next hg hb hp hedge (hnumber p b hbefore)
    obtain ⟨last, hlast, hend⟩ := ih (by simp [hsplit]) (List.mem_append_left _ hentry) hnext
    refine ⟨last, ?_, hend⟩
    rw [List.foldlM_cons, heq]
    exact hlast

/-- What holds between two passes. -/
structure Passed (g : Graph) (number : Nat → Nat) (k : Nat) (t : Tree) : Prop where
  rooted : Rooted g number t
  covers : ∀ c, g.Covers t k c

theorem Passed.pass {order : List Nat} (horder : Postordered g (0 :: order)) (hg : g.Linked)
    (hnumber : ∀ a b, [a, b].Sublist (0 :: order) → number a < number b) (h : Passed g number k t) :
    ∃ t', t.pass g number order = some t' ∧ Passed g number (k + 1) t' := by
  have hstart : Underway g number k [0] t := by
    refine ⟨h.rooted, h.covers, ?_, ?_⟩
    · intro c hc
      obtain rfl := List.mem_singleton.1 hc
      exact ⟨0, h.rooted.entry⟩
    · intro c hc trace htrace _
      obtain rfl := List.mem_singleton.1 hc
      exact ⟨0, h.rooted.entry, htrace.entry_mem⟩
  obtain ⟨last, heq, hend⟩ := hstart.foldlM horder hg hnumber rfl (by simp)
  refine ⟨last, heq, hend.rooted, fun c trace htrace hlength => ?_⟩
  exact hend.advanced c ((horder.mem c).2 ⟨trace, htrace⟩) trace htrace hlength

/-- The tree in which only the entry is placed. -/
def seed (g : Graph) : Tree := g.bare.setIfInBounds 0 (some 0)

theorem getD_seed (h : 0 < g.size) (b : Nat) :
    g.seed.getD b none = if b = 0 then some 0 else none := by
  by_cases hb : b = 0
  · simp [seed, bare, hb, h]
  · by_cases hlt : b < g.size <;> simp [seed, bare, hb, Ne.symm hb, hlt]

theorem passed_seed (hentry : 0 < g.size) (hnumber : ∀ b, g.Reachable b → number b < g.size)
    (hinj : ∀ a b, g.Reachable a → g.Reachable b → number a = number b → a = b) :
    Passed g number 1 g.seed := by
  have hplaced {b up : Nat} (hb : g.seed.getD b none = some up) : b = 0 ∧ up = 0 := by
    rw [getD_seed hentry] at hb
    split at hb
    · exact ⟨‹_›, (Option.some.inj hb).symm⟩
    · cases hb
  refine ⟨⟨by simp [seed, bare], hnumber, hinj, by rw [getD_seed hentry, if_pos rfl],
    ?_, ?_, ?_, ?_⟩, ?_⟩
  · intro b up hb
    obtain ⟨rfl, -⟩ := hplaced hb
    exact reachable_entry hentry
  · exact fun b up hb hne => absurd (hplaced hb).1 hne
  · intro b up hb
    obtain ⟨rfl, rfl⟩ := hplaced hb
    exact ⟨0, hb⟩
  · intro b up hb d hd
    obtain ⟨rfl, rfl⟩ := hplaced hb
    exact hd.2
  · intro b trace htrace hlength
    -- a path of one block does not leave the entry
    cases htrace with
    | entry => exact ⟨0, by rw [getD_seed hentry, if_pos rfl], List.mem_singleton.2 rfl⟩
    | step h => simp [List.ne_nil_of_mem h.last_mem] at hlength

/-! ## The dominator tree -/

/-- The tree of the immediate dominators. -/
structure Exact (g : Graph) (t : Tree) : Prop where
  size : t.size = g.size
  unreachable : ∀ b, t.getD b none = none ↔ ¬g.Reachable b
  entry : t.getD 0 none = some 0
  immediate : ∀ b up, t.getD b none = some up → b ≠ 0 → g.ImmediatelyDominates up b

theorem Passed.exact (h : Passed g number k t) (hg : g.Linked) (hk : g.size ≤ k) : Exact g t where
  size := h.rooted.size
  unreachable := by
    intro b
    rw [Option.eq_none_iff_forall_ne_some]
    refine ⟨fun hnone hreach => ?_, fun hreach up hup => hreach (h.rooted.reachable b up hup)⟩
    obtain ⟨trace, htrace⟩ := hreach
    obtain ⟨short, hshort, -, hnodup⟩ := htrace.simple
    obtain ⟨up, hup, -⟩ := h.covers b short hshort ((hshort.length_le hg hnodup).trans hk)
    exact hnone up hup
  entry := h.rooted.entry
  immediate := by
    intro b up hb hne
    refine ⟨⟨?_, ?_⟩, h.rooted.dominated b up hb⟩
    · rintro rfl
      exact lt_irrefl _ (h.rooted.falls up up hb hne)
    · intro trace htrace
      obtain ⟨short, hshort, hsubset, hnodup⟩ := htrace.simple
      obtain ⟨up', hup', hmem⟩ := h.covers b short hshort ((hshort.length_le hg hnodup).trans hk)
      obtain rfl : up = up' := Option.some.inj (hb.symm.trans hup')
      exact hsubset hmem

/-- There is only one such tree. -/
theorem Exact.unique {t' : Tree} (h : Exact g t) (h' : Exact g t') : t = t' := by
  have hget (b : Nat) : t.getD b none = t'.getD b none := by
    by_cases hreach : g.Reachable b
    · obtain ⟨up, hup⟩ := Option.ne_none_iff_exists'.1 fun hnone => (h.unreachable b).1 hnone hreach
      obtain ⟨up', hup'⟩ := Option.ne_none_iff_exists'.1 fun hnone => (h'.unreachable b).1 hnone hreach
      by_cases hb : b = 0
      · rw [hb, h.entry, h'.entry]
      · rw [hup, hup', (h.immediate b up hup hb).unique hreach (h'.immediate b up' hup' hb)]
    · rw [(h.unreachable b).2 hreach, (h'.unreachable b).2 hreach]
  refine Array.ext (h.size.trans h'.size.symm) fun b hb hb' => ?_
  simpa [Array.getD, hb, hb'] using hget b

/-- The ancestors of a block that can be reached are its dominators. -/
theorem Exact.above_iff (h : Exact g t) (hrooted : Rooted g number t) (hb : g.Reachable b) :
    t.Above a b ↔ g.Dominates a b := by
  obtain ⟨up, hup⟩ := Option.ne_none_iff_exists'.1 fun hnone => (h.unreachable b).1 hnone hb
  refine ⟨fun hab => ?_, hrooted.above_of_dominates hup⟩
  clear hb hup
  induction hab with
  | refl => exact .refl g a
  | @up b c hb hne _ ih =>
    have hzero : b ≠ 0 := by
      rintro rfl
      exact hne (Option.some.inj (h.entry.symm.trans hb)).symm
    exact ih.trans (h.immediate b c hb hzero).1.2

/-- What a pass does not change no later pass changes. -/
theorem Passed.of_rest {order : List Nat} (horder : Postordered g (0 :: order)) (hg : g.Linked)
    (hnumber : ∀ a b, [a, b].Sublist (0 :: order) → number a < number b) (h : Passed g number k t)
    (hrest : t.pass g number order = some t) (n : Nat) : Passed g number (k + n) t := by
  induction n with
  | zero => exact h
  | succ n ih =>
    obtain ⟨t', heq, h'⟩ := ih.pass horder hg hnumber
    obtain rfl : t' = t := Option.some.inj (heq.symm.trans hrest)
    exact h'

/-- The passes come to rest, and where they do they leave the tree of the immediate dominators. -/
theorem Passed.refine {order : List Nat} {passes : Nat} (horder : Postordered g (0 :: order))
    (hg : g.Linked) (hnumber : ∀ a b, [a, b].Sublist (0 :: order) → number a < number b)
    (h : Passed g number k t) (hpasses : g.size ≤ k + passes) :
    ∃ t', t.refine g number order (passes + 1) = some t' ∧ Rooted g number t' ∧ Exact g t' := by
  induction passes generalizing k t with
  | zero =>
    obtain ⟨t', heq, h'⟩ := h.pass horder hg hnumber
    have hexact : Exact g t := h.exact hg hpasses
    obtain rfl : t' = t := (h'.exact hg (by omega)).unique hexact
    exact ⟨t', by rw [Tree.refine, heq]; exact if_pos rfl, h.rooted, hexact⟩
  | succ passes ih =>
    obtain ⟨t', heq, h'⟩ := h.pass horder hg hnumber
    rw [Tree.refine, heq]
    by_cases hrest : t' = t
    · subst hrest
      have hexact := (h.of_rest horder hg hnumber heq g.size).exact hg (Nat.le_add_left _ _)
      exact ⟨t', if_pos rfl, h.rooted, hexact⟩
    · obtain ⟨last, hlast, hspec⟩ := ih h' (by omega)
      exact ⟨last, (if_neg hrest).trans hlast, hspec⟩

/-- The passes come to rest at the tree of the immediate dominators. -/
theorem dominators_spec (hg : g.Linked) :
    ∃ number, g.dominators? = some g.dominators ∧ Rooted g number g.dominators ∧
      Exact g g.dominators := by
  obtain ⟨order, heq, horder⟩ := postordered_reversePostorder hg
  have hnumber (b : Nat) (hb : g.Reachable b) : (0 :: order).idxOf b < g.size := by
    have hsubset : (0 :: order) ⊆ List.range g.size := fun c hc =>
      List.mem_range.2 (((horder.mem c).1 hc).lt hg)
    have hlength : (0 :: order).length ≤ g.size := by
      simpa using (horder.nodup.subperm hsubset).length_le
    exact (List.idxOf_lt_length_of_mem ((horder.mem b).2 hb)).trans_le hlength
  have hinj (a b : Nat) (ha : g.Reachable a) (_ : g.Reachable b)
      (hab : (0 :: order).idxOf a = (0 :: order).idxOf b) : a = b :=
    (List.idxOf_inj ((horder.mem a).2 ha)).1 hab
  obtain ⟨last, hlast, hrooted, hexact⟩ := (passed_seed hg.entry hnumber hinj).refine horder hg
    (fun a b => idxOf_lt_of_pair_sublist horder.nodup) (Nat.le_add_left _ _)
  have hsearch : g.dominators? = some last := by
    rw [dominators?, heq]
    exact hlast
  have hdominators : g.dominators = last := by rw [dominators, hsearch]; rfl
  exact ⟨_, hdominators ▸ hsearch, hdominators ▸ hrooted, hdominators ▸ hexact⟩

theorem isSome_dominators_iff (hg : g.Linked) : (g.dominators.getD b none).isSome ↔ g.Reachable b := by
  obtain ⟨-, -, -, hexact⟩ := dominators_spec hg
  rw [Option.isSome_iff_ne_none, ne_eq, hexact.unreachable, not_not]

/-- The test for dominance in the tree is right for the blocks that can be reached. -/
theorem dominates_iff (hg : g.Linked) (hb : g.Reachable b) :
    g.dominators.dominates a b ↔ g.Dominates a b := by
  obtain ⟨number, -, hrooted, hexact⟩ := dominators_spec hg
  obtain ⟨up, hup⟩ := Option.isSome_iff_exists.1 ((isSome_dominators_iff hg).2 hb)
  rw [Tree.dominates, List.contains_iff_mem, hrooted.mem_ancestors hup, hexact.above_iff hrooted hb]

/-- **The dominator tree is exact.** The search for it comes to an end: blocks that go up a tree that is
still changing meet, and the passes over the blocks in reverse postorder come to rest. In the tree they
leave only the blocks that cannot be reached have no parent, the entry is its own parent, and the parent of
every other block is its immediate dominator. So the ancestors of a block that can be reached are the
blocks through which every path to it passes. -/
theorem dominators_exact (hg : g.Linked) :
    g.dominators? = some g.dominators ∧
    g.dominators.size = g.size ∧
    (∀ b < g.size, g.dominators.getD b none = none ↔ ¬g.Reachable b) ∧
    g.dominators.getD 0 none = some 0 ∧
    (∀ b, g.Reachable b → b ≠ 0 →
      ∃ up, g.dominators.getD b none = some up ∧ g.ImmediatelyDominates up b) ∧
    ∀ a b, g.Reachable b → (g.dominators.dominates a b ↔ g.Dominates a b) := by
  obtain ⟨number, hsearch, -, hexact⟩ := dominators_spec hg
  refine ⟨hsearch, hexact.size, fun b _ => hexact.unreachable b, hexact.entry, ?_, ?_⟩
  · intro b hb hne
    obtain ⟨up, hup⟩ := Option.isSome_iff_exists.1 ((isSome_dominators_iff hg).2 hb)
    exact ⟨up, hup, hexact.immediate b up hup hne⟩
  · exact fun a b hb => dominates_iff hg hb

/-- Two blocks that lead to each other and are both entered from outside, and a block that cannot be
reached. -/
def tangle : Graph where
  offsets := ⟨#[], 0⟩
  blocks := #[⟨0, 1, [1, 2], [2]⟩, ⟨1, 2, [2], [0, 2, 3]⟩, ⟨2, 3, [0, 1], [0, 1]⟩, ⟨3, 4, [1], []⟩]
  blockOf := #[0, 1, 2, 3]

/-- Neither of the two blocks that are entered from outside dominates the other. -/
theorem dominates_tangle : tangle.Linked ∧ tangle.dominators.dominates 0 2 ∧
    ¬tangle.dominators.dominates 1 2 := by
  have hlinked : tangle.Linked := linked_of_forall (by decide) (by decide) (by decide)
  have hpath : tangle.Path [2, 0] 2 := .step (.entry (by decide)) (by decide)
  obtain ⟨-, -, -, -, -, hiff⟩ := dominators_exact hlinked
  refine ⟨hlinked, (hiff 0 2 ⟨_, hpath⟩).2 (dominates_entry tangle 2), fun h => ?_⟩
  have hmem := (hiff 1 2 ⟨_, hpath⟩).1 h [2, 0] hpath
  simp at hmem

end CilScope.Flow.Graph
