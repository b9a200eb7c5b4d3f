import CilScope.Metadata.Nesting
import CilScope.Proofs.Metadata.Accepted

/-!
# The nesting of types

`Climbs types k i` says that the chain of enclosing types that starts at the type `i` stays inside the
table and ends after `k` links. The check of a section finds exactly that:

* `badNesting?_eq_none_iff`: nothing is wrong exactly if the chain of every type ends;
* `badNesting?_eq_some`: else the first type whose chain does not end is found;
* `fullName_iff`: the name of a type whose chain ends is the one that goes up the whole chain.
-/

namespace CilScope.Metadata

variable {types : List TypeDef} {i j k l o : Nat}

/-- The index of the type around the one at `i`. -/
def outer? (types : List TypeDef) (i : Nat) : Option Nat := types[i]?.bind (·.enclosing)

/-- From the type at `i` it is `k` links up to a type that is not nested. -/
inductive Climbs (types : List TypeDef) : (k i : Nat) → Prop
  | root {i : Nat} (hi : i < types.length) (h : outer? types i = none) : Climbs types 0 i
  | up {i k o : Nat} (h : outer? types i = some o) (ho : Climbs types k o) : Climbs types (k + 1) i

/-- The chain of enclosing types that starts at `i` stays inside the table and ends. -/
def Rooted (types : List TypeDef) (i : Nat) : Prop := ∃ k, Climbs types k i

theorem lt_of_outer? (h : outer? types i = some o) : i < types.length := by
  obtain ⟨t, ht, -⟩ := Option.bind_eq_some_iff.1 h
  exact (List.getElem?_eq_some_iff.1 ht).1

namespace Climbs

theorem lt (h : Climbs types k i) : i < types.length := by
  cases h with
  | root hi => exact hi
  | up h => exact lt_of_outer? h

theorem unique (h : Climbs types k i) (h' : Climbs types l i) : k = l := by
  induction h generalizing l with
  | root hi h =>
    cases h' with
    | root => rfl
    | up ho => rw [h] at ho; cases ho
  | up ho _ ih =>
    cases h' with
    | root _ h => rw [h] at ho; cases ho
    | up ho' h' =>
      rw [ho] at ho'
      cases ho'
      rw [ih h']

theorem exists_of_le (h : Climbs types k i) (hl : l ≤ k) : ∃ j, Climbs types l j := by
  induction h with
  | root hi h => exact ⟨_, Nat.le_zero.1 hl ▸ root hi h⟩
  | up ho h ih =>
    rcases Nat.lt_or_ge l (_ + 1) with hlt | hge
    · exact ih (Nat.le_of_lt_succ hlt)
    · exact ⟨_, Nat.le_antisymm hl hge ▸ up ho h⟩

/-- The types of a chain are all different ones, so a chain has fewer links than there are types. -/
theorem lt_length (h : Climbs types k i) : k < types.length := by
  choose f hf using fun l : Fin (k + 1) => h.exists_of_le (Nat.le_of_lt_succ l.isLt)
  have hinj : Function.Injective fun l => (⟨f l, (hf l).lt⟩ : Fin types.length) := by
    intro l l' heq
    have hsame : f l = f l' := congrArg Fin.val heq
    exact Fin.ext ((hf l).unique (hsame ▸ hf l'))
  have hcard := Fintype.card_le_of_injective _ hinj
  rw [Fintype.card_fin, Fintype.card_fin] at hcard
  exact hcard

end Climbs

/-! ## The check -/

theorem getElem?_of_outer? (h : outer? types i = some o) :
    ∃ t, types[i]? = some t ∧ t.enclosing = some o :=
  Option.bind_eq_some_iff.1 h

theorem outer?_eq (h : types[i]? = some t) : outer? types i = t.enclosing := by
  rw [outer?, h, Option.bind_some]

/-- A chain that ends and does not come by `start` passes the check. -/
theorem chainEnds_of_climbs {start steps : Nat} (h : Climbs types k i) (hk : k < steps)
    (hstart : ∀ j ≤ k, ¬Climbs types j start) : chainEnds types start steps (some i) = true := by
  induction h generalizing steps with
  | @root i hi h =>
    obtain ⟨steps, rfl⟩ := Nat.exists_eq_succ_of_ne_zero (Nat.ne_zero_of_lt hk)
    have hne : i ≠ start := fun heq => hstart 0 (Nat.le_refl 0) (heq ▸ .root hi h)
    rw [outer?_eq (List.getElem?_eq_getElem hi)] at h
    rw [chainEnds, List.getElem?_eq_getElem hi]
    dsimp only
    rw [h, chainEnds, Bool.and_true]
    exact bne_iff_ne.2 hne
  | @up i k o ho h ih =>
    obtain ⟨steps, rfl⟩ := Nat.exists_eq_succ_of_ne_zero (Nat.ne_zero_of_lt hk)
    have hne : i ≠ start := fun heq => hstart (k + 1) (Nat.le_refl _) (heq ▸ .up ho h)
    obtain ⟨t, ht, henclosing⟩ := getElem?_of_outer? ho
    rw [chainEnds, ht]
    dsimp only
    rw [henclosing, ih (Nat.lt_of_succ_lt_succ hk) fun j hj => hstart j (Nat.le_succ_of_le hj),
      Bool.and_true]
    exact bne_iff_ne.2 hne

/-- A chain that passes the check ends. -/
theorem rooted_of_chainEnds {start steps : Nat} (h : chainEnds types start steps (some i) = true) :
    Rooted types i := by
  induction steps generalizing i with
  | zero => cases h
  | succ steps ih =>
    rw [chainEnds] at h
    split at h
    · cases h
    · rename_i t ht
      rw [Bool.and_eq_true] at h
      cases ho : t.enclosing with
      | none => exact ⟨0, .root (List.getElem?_eq_some_iff.1 ht).1 (by rw [outer?_eq ht, ho])⟩
      | some o =>
        rw [ho] at h
        obtain ⟨k, hk⟩ := ih h.2
        exact ⟨k + 1, .up (by rw [outer?_eq ht, ho]) hk⟩

theorem chainEnds_iff (h : outer? types i = some o) :
    chainEnds types i types.length (some o) = true ↔ Rooted types i := by
  constructor
  · intro hends
    obtain ⟨k, hk⟩ := rooted_of_chainEnds hends
    exact ⟨k + 1, .up h hk⟩
  · rintro ⟨k, hk⟩
    cases hk with
    | root _ hnone => rw [h] at hnone; cases hnone
    | @up _ k o' h' ho =>
      rw [h] at h'
      cases h'
      have hi := Climbs.up h ho
      refine chainEnds_of_climbs ho (Nat.lt_of_succ_lt hi.lt_length) fun j hj hclimb => ?_
      have := hi.unique hclimb
      omega

/-- What the check of one type finds. -/
def badChain? (types : List TypeDef) (i : Nat) : Option (Nat × Nat) :=
  (outer? types i).bind fun o => if chainEnds types i types.length (some o) then none else some (i, o)

theorem badChain?_eq_none_iff (hi : i < types.length) : badChain? types i = none ↔ Rooted types i := by
  rw [badChain?]
  cases ho : outer? types i with
  | none => exact iff_of_true rfl ⟨0, .root hi ho⟩
  | some o =>
    rw [Option.bind_some, ← chainEnds_iff ho]
    split <;> simp_all

theorem badChain?_eq_some {b : Nat × Nat} (h : badChain? types i = some b) :
    b.1 = i ∧ outer? types i = some b.2 := by
  obtain ⟨o, ho, h⟩ := Option.bind_eq_some_iff.1 h
  split at h
  · cases h
  · cases h
    exact ⟨rfl, ho⟩

/-- The rows of a table are its indices. -/
theorem range_length (types : List TypeDef) : List.range types.length = types.zipIdx.map Prod.snd := by
  rw [List.zipIdx_map_snd, List.range_eq_range']

theorem badNesting?_eq (types : List TypeDef) :
    badNesting? types = (List.range types.length).findSome? (badChain? types) := by
  rw [badNesting?, range_length, List.findSome?_map, ← List.head?_filterMap, ← List.head?_filterMap]
  refine congrArg List.head? (List.filterMap_congr fun x hx => ?_)
  rw [Function.comp_apply, badChain?, outer?_eq (List.mem_zipIdx_iff_getElem?.1 hx)]

/-- Nothing is wrong exactly if the chain of every type ends. -/
theorem badNesting?_eq_none_iff :
    badNesting? types = none ↔ ∀ i < types.length, Rooted types i := by
  rw [badNesting?_eq, List.findSome?_eq_none_iff]
  constructor
  · exact fun h i hi => (badChain?_eq_none_iff hi).1 (h i (List.mem_range.2 hi))
  · exact fun h i hi => (badChain?_eq_none_iff (List.mem_range.1 hi)).2 (h i (List.mem_range.1 hi))

/-- What is found is the first type whose chain does not end. -/
theorem badNesting?_eq_some (h : badNesting? types = some (i, o)) :
    outer? types i = some o ∧ ¬Rooted types i ∧ ∀ j < i, Rooted types j := by
  rw [badNesting?_eq] at h
  obtain ⟨before, i', behind, hrange, hbad, hgood⟩ := List.findSome?_eq_some_iff.1 h
  obtain ⟨rfl, ho⟩ := badChain?_eq_some hbad
  have hi := lt_of_outer? ho
  refine ⟨ho, fun hrooted => ?_, fun j hj => ?_⟩
  · rw [(badChain?_eq_none_iff hi).2 hrooted] at hbad
    cases hbad
  · have hj' := Nat.lt_trans hj hi
    refine (badChain?_eq_none_iff hj').1 (hgood j ?_)
    -- the indices are in order, so those below stand before it
    have hsorted := List.pairwise_lt_range (n := types.length)
    have hmem := List.mem_range.2 hj'
    rw [hrange] at hsorted hmem
    rcases List.mem_append.1 hmem with hmem | hmem
    · exact hmem
    · rcases List.mem_cons.1 hmem with rfl | hmem
      · exact absurd hj (Nat.lt_irrefl _)
      · have hlt := List.rel_of_pairwise_cons (List.pairwise_append.1 hsorted).2.1 hmem
        exact absurd hj (Nat.lt_asymm hlt)

/-! ## Names -/

/-- The name of a type: that of the type around it first. -/
inductive FullName (types : List TypeDef) : Nat → String → Prop
  | root {i : Nat} {t : TypeDef} (ht : types[i]? = some t) (h : t.enclosing = none) :
      FullName types i (qualified t.namespace_ t.name)
  | nested {i o : Nat} {t : TypeDef} {s : String} (ht : types[i]? = some t) (h : t.enclosing = some o)
      (ho : FullName types o s) : FullName types i (s ++ "/" ++ t.name)

theorem FullName.unique {s s' : String} (h : FullName types i s) (h' : FullName types i s') : s = s' := by
  induction h generalizing s' with
  | root ht h =>
    cases h' with
    | root ht' _ => rw [ht] at ht'; cases ht'; rfl
    | nested ht' h' => rw [ht] at ht'; cases ht'; rw [h] at h'; cases h'
  | nested ht h _ ih =>
    cases h' with
    | root ht' h' => rw [ht] at ht'; cases ht'; rw [h] at h'; cases h'
    | nested ht' h' ho' =>
      rw [ht] at ht'
      cases ht'
      rw [h] at h'
      cases h'
      rw [ih ho']

/-- Within the links of its chain the name of a type is found. -/
theorem fullName_fullNameWithin {depth : Nat} (h : Climbs types k i) (hk : k ≤ depth) :
    FullName types i (fullNameWithin types depth i) := by
  induction h generalizing depth with
  | @root i hi h =>
    have ht := List.getElem?_eq_getElem hi
    rw [outer?_eq ht] at h
    rw [fullNameWithin.eq_def]
    dsimp only
    rw [ht]
    dsimp only
    rw [h]
    exact .root ht h
  | @up i k o ho _ ih =>
    obtain ⟨depth, rfl⟩ := Nat.exists_eq_succ_of_ne_zero (Nat.ne_zero_of_lt hk)
    obtain ⟨t, ht, h⟩ := getElem?_of_outer? ho
    rw [fullNameWithin.eq_def]
    dsimp only
    rw [ht]
    dsimp only
    rw [h]
    exact .nested ht h (ih (Nat.le_of_succ_le_succ hk))

/-- The name of a type whose chain ends is the one that goes up the whole chain. -/
theorem fullName_iff {m : Metadata} (h : Rooted m.types i) (name : String) :
    FullName m.types i name ↔ name = m.typeFullName i := by
  obtain ⟨k, hk⟩ := h
  have hname := fullName_fullNameWithin hk hk.lt_length.le
  exact ⟨fun h => h.unique hname, fun h => h ▸ hname⟩

end CilScope.Metadata
