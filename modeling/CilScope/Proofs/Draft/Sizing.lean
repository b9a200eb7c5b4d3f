import CilScope.Proofs.Draft.Faithful
import Mathlib.Logic.Function.Iterate
import Mathlib.Order.Basic

/-!
# Branches are as short as they can be

Widening a branch moves what is behind it, so a branch that reached its target may no longer do so,
in either direction. The distance between two places only grows when branches are widened
(`place_add_le`), hence a branch that reaches its target in a layout also reaches it in every
narrower one. So no pass of widening goes beyond a layout whose short branches all reach their
targets (`below_widen`): the layout that the passes settle on is the least of these. The layouts on
the way are narrower still, so their offsets do not overflow if those of the body do not.
`Draft.finish_shortest` is what this says of a finished body.
-/

namespace CilScope.Draft

/-! ## Narrower layouts -/

/-- The slot has the instruction of another and is at most as long: if the instruction has a short
form and is short in the other slot, it is short in this one. -/
structure Slot.Below (s s' : Slot) : Prop where
  instruction : s.instruction = s'.instruction
  short : s'.short = true → s'.instruction.opcode.shortForm?.isSome → s.short = true

/-- The layout is at most as long as another of the same instructions, slot by slot. -/
structure Below (slots slots' : List Slot) : Prop where
  length : slots.length = slots'.length
  slot : ∀ (k : Nat) s s', slots[k]? = some s → slots'[k]? = some s' → s.Below s'

theorem size_lt_of_shortForm? {op short : Opcode} (h : op.shortForm? = some short) :
    short.size < op.size := by
  cases op <;> cases h <;> decide

theorem exists_shortForm? {op : Opcode} (h : op.operandKind = .branch) :
    ∃ short, op.shortForm? = some short := by
  cases op <;> first | exact ⟨_, rfl⟩ | cases h

theorem Slot.opcode_of_shortForm? {s : Slot} {op : Opcode}
    (h : s.instruction.opcode.shortForm? = some op) :
    s.opcode = if s.short = true then op else s.instruction.opcode := by
  rw [opcode, h, Option.getD_some]

theorem Slot.size_of_short {s : Slot} (hs : s.short = true) {op : Opcode}
    (h : s.instruction.opcode.shortForm? = some op) : s.size = op.size := by
  rw [size, opcode_of_shortForm? h, if_pos hs]

theorem Slot.size_le {s s' : Slot} (h : s.Below s') : s.size ≤ s'.size := by
  obtain ⟨hinstruction, hshort⟩ := h
  rw [size, size]
  cases hform : s'.instruction.opcode.shortForm? with
  | none => simp [opcode, hinstruction, hform]
  | some op =>
    have hlt := size_lt_of_shortForm? hform
    rw [hform] at hshort
    rw [opcode_of_shortForm? hform, opcode_of_shortForm? (hinstruction ▸ hform), hinstruction]
    cases hs' : s'.short with
    | true => rw [hshort hs' rfl]
    | false =>
      cases s.short
      · exact Nat.le_refl _
      · exact Nat.le_of_lt hlt

/-- Behind the last slot there is no further place. -/
theorem place_of_length_le {slots : List Slot} {k : Nat} (h : slots.length ≤ k) :
    place slots k = place slots slots.length := by
  rw [place, place, List.take_of_length_le h, List.take_length]

/-- The distance between two places is at most that in a wider layout. -/
theorem place_add_le {slots slots' : List Slot} (h : Below slots slots') {j k : Nat} (hjk : j ≤ k) :
    place slots k + place slots' j ≤ place slots' k + place slots j := by
  induction k, hjk using Nat.le_induction with
  | base => omega
  | succ k hjk ih =>
    rcases Nat.lt_or_ge k slots.length with hlt | hge
    · have hk := List.getElem?_eq_getElem hlt
      have hk' := List.getElem?_eq_getElem (h.length ▸ hlt)
      have hsize := Slot.size_le (h.slot k _ _ hk hk')
      rw [place_succ hk, place_succ hk']
      omega
    · have hge' : slots'.length ≤ k := h.length ▸ hge
      rw [place_of_length_le hge, place_of_length_le hge'] at ih
      rwa [place_of_length_le (Nat.le_succ_of_le hge), place_of_length_le (Nat.le_succ_of_le hge')]

/-- No place comes later than in a wider layout. -/
theorem place_le_of_below {slots slots' : List Slot} (h : Below slots slots') (k : Nat) :
    place slots k ≤ place slots' k := by
  simpa using place_add_le h (Nat.zero_le k)

/-- What is in reach in a layout is in reach in every narrower one, forwards and backwards. -/
theorem fitsByte_of_below {slots slots' : List Slot} (h : Below slots slots') {t k : Nat}
    (hfits : Instruction.fitsByte ((place slots' t : Int) - place slots' k) = true) :
    Instruction.fitsByte ((place slots t : Int) - place slots k) = true := by
  simp only [Instruction.fitsByte, Bool.and_eq_true, decide_eq_true_eq] at hfits ⊢
  rcases Nat.le_total t k with hle | hle
  · have hgap := place_add_le h hle
    have hmono := place_mono slots hle
    omega
  · have hgap := place_add_le h hle
    have hmono := place_mono slots hle
    omega

/-! ## A pass of widening -/

theorem getElem?_widenFrom (offsetOf : Label → Option UInt32) (offset : UInt32) (slots : List Slot)
    (k : Nat) :
    (widenFrom offsetOf offset slots)[k]? =
      (slots[k]?).map (·.widen offsetOf (offset + .ofNat (place slots (k + 1)))) := by
  induction slots generalizing offset k with
  | nil => rfl
  | cons s slots ih =>
    cases k with
    | zero => rfl
    | succ k =>
      rw [widenFrom, List.getElem?_cons_succ, ih, List.getElem?_cons_succ,
        add_place_cons offset s slots (k + 1)]

theorem length_widenFrom (offsetOf : Label → Option UInt32) (offset : UInt32) (slots : List Slot) :
    (widenFrom offsetOf offset slots).length = slots.length := by
  induction slots generalizing offset with
  | nil => rfl
  | cons s slots ih => rw [widenFrom, List.length_cons, List.length_cons, ih]

theorem getElem?_widen (d : Draft) (slots : List Slot) (k : Nat) :
    (d.widen slots)[k]? =
      (slots[k]?).map (·.widen (d.offsetOf? (offsets slots)) (.ofNat (place slots (k + 1)))) := by
  rw [widen, getElem?_widenFrom, UInt32.zero_add]

theorem length_widen (d : Draft) (slots : List Slot) : (d.widen slots).length = slots.length :=
  length_widenFrom _ _ _

/-- What is not short is not widened. -/
theorem Slot.widen_of_long {offsetOf : Label → Option UInt32} {next : UInt32} {s : Slot}
    (h : s.short = false) : s.widen offsetOf next = s := by
  have htarget : s.shortTarget? = none := by simp [shortTarget?, h]
  rw [widen, htarget, Option.bind_none]

/-- A slot whose short branch reaches its target is not widened. -/
theorem Slot.widen_of_reach {offsetOf : Label → Option UInt32} {next : UInt32} {s : Slot}
    (h : s.short = true → ∀ l target, s.instruction.operand = .label l → offsetOf l = some target →
      Instruction.fitsByte ((target.toNat : Int) - next.toNat) = true) : s.widen offsetOf next = s := by
  rw [widen]
  split
  · rename_i target hbind
    obtain ⟨l, hl, htarget⟩ := Option.bind_eq_some_iff.1 hbind
    unfold shortTarget? at hl
    split at hl
    · rename_i hshort hoperand
      cases hl
      rw [h hshort l target hoperand htarget, ← hshort]
    · cases hl
  · rfl

/-- Every short branch of the layout reaches its target. -/
def Reaching (d : Draft) (slots : List Slot) : Prop :=
  ∀ (k : Nat) s l, slots[k]? = some s → s.short = true → s.instruction.operand = .label l →
    ∃ t, d.target? l = some t ∧ t ≤ slots.length ∧
      Instruction.fitsByte ((place slots t : Int) - place slots (k + 1)) = true

theorem Slot.Below.trans {s s' s'' : Slot} (h : s.Below s') (h' : s'.Below s'') : s.Below s'' where
  instruction := h.instruction.trans h'.instruction
  short hs hform := h.short (h'.short hs hform) (h'.instruction.symm ▸ hform)

theorem Below.trans {slots slots' slots'' : List Slot} (h : Below slots slots')
    (h' : Below slots' slots'') : Below slots slots'' where
  length := h.length.trans h'.length
  slot k s s'' hk hk'' := by
    have hlt : k < slots'.length := h.length ▸ (List.getElem?_eq_some_iff.1 hk).1
    have hk' := List.getElem?_eq_getElem hlt
    exact (h.slot k _ _ hk hk').trans (h'.slot k _ _ hk' hk'')

section

variable {d : Draft} {slots slots' : List Slot}

/-- A narrower layout overflows nowhere if a wider one does not. -/
theorem Below.place_lt (h : Below slots slots') (hlen : place slots' slots'.length < 2 ^ 32) :
    place slots slots.length < 2 ^ 32 :=
  Nat.lt_of_le_of_lt (place_le_of_below h _) (h.length ▸ hlen)

/-- A pass only makes a layout wider. -/
theorem below_widen_self (d : Draft) (slots : List Slot) : Below slots (d.widen slots) := by
  refine ⟨(length_widen d slots).symm, fun k s s' hk hk' => ?_⟩
  rw [getElem?_widen, hk] at hk'
  cases hk'
  exact ⟨(s.instruction_widen _ _).symm, fun hshort _ => Slot.short_of_widen hshort⟩

theorem below_settle_self (d : Draft) (slots : List Slot) : Below slots (d.settle slots) := by
  fun_induction d.settle slots with
  | case1 slots next hlt ih => exact (below_widen_self d slots).trans ih
  | case2 slots next hlt => exact ⟨rfl, fun k s s' hk hk' => by
      rw [hk] at hk'
      cases hk'
      exact ⟨rfl, fun hshort _ => hshort⟩⟩

/-- **A pass of widening stays below every layout whose short branches reach their targets**, as long as
the offsets it starts from do not overflow. -/
theorem below_widen (h : Below slots slots') (hreach : d.Reaching slots')
    (hlen : place slots slots.length < 2 ^ 32) : Below (d.widen slots) slots' := by
  refine ⟨(length_widen d slots).trans h.length, fun k s s' hk hk' => ?_⟩
  rw [getElem?_widen] at hk
  obtain ⟨r, hr, rfl⟩ := Option.map_eq_some_iff.1 hk
  obtain ⟨hinstruction, hshort⟩ := h.slot k r s' hr hk'
  refine ⟨r.instruction_widen _ _ ▸ hinstruction, fun hs' hform => ?_⟩
  rw [Slot.widen_of_reach fun _ l target hl htarget => ?_]
  · exact hshort hs' hform
  · -- the branch reaches its target in the wider layout
    obtain ⟨t, ht, hle, hfits⟩ := hreach k s' l hk' hs' (hinstruction ▸ hl)
    rw [offsetOf?_of_target ht (h.length ▸ hle)] at htarget
    cases htarget
    rw [toNat_ofNat_place hlen, toNat_ofNat_place hlen]
    exact fitsByte_of_below h hfits

theorem below_settle (h : Below slots slots') (hreach : d.Reaching slots')
    (hlen : place (d.settle slots) (d.settle slots).length < 2 ^ 32) :
    Below (d.settle slots) slots' := by
  fun_induction d.settle slots with
  | case1 slots next hlt ih =>
    -- what a pass starts from is narrower than what it ends with
    have hbelow := (below_widen_self d slots).trans (below_settle_self d next)
    exact ih (below_widen h hreach (hbelow.place_lt hlen)) hlen
  | case2 slots next hlt => exact h

/-- The passes start from the narrowest layout. -/
theorem below_start (h : slots'.map Slot.instruction = d.code.toList) :
    Below (d.code.toList.map Slot.start) slots' := by
  refine ⟨by rw [← h, List.length_map, List.length_map], fun k s s' hk hk' => ?_⟩
  rw [← h, List.map_map, List.getElem?_map, hk'] at hk
  cases hk
  exact ⟨rfl, fun _ hform => hform⟩

/-- **The settled layout is the narrowest** of those whose short branches reach their targets. -/
theorem below_settled (h : slots'.map Slot.instruction = d.code.toList)
    (hreach : d.Reaching slots') (hlen : d.bodyLength < 2 ^ 32) : Below d.settled slots' :=
  below_settle (below_start h) hreach hlen

/-! ## The passes end -/

/-- A pass that makes nothing long changes nothing. -/
theorem widen_eq_self (h : ¬ (d.widen slots).countP (·.short) < slots.countP (·.short)) :
    d.widen slots = slots := by
  refine List.ext_getElem? fun k => ?_
  rw [getElem?_widen]
  cases hk : slots[k]? with
  | none => rfl
  | some s =>
    rw [Option.map_some]
    congr 1
    cases hs : s.short with
    | false => exact Slot.widen_of_long hs
    | true =>
      have hshort := short_widen_of_countP h hk hs
      rw [UInt32.zero_add] at hshort
      refine Slot.widen_of_reach fun _ l target hl htarget => ?_
      have hbind : s.shortTarget?.bind (d.offsetOf? (offsets slots)) = some target := by
        simp [Slot.shortTarget?, hs, hl, htarget]
      rwa [Slot.widen, hbind] at hshort

/-- **The passes end**, after at most as many as there are short instructions: the result is that of
the first pass that is followed by one that widens nothing. -/
theorem settle_eq_iterate (d : Draft) (slots : List Slot) :
    ∃ n ≤ slots.countP (·.short), d.settle slots = d.widen^[n] slots ∧
      d.widen (d.settle slots) = d.settle slots ∧
      ∀ m < n, d.widen (d.widen^[m] slots) ≠ d.widen^[m] slots := by
  fun_induction d.settle slots with
  | case1 slots next hlt ih =>
    obtain ⟨n, hn, hiterate, hfixed, hproper⟩ := ih
    refine ⟨n + 1, Nat.lt_of_le_of_lt hn hlt, hiterate, hfixed, fun m hm => ?_⟩
    cases m with
    | zero =>
      intro heq
      exact Nat.ne_of_lt hlt (congrArg (List.countP (·.short)) heq)
    | succ m => exact hproper m (Nat.lt_of_succ_lt_succ hm)
  | case2 slots next hlt =>
    exact ⟨0, Nat.zero_le _, rfl, widen_eq_self hlt, fun m hm => absurd hm (Nat.not_lt_zero m)⟩

end

/-! ## The layout of a finished body -/

/-- A label is the operand of long branches only. -/
def LongBranches (d : Draft) : Prop :=
  ∀ i ∈ d.code.toList, ∀ l, i.operand = .label l → i.opcode.operandKind = .branch

/-- The branches of a draft that was made by proper requests were asked for in their long form. -/
theorem longBranches_of_drafted {history : List Event} {d : Draft} (h : Drafted history d) :
    d.LongBranches := by
  intro i hi l hl
  rw [h.records.code] at hi
  obtain ⟨e, he, hinstruction⟩ := mem_emitted.1 hi
  obtain rfl := branch_of_operand hinstruction hl
  obtain ⟨late, early, rfl⟩ := List.append_of_mem he
  obtain ⟨d', h'⟩ := h.early
  cases h' with
  | step e h hproper => exact hproper.1

/-- The body has the instructions of a draft in the forms of a layout. -/
structure LaidOut (d : Draft) (slots : List Slot) (body : FinishedBody) : Prop where
  instructions : slots.map Slot.instruction = d.code.toList
  code : body.code = Instruction.bytesOf (laidFrom (d.offsetOf? (offsets slots)) 0 slots)
  length : body.code.length = place slots slots.length

section

variable {d : Draft} {body : FinishedBody}

theorem laidOut_settled (h : d.finish = .ok body) : LaidOut d d.settled body :=
  ⟨(settled_spec d).1, bytesOf_instructions h, length_code_of_finish h⟩

/-- The labels of a body that was finished are bound. -/
theorem exists_target_of_settled (h : d.finish = .ok body) {s : Slot} (hs : s ∈ d.settled) {l : Label}
    (hl : s.instruction.operand = .label l) : ∃ t, d.target? l = some t ∧ t ≤ d.settled.length := by
  have hsome := (encodeFrom_eq_ok (finish_eq_ok h).2.1).2.2 s hs l hl
  obtain ⟨target, htarget⟩ := Option.isSome_iff_exists.1 hsome
  obtain ⟨t, ht, -, hle⟩ := offsetOf?_eq_some htarget
  exact ⟨t, ht, hle⟩

theorem reaching_settled (h : d.finish = .ok body) (hlen : d.bodyLength < 2 ^ 32) :
    d.Reaching d.settled := by
  intro k s l hk hs hl
  obtain ⟨t, ht, hle⟩ := exists_target_of_settled h (List.mem_of_getElem? hk) hl
  exact ⟨t, ht, hle, reaches_settled hlen hk hs hl (offsetOf?_of_target ht hle)⟩

/-- The layout with the slot of number `k` made short. -/
def shorten (slots : List Slot) (k : Nat) (s : Slot) : List Slot :=
  slots.set k { s with short := true }

theorem getElem?_shorten {slots : List Slot} {k : Nat} {s : Slot} (hk : slots[k]? = some s) :
    (shorten slots k s)[k]? = some { s with short := true } :=
  List.getElem?_set_self (List.getElem?_eq_some_iff.1 hk).1

theorem map_shorten {slots : List Slot} {k : Nat} {s : Slot} (hk : slots[k]? = some s) :
    (shorten slots k s).map Slot.instruction = slots.map Slot.instruction := by
  have hk' : (slots.map Slot.instruction)[k]? = some s.instruction := by
    rw [List.getElem?_map, hk, Option.map_some]
  obtain ⟨hlt, hget⟩ := List.getElem?_eq_some_iff.1 hk'
  rw [shorten, List.map_set, ← hget, List.set_getElem_self]

theorem below_shorten {slots : List Slot} {k : Nat} {s : Slot} (hk : slots[k]? = some s) :
    Below (shorten slots k s) slots := by
  refine ⟨List.length_set, fun j r r' hj hj' => ?_⟩
  rw [shorten, List.getElem?_set] at hj
  split at hj
  · rename_i heq
    subst heq
    rw [hk] at hj'
    cases hj'
    split at hj
    · cases hj
      exact ⟨rfl, fun _ _ => rfl⟩
    · cases hj
  · rw [hj'] at hj
    cases hj
    exact ⟨rfl, fun hshort _ => hshort⟩

/-- If the short form of one branch reaches the target, that branch can be made short: all short
branches still reach their targets. -/
theorem reaching_shorten {slots : List Slot} (hreach : d.Reaching slots) {k : Nat} {s : Slot}
    (hk : slots[k]? = some s) {op : Opcode} (hform : s.instruction.opcode.shortForm? = some op)
    {l : Label} (hl : s.instruction.operand = .label l) {t : Nat} (ht : d.target? l = some t)
    (hle : t ≤ slots.length)
    (hfits : Instruction.fitsByte ((place slots t : Int) - (place slots k + op.size : Nat)) = true) :
    d.Reaching (shorten slots k s) := by
  have hbelow := below_shorten hk
  intro j r l' hj hr hl'
  by_cases hjk : j = k
  · subst hjk
    have hat := getElem?_shorten hk
    rw [hat] at hj
    cases hj
    rw [show l' = l by simpa [hl] using hl'.symm]
    refine ⟨t, ht, hbelow.length ▸ hle, ?_⟩
    have hsize : Slot.size { s with short := true } = op.size := Slot.size_of_short rfl hform
    have hshorter : Slot.size { s with short := true } ≤ s.size := Slot.size_le ⟨rfl, fun _ _ => rfl⟩
    have hnext := place_succ hk
    have hnext' := place_succ hat
    simp only [Instruction.fitsByte, Bool.and_eq_true, decide_eq_true_eq] at hfits ⊢
    rcases Nat.lt_or_ge j t with hforward | hback
    · have hgap := place_add_le hbelow (show j + 1 ≤ t from hforward)
      have hmono := place_mono (shorten slots j s) (show j + 1 ≤ t from hforward)
      omega
    · have hgap := place_add_le hbelow hback
      have hmono := place_mono (shorten slots j s) hback
      omega
  · have hj' : slots[j]? = some r := by
      rwa [shorten, List.getElem?_set_ne (fun h => hjk h.symm)] at hj
    obtain ⟨t', ht', hle', hfits'⟩ := hreach j r l' hj' hr hl'
    exact ⟨t', ht', hbelow.length ▸ hle', fitsByte_of_below hbelow hfits'⟩

/-- In the settled layout a branch is short exactly if its short form reaches the target. -/
theorem opcode_eq_short_iff (h : d.finish = .ok body) (hlen : d.bodyLength < 2 ^ 32) {k : Nat}
    {s : Slot} (hk : d.settled[k]? = some s) {op : Opcode}
    (hform : s.instruction.opcode.shortForm? = some op) {l : Label}
    (hl : s.instruction.operand = .label l) {t : Nat} (ht : d.target? l = some t)
    (hle : t ≤ d.settled.length) :
    s.opcode = op ↔ Instruction.fitsByte
      ((place d.settled t : Int) - (place d.settled k + op.size : Nat)) = true := by
  have hlt := size_lt_of_shortForm? hform
  have hopcode := Slot.opcode_of_shortForm? hform
  constructor
  · intro hop
    have hshort : s.short = true := by
      refine Decidable.byContradiction fun hlong => ?_
      rw [if_neg hlong, hop] at hopcode
      exact Nat.lt_irrefl _ (hopcode ▸ hlt)
    have hfits := reaches_settled hlen hk hshort hl (offsetOf?_of_target ht hle)
    rwa [place_succ hk, Slot.size, hop] at hfits
  · intro hfits
    -- the settled layout is below the one in which this branch is short
    have hbelow := below_settled ((map_shorten hk).trans (settled_spec d).1)
      (reaching_shorten (reaching_settled h hlen) hk hform hl ht hle hfits) hlen
    have hshort := (hbelow.slot k s _ hk (getElem?_shorten hk)).short rfl (hform ▸ rfl)
    rw [hopcode, if_pos hshort]

end

/-- **Branches are as short as they can be.** The passes of widening end, whatever layout they start
from. In a finished body whose length can be counted in 32 bits a branch is short exactly if the
displacement from the end of its short form fits a byte, and in no other choice of forms whose short
branches reach their targets does an instruction, or the end of the body, come earlier. -/
theorem finish_shortest (d : Draft) :
    (∀ slots, ∃ n ≤ slots.countP (·.short), d.settle slots = d.widen^[n] slots ∧
      d.widen (d.settle slots) = d.settle slots ∧
      ∀ m < n, d.widen (d.widen^[m] slots) ≠ d.widen^[m] slots) ∧
    ∀ body, d.finish = .ok body → body.code.length < 2 ^ 32 → d.LongBranches →
      ∃ slots, LaidOut d slots body ∧ d.Reaching slots ∧
        (∀ (k : Nat) s l, slots[k]? = some s → s.instruction.operand = .label l →
          ∃ short t, s.instruction.opcode.shortForm? = some short ∧
            d.target? l = some t ∧ t ≤ slots.length ∧
            (s.opcode = short ↔ Instruction.fitsByte
              ((place slots t : Int) - (place slots k + short.size : Nat)) = true)) ∧
        ∀ slots', slots'.map Slot.instruction = d.code.toList → d.Reaching slots' →
          ∀ k, place slots k ≤ place slots' k := by
  refine ⟨settle_eq_iterate d, fun body h hlen hlong => ?_⟩
  rw [length_code_of_finish h] at hlen
  refine ⟨d.settled, laidOut_settled h, reaching_settled h hlen, fun k s l hk hl => ?_,
    fun slots' hforms hreach k => place_le_of_below (below_settled hforms hreach hlen) k⟩
  have hmem := List.mem_of_getElem? hk
  have hinstruction : s.instruction ∈ d.code.toList :=
    (settled_spec d).1 ▸ List.mem_map_of_mem hmem
  obtain ⟨short, hform⟩ := exists_shortForm? (hlong _ hinstruction l hl)
  obtain ⟨t, ht, hle⟩ := exists_target_of_settled h hmem hl
  exact ⟨short, t, hform, ht, hle, opcode_eq_short_iff h hlen hk hform hl ht hle⟩

/-- A branch over 128 instructions of one byte, and one back to where it goes. -/
def far : List Event :=
  .branch .br ⟨0⟩ :: .mark ⟨0⟩ ::
    (List.replicate 128 (.emit .nop) ++ [.branch .brfalse ⟨0⟩, .newLabel ⟨0⟩])

/-- The draft of `far`. -/
def farDraft : Draft := far.foldr (fun e d => e.apply d) {}

theorem drafted_replicate {history : List Event} {d : Draft} (h : Drafted history d) (e : Event)
    (hproper : ∀ history d, e.Proper history d) (n : Nat) :
    Drafted (List.replicate n e ++ history)
      ((List.replicate n e).foldr (fun e d => e.apply d) d) := by
  induction n with
  | zero => exact h
  | succ n ih => exact ih.step e (hproper _ _)

theorem drafted_far : Drafted far farDraft := by
  have h := (Drafted.start.step (.newLabel ⟨0⟩) rfl).step (.branch .brfalse ⟨0⟩)
    ⟨rfl, .inl (by simp)⟩
  have h := drafted_replicate h (.emit .nop) (fun _ _ => rfl) 128
  rw [farDraft, far, List.foldr_cons, List.foldr_cons, List.foldr_append]
  exact (h.step (.mark ⟨0⟩) (.inl (by simp))).step (.branch .br ⟨0⟩) ⟨rfl, .inl (by simp)⟩

theorem finish_shortest_far : ∃ body, farDraft.finish = .ok body ∧ body.code.length < 2 ^ 32 ∧
    farDraft.LongBranches ∧ ∃ slots, LaidOut farDraft slots body ∧ farDraft.Reaching slots ∧
      ∀ slots', slots'.map Slot.instruction = farDraft.code.toList → farDraft.Reaching slots' →
        ∀ k, place slots k ≤ place slots' k := by
  have hlong := longBranches_of_drafted drafted_far
  cases hfinish : farDraft.finish with
  | error fault =>
    have hok : farDraft.finish.toOption.isSome = true := by decide +kernel
    rw [hfinish] at hok
    cases hok
  | ok body =>
    have hlen : body.code.length < 2 ^ 32 := by
      rw [length_code_of_finish hfinish]
      exact Nat.lt_of_le_of_lt (bodyLength_le farDraft) (by decide +kernel)
    obtain ⟨slots, hlaid, hreach, -, hleast⟩ := (finish_shortest farDraft).2 body hfinish hlen hlong
    exact ⟨body, rfl, hlen, hlong, slots, hlaid, hreach, hleast⟩

example : (farDraft.settled.filter fun s => s.shortTarget?.isSome).map Slot.opcode = [.brS] ∧
    (farDraft.settled[0]?).map Slot.opcode = some .brfalse := by decide +kernel

end CilScope.Draft
