import CilScope.Proofs.Draft.Block
import CilScope.Proofs.Draft.Layout
import CilScope.Proofs.Spelling.Tree

/-!
# Drafts of two runs

Two runs of code generation may spell names differently, and one of them may leave out the debug
information. Since every noted statement takes a label, the two runs then count their labels differently:
a pairing says which label of the one run is which of the other. `Twin` says that two drafts are the same
up to that. Every way to go on with a draft keeps this, and what is laid out in the end has the same code
(`Twin.finish_eq`).
-/

namespace CilScope

/-- How a second run differs from a first one. -/
structure Variation where
  /-- How names are spelled, which the language does not see. -/
  spell : String → String
  language : Language
  spelling : Respelling language spell
  /-- Debug information is kept. -/
  debug : Bool

/-- The local with its name spelled as in the second run. -/
def LocalVar.vary (v : Variation) (x : LocalVar) : LocalVar :=
  { x with name := if v.debug then x.name.map v.spell else none }

/-- The body with its debug information as in the second run. -/
def FinishedBody.vary (v : Variation) (body : FinishedBody) : FinishedBody :=
  { body with
    locals := body.locals.map (·.vary v)
    points := if v.debug then body.points else [] }

/-- Which label of a first run is which of a second run. -/
abbrev Pairing := Label → Label → Prop

/-- The pairing with one more pair. -/
def Pairing.add (ρ : Pairing) (l l' : Label) : Pairing := fun m m' => ρ m m' ∨ m = l ∧ m' = l'

theorem Pairing.le_add (ρ : Pairing) (l l' : Label) : ρ ≤ ρ.add l l' := fun _ _ => .inl

/-- Operands that are the same up to the pairing of labels. -/
inductive DraftOperand.Twin (ρ : Pairing) : DraftOperand → DraftOperand → Prop
  | same {o : DraftOperand} (h : ∀ l, o ≠ .label l) : Twin ρ o o
  | label {l l' : Label} (h : ρ l l') : Twin ρ (.label l) (.label l')

theorem DraftOperand.Twin.eq_or_label {ρ : Pairing} {o o' : DraftOperand} (h : o.Twin ρ o') :
    (o' = o ∧ ∀ l, o ≠ .label l) ∨ ∃ l l', ρ l l' ∧ o = .label l ∧ o' = .label l' := by
  cases h with
  | same h => exact .inl ⟨rfl, h⟩
  | label h => exact .inr ⟨_, _, h, rfl, rfl⟩

/-- Instructions that are the same up to the pairing of labels. -/
structure DraftInstruction.Twin (ρ : Pairing) (i i' : DraftInstruction) : Prop where
  opcode : i'.opcode = i.opcode
  operand : i.operand.Twin ρ i'.operand

theorem DraftOperand.Twin.mono {ρ ρ' : Pairing} {o o' : DraftOperand} (h : o.Twin ρ o')
    (hρ : ρ ≤ ρ') : o.Twin ρ' o' := by
  cases h with
  | same h => exact .same h
  | label h => exact .label (hρ _ _ h)

namespace Draft

/-- Drafts that are the same up to the pairing of labels and the variation. -/
structure Twin (v : Variation) (ρ : Pairing) (d d' : Draft) : Prop where
  code : List.Forall₂ (DraftInstruction.Twin ρ) d.code.toList d'.code.toList
  has : ∀ {l l'}, ρ l l' → d.Has l ∧ d'.Has l'
  label : ∀ {l l'}, ρ l l' → d'.labels[l'.index]? = d.labels[l.index]?
  unique : ∀ {l l' m m'}, ρ l l' → ρ m m' → (l = m ↔ l' = m')
  locals : d'.locals = d.locals.map (·.vary v)
  points : d'.points = if v.debug then d.points else #[]
  clauses : d'.clauses = d.clauses
  depth : d'.depth = d.depth
  maxDepth : d'.maxDepth = d.maxDepth
  unreachable : d'.unreachable = d.unreachable
  fault : d'.fault = d.fault

namespace Twin

variable {v : Variation} {ρ : Pairing} {d d' : Draft}

theorem empty (v : Variation) : Twin v (fun _ _ => False) {} {} where
  code := .nil
  has := False.elim
  label := False.elim
  unique := fun h => h.elim
  locals := Array.map_empty.symm
  points := by split <;> rfl
  clauses := rfl
  depth := rfl
  maxDepth := rfl
  unreachable := rfl
  fault := rfl

theorem size_code (h : Twin v ρ d d') : d'.code.size = d.code.size := by
  rw [← Array.length_toList, ← Array.length_toList, h.code.length_eq]

/-! ### Instructions -/

theorem push (h : Twin v ρ d d') (op : Opcode) {o o' : DraftOperand} (ho : o.Twin ρ o')
    (pops pushes : UInt32) : Twin v ρ (d.push op o pops pushes) (d'.push op o' pops pushes) := by
  have hcode : List.Forall₂ (DraftInstruction.Twin ρ) (d.code.push ⟨op, o⟩).toList
      (d'.code.push ⟨op, o'⟩).toList := by
    rw [Array.toList_push, Array.toList_push]
    exact List.rel_append h.code (.cons ⟨rfl, ho⟩ .nil)
  unfold Draft.push
  dsimp only
  rw [h.depth, h.maxDepth]
  split
  · exact { h with code := hcode, depth := rfl, maxDepth := rfl }
  · exact { h with code := hcode, depth := rfl, maxDepth := rfl, unreachable := rfl }

theorem exceed (h : Twin v ρ d d') (fault : GenerationFault) :
    Twin v ρ (d.exceed fault) (d'.exceed fault) :=
  { h with fault := by rw [Draft.exceed, Draft.exceed, h.fault] }

/-! ### Labels -/

/-- Labels that are new in one run or in both do not change those that are paired. -/
theorem label_push (h : Twin v ρ d d') {l l' : Label} (hl : ρ l l') (s s' : LabelState) :
    (d.labels.push s)[l.index]? = d.labels[l.index]? ∧
      (d'.labels.push s')[l'.index]? = d'.labels[l'.index]? := by
  obtain ⟨hhas, hhas'⟩ := h.has hl
  constructor
  · rw [Array.getElem?_push, if_neg (Nat.ne_of_lt hhas)]
  · rw [Array.getElem?_push, if_neg (Nat.ne_of_lt hhas')]

/-- Both runs make a label that nothing is paired with. -/
theorem push_labels (h : Twin v ρ d d') (s s' : LabelState) :
    Twin v ρ { d with labels := d.labels.push s } { d' with labels := d'.labels.push s' } :=
  { h with
    has := fun hl => (h.has hl).imp (fun hhas => Nat.lt_of_lt_of_le hhas (by simp))
      fun hhas => Nat.lt_of_lt_of_le hhas (by simp)
    label := fun hl => by
      obtain ⟨hpush, hpush'⟩ := h.label_push hl s s'
      rw [hpush, hpush', h.label hl] }

/-- The first run makes a label that nothing is paired with. -/
theorem push_labels_left (h : Twin v ρ d d') (s : LabelState) :
    Twin v ρ { d with labels := d.labels.push s } d' :=
  { h with
    has := fun hl => (h.has hl).imp (fun hhas => Nat.lt_of_lt_of_le hhas (by simp)) id
    label := fun hl => by rw [(h.label_push hl s s).1, h.label hl] }

theorem newLabel (h : Twin v ρ d d') :
    Twin v (ρ.add d.newLabel.2 d'.newLabel.2) d.newLabel.1 d'.newLabel.1 := by
  have hpush := h.push_labels {} {}
  have hfresh {l l' : Label} (hl : ρ l l') : l ≠ d.newLabel.2 ∧ l' ≠ d'.newLabel.2 := by
    obtain ⟨hhas, hhas'⟩ := h.has hl
    exact ⟨fun heq => Nat.lt_irrefl _ (heq ▸ hhas), fun heq => Nat.lt_irrefl _ (heq ▸ hhas')⟩
  refine { hpush with code := ?_, has := ?_, label := ?_, unique := ?_ }
  · exact h.code.imp fun i i' hi => ⟨hi.opcode, hi.operand.mono (ρ.le_add _ _)⟩
  · rintro l l' (hl | ⟨rfl, rfl⟩)
    · exact hpush.has hl
    · exact ⟨has_newLabel d, has_newLabel d'⟩
  · rintro l l' (hl | ⟨rfl, rfl⟩)
    · exact hpush.label hl
    · simp [Draft.newLabel]
  · rintro l l' m m' (hl | ⟨rfl, rfl⟩) (hm | ⟨rfl, rfl⟩)
    · exact h.unique hl hm
    · exact iff_of_false (hfresh hl).1 (hfresh hl).2
    · exact iff_of_false (hfresh hm).1.symm (hfresh hm).2.symm
    · exact iff_of_true rfl rfl

/-- Both runs change what is known of a label, in the same way. -/
theorem set_label (h : Twin v ρ d d') {l l' : Label} (hl : ρ l l')
    {g : Option LabelState → Option LabelState} {labels labels' : Array LabelState}
    (hg : ∀ i, labels[i]? = if i = l.index then g d.labels[i]? else d.labels[i]?)
    (hg' : ∀ i, labels'[i]? = if i = l'.index then g d'.labels[i]? else d'.labels[i]?)
    {m m' : Label} (hm : ρ m m') : labels'[m'.index]? = labels[m.index]? := by
  rw [hg, hg', h.label hm]
  by_cases heq : m = l
  · rw [heq, (h.unique hm hl).1 heq, if_pos rfl, if_pos rfl]
  · have heq' : m' ≠ l' := fun heq' => heq ((h.unique hm hl).2 heq')
    rw [if_neg fun hindex => heq (congrArg Label.mk hindex),
      if_neg fun hindex => heq' (congrArg Label.mk hindex)]

theorem mark (h : Twin v ρ d d') {l l' : Label} (hl : ρ l l') : Twin v ρ (d.mark l) (d'.mark l') := by
  have hset {m m' : Label} (hm : ρ m m') (s : LabelState) :
      (d'.labels.setIfInBounds l'.index s)[m'.index]? = (d.labels.setIfInBounds l.index s)[m.index]? := by
    have hset (labels : Array LabelState) (k i : Nat) : (labels.setIfInBounds k s)[i]? =
        if i = k then labels[i]?.map fun _ => s else labels[i]? := by
      rw [Array.getElem?_setIfInBounds]
      by_cases hik : i = k
      · by_cases hlt : i < labels.size <;> simp [← hik, hlt]
      · rw [if_neg hik, if_neg (Ne.symm hik)]
    exact h.set_label hl (g := Option.map fun _ => s) (hset _ _) (hset _ _) hm
  have hhas {m m' : Label} (hm : ρ m m') (s : LabelState) :
      m.index < (d.labels.setIfInBounds l.index s).size ∧
        m'.index < (d'.labels.setIfInBounds l'.index s).size := by
    rw [Array.size_setIfInBounds, Array.size_setIfInBounds]
    exact h.has hm
  unfold Draft.mark
  rw [h.label hl, h.size_code, h.unreachable, h.depth]
  dsimp only
  split
  · split
    · exact { h with has := (hhas · _), label := (hset · _), depth := rfl, unreachable := rfl }
    · exact { h with has := (hhas · _), label := (hset · _), depth := rfl, unreachable := rfl }
  · exact { h with has := (hhas · _), label := (hset · _), depth := rfl, unreachable := rfl }

theorem branch (h : Twin v ρ d d') (op : Opcode) {l l' : Label} (hl : ρ l l') :
    Twin v ρ (d.branch op l) (d'.branch op l') := by
  have hmodify {m m' : Label} (hm : ρ m m') (g : LabelState → LabelState) :
      (d'.labels.modify l'.index g)[m'.index]? = (d.labels.modify l.index g)[m.index]? := by
    have hset (labels : Array LabelState) (k i : Nat) : (labels.modify k g)[i]? =
        if i = k then labels[i]?.map g else labels[i]? := by
      rw [Array.getElem?_modify]
      simp only [eq_comm]
    exact h.set_label hl (g := Option.map g) (hset _ _) (hset _ _) hm
  have hhas {m m' : Label} (hm : ρ m m') (g : LabelState → LabelState) :
      m.index < (d.labels.modify l.index g).size ∧ m'.index < (d'.labels.modify l'.index g).size := by
    rw [Array.size_modify, Array.size_modify]
    exact h.has hm
  unfold Draft.branch
  dsimp only
  rw [h.depth]
  refine push ?_ op (.label hl) _ _
  exact { h with has := (hhas · _), label := (hmodify · _), depth := rfl }

/-! ### Locals, positions and protected regions -/

theorem declareLocal (h : Twin v ρ d d') (sig : TypeSig) (name : Option String) :
    Twin v ρ (d.declareLocal sig name).1
        (d'.declareLocal sig (if v.debug then name.map v.spell else none)).1 ∧
      (d'.declareLocal sig (if v.debug then name.map v.spell else none)).2 =
        (d.declareLocal sig name).2 := by
  have hlocals : d'.locals.push { sig, name := if v.debug then name.map v.spell else none } =
      (d.locals.push { sig, name }).map (·.vary v) := by
    rw [Array.map_push, h.locals]
    rfl
  have hdeclared : Twin v ρ { d with locals := d.locals.push { sig, name } } { d' with
      locals := d'.locals.push { sig, name := if v.debug then name.map v.spell else none } } :=
    { h with locals := hlocals }
  have hslot : d'.locals.size = d.locals.size := by rw [h.locals, Array.size_map]
  unfold Draft.declareLocal
  dsimp only
  rw [hslot]
  split
  · exact ⟨hdeclared, rfl⟩
  · exact ⟨hdeclared.exceed _, rfl⟩

theorem anchor (h : Twin v ρ d d') : Twin v ρ d.anchor.1 d'.anchor.1 ∧ d'.anchor.2 = d.anchor.2 :=
  ⟨h.push_labels _ _, h.size_code⟩

/-- Both runs note the start of a statement. -/
theorem point (h : Twin v ρ d d') (hv : v.debug = true) (pos : Source.Position) :
    Twin v ρ (d.point pos) (d'.point pos) := by
  refine { h.anchor.1 with points := ?_ }
  have hpoints := h.points
  rw [hv] at hpoints ⊢
  exact congrArg₂ (fun points i => Array.push points (i, pos)) hpoints h.size_code

/-- The first run notes the start of a statement, which the second run leaves out. -/
theorem point_left (h : Twin v ρ d d') (hv : v.debug = false) (pos : Source.Position) :
    Twin v ρ (d.point pos) d' := by
  refine { h.push_labels_left { target := some d.code.size } with points := ?_ }
  have hpoints := h.points
  rw [hv] at hpoints ⊢
  exact hpoints

theorem beginHandler (h : Twin v ρ d d') (tryStart : Nat) (kind : ClauseKind) :
    Twin v ρ (d.beginHandler tryStart kind).1 (d'.beginHandler tryStart kind).1 ∧
      (d'.beginHandler tryStart kind).2 = (d.beginHandler tryStart kind).2 := by
  refine ⟨{ h.anchor.1 with depth := rfl, maxDepth := ?_, unreachable := rfl }, ?_⟩
  · exact congrArg (max · _) h.maxDepth
  · exact congrArg (OpenHandler.mk kind tryStart) h.size_code

theorem endHandler (h : Twin v ρ d d') (handler : OpenHandler) :
    Twin v ρ (d.endHandler handler) (d'.endHandler handler) := by
  refine { h.anchor.1 with clauses := ?_ }
  exact congrArg₂ (fun clauses stop => Array.push clauses
    ⟨handler.kind, handler.tryStart, handler.start, stop⟩) h.clauses h.size_code

end Twin

/-! ## Laying out -/

/-- Every branch goes to a label that is bound in the draft. -/
def Closed (d : Draft) : Prop :=
  ∀ i ∈ d.code, ∀ l, i.operand = .label l → ∃ t, d.target? l = some t ∧ t ≤ d.code.size

/-- The branches of a block go to its exits or to labels that it binds. -/
theorem Block.allows_or_bound {x : Exits} {d d' : Draft} (h : Block x d d') {i : DraftInstruction}
    {l : Label} (hi : i ∈ d'.code) (hl : i.operand = .label l) :
    i ∈ d.code ∨ x.Allows l ∨ ∃ t, d'.target? l = some t := by
  induction h generalizing l with
  | rest h => exact .inl (h.code ▸ hi)
  | add h hexit _ =>
    rw [h.code, Array.mem_push] at hi
    rcases hi with hi | rfl
    · exact .inl hi
    · exact .inr (.inl ((hexit l hl).imp id And.right))
  | seq _ h' ih ih' =>
    rcases ih' hi hl with hi | hexit | hbound
    · rcases ih hi hl with hi | hexit | ⟨t, ht⟩
      · exact .inl hi
      · exact .inr (.inl hexit)
      · exact .inr (.inr ⟨t, h'.binds l t ht⟩)
    · exact .inr (.inl hexit)
    · exact .inr (.inr hbound)
  | @forward x d d' m _ _ hhas hfree ih =>
    rw [code_mark] at hi
    rcases ih hi hl with hi | hexit | ⟨t, ht⟩
    · exact .inl hi
    · rcases hexit.of_with_ with rfl | hexit
      · exact .inr (.inr ⟨_, target?_mark d' hhas⟩)
      · exact .inr (.inl hexit)
    · exact .inr (.inr ⟨t, binds_mark hfree l t ht⟩)
  | @backward x d d' m _ hhas _ h ih =>
    rcases ih hi hl with hi | hexit | hbound
    · exact .inl (code_mark d ▸ hi)
    · rcases hexit.of_with_ with rfl | hexit
      · exact .inr (.inr ⟨_, h.binds l _ (target?_mark d hhas)⟩)
      · exact .inr (.inl hexit)
    · exact .inr (.inr hbound)
  | @protect x d d₁ d₂ kind _ _ h' _ ih ih' =>
    have hbinds : Binds d₁ (d₂.endHandler ⟨kind, d.code.size, d₁.code.size⟩) :=
      (grows_beginHandler _ _ kind _).binds.trans (h'.binds.trans (grows_endHandler _ _ _).binds)
    rcases ih' hi hl with hi | hexit | ⟨t, ht⟩
    · rcases ih hi hl with hi | hexit | ⟨t, ht⟩
      · exact .inl hi
      · exact .inr (.inl (Exits.allows_inside.1 hexit))
      · exact .inr (.inr ⟨t, hbinds l t ht⟩)
    · exact .inr (.inl (Exits.allows_inside.1 hexit))
    · exact .inr (.inr ⟨t, (grows_endHandler _ _ _).binds l t ht⟩)

/-- The branches of a whole body go to labels that it binds. -/
theorem Block.closed {d : Draft} (h : Block .body {} d) : d.Closed := by
  intro i hi l hl
  rcases h.allows_or_bound hi hl with hi | hexit | ⟨t, ht⟩
  · exact absurd hi (Array.not_mem_empty i)
  · exact (hexit.elim id id).elim
  · exact ⟨t, ht, (h.sound .empty).bound l t ht⟩

/-- Slots that are the same up to the pairing of labels. -/
structure Slot.Twin (ρ : Pairing) (s s' : Slot) : Prop where
  instruction : s.instruction.Twin ρ s'.instruction
  short : s'.short = s.short

section

variable {ρ : Pairing} {s s' : Slot} {slots slots' : List Slot}
  {offsetOf offsetOf' : Label → Option UInt32}

theorem Slot.Twin.opcode_eq (h : s.Twin ρ s') : s'.opcode = s.opcode := by
  rw [Slot.opcode, Slot.opcode, h.instruction.opcode, h.short]

theorem Slot.Twin.size_eq (h : s.Twin ρ s') : s'.size = s.size := congrArg Opcode.size h.opcode_eq

theorem Slot.Twin.widen (h : s.Twin ρ s') (hoffset : ∀ {l l'}, ρ l l' → offsetOf' l' = offsetOf l)
    (next : UInt32) : (s.widen offsetOf next).Twin ρ (s'.widen offsetOf' next) := by
  have htarget : s'.shortTarget?.bind offsetOf' = s.shortTarget?.bind offsetOf := by
    unfold Slot.shortTarget?
    rw [h.short]
    cases s.short with
    | false => rfl
    | true =>
      rcases h.instruction.operand.eq_or_label with ⟨heq, hno⟩ | ⟨l, l', hl, ho, ho'⟩
      · rw [heq]
        cases ho : s.instruction.operand with
        | label l => exact absurd ho (hno l)
        | none | int | var | token => rfl
      · rw [ho, ho']
        exact hoffset hl
  rw [Slot.widen, Slot.widen, htarget]
  split
  · exact ⟨h.instruction, rfl⟩
  · exact h

theorem offsetsFrom_eq (h : List.Forall₂ (Slot.Twin ρ) slots slots') (offset : UInt32) :
    offsetsFrom offset slots' = offsetsFrom offset slots := by
  induction h generalizing offset with
  | nil => rfl
  | cons hs _ ih => rw [offsetsFrom, offsetsFrom, hs.size_eq, ih]

theorem twin_widenFrom (h : List.Forall₂ (Slot.Twin ρ) slots slots')
    (hoffset : ∀ {l l'}, ρ l l' → offsetOf' l' = offsetOf l) (offset : UInt32) :
    List.Forall₂ (Slot.Twin ρ) (widenFrom offsetOf offset slots)
      (widenFrom offsetOf' offset slots') := by
  induction h generalizing offset with
  | nil => exact .nil
  | cons hs _ ih =>
    rw [widenFrom, widenFrom, hs.size_eq]
    exact .cons (hs.widen hoffset _) (ih _)

/-- The bytes are the same if all branches go to labels that have an offset. -/
theorem encodeFrom_eq (h : List.Forall₂ (Slot.Twin ρ) slots slots')
    (hoffset : ∀ {l l'}, ρ l l' → offsetOf' l' = offsetOf l)
    (hbound : ∀ s ∈ slots, ∀ l, s.instruction.operand = .label l → (offsetOf l).isSome)
    (offset : UInt32) : encodeFrom offsetOf' offset slots' = encodeFrom offsetOf offset slots := by
  induction h generalizing offset with
  | nil => rfl
  | @cons s s' slots slots' hs _ ih =>
    have hoperand : operand offsetOf' s'.instruction.operand =
        operand offsetOf s.instruction.operand := by
      rcases hs.instruction.operand.eq_or_label with ⟨heq, hno⟩ | ⟨l, l', hl, ho, ho'⟩
      · rw [heq]
        cases ho : s.instruction.operand with
        | label l => exact absurd ho (hno l)
        | none | int | var | token => rfl
      · obtain ⟨t, ht⟩ := Option.isSome_iff_exists.1 (hbound s (List.mem_cons_self ..) l ho)
        rw [ho, ho', operand, operand, hoffset hl, ht]
    rw [encodeFrom, encodeFrom, hoperand, hs.opcode_eq, hs.size_eq]
    simp only [ih fun t ht => hbound t (List.mem_cons_of_mem _ ht)]

end

namespace Twin

variable {v : Variation} {ρ : Pairing} {d d' : Draft}

theorem offsetOf?_eq (h : Twin v ρ d d') (offsets : Array UInt32) {l l' : Label} (hl : ρ l l') :
    d'.offsetOf? offsets l' = d.offsetOf? offsets l := by
  rw [offsetOf?, offsetOf?, h.label hl]

theorem settle (h : Twin v ρ d d') {slots slots' : List Slot}
    (hslots : List.Forall₂ (Slot.Twin ρ) slots slots') :
    List.Forall₂ (Slot.Twin ρ) (d.settle slots) (d'.settle slots') := by
  have hcount {slots slots' : List Slot} (hslots : List.Forall₂ (Slot.Twin ρ) slots slots') :
      slots'.countP (·.short) = slots.countP (·.short) := by
    induction hslots with
    | nil => rfl
    | cons hs _ ih => rw [List.countP_cons, List.countP_cons, ih, hs.short]
  have hwiden {slots slots' : List Slot} (hslots : List.Forall₂ (Slot.Twin ρ) slots slots') :
      List.Forall₂ (Slot.Twin ρ) (d.widen slots) (d'.widen slots') := by
    refine twin_widenFrom hslots (fun hl => ?_) 0
    rw [offsets, offsetsFrom_eq hslots]
    exact h.offsetOf?_eq _ hl
  induction hn : slots.countP (·.short) using Nat.strong_induction_on generalizing slots slots' with
  | _ n ih =>
    rw [Draft.settle.eq_def d slots, Draft.settle.eq_def d' slots']
    dsimp only
    rw [hcount (hwiden hslots), hcount hslots]
    split
    · exact ih _ (hn ▸ ‹_›) (hwiden hslots) rfl
    · exact hslots

theorem settled (h : Twin v ρ d d') : List.Forall₂ (Slot.Twin ρ) d.settled d'.settled := by
  refine h.settle (List.forall₂_map_left_iff.2 (List.forall₂_map_right_iff.2 (h.code.imp ?_)))
  exact fun i i' hi => ⟨hi, by rw [Slot.start, Slot.start, hi.opcode]⟩

theorem closed (h : Twin v ρ d d') (hclosed : d.Closed) : d'.Closed := by
  have hmem {code code' : List DraftInstruction} (hcode : List.Forall₂ (DraftInstruction.Twin ρ) code code')
      {i' : DraftInstruction} (hi' : i' ∈ code') : ∃ i ∈ code, i.Twin ρ i' := by
    induction hcode with
    | nil => cases hi'
    | cons hi _ ih =>
      rcases List.mem_cons.1 hi' with rfl | hi'
      · exact ⟨_, List.mem_cons_self .., hi⟩
      · obtain ⟨i, hi, htwin⟩ := ih hi'
        exact ⟨i, List.mem_cons_of_mem _ hi, htwin⟩
  intro i' hi' l' hl'
  obtain ⟨i, hi, htwin⟩ := hmem h.code (Array.mem_toList_iff.2 hi')
  rcases htwin.operand.eq_or_label with ⟨heq, hno⟩ | ⟨l, m', hl, ho, ho'⟩
  · exact absurd (heq.symm.trans hl') (hno l')
  · obtain rfl : m' = l' := DraftOperand.label.inj (ho'.symm.trans hl')
    obtain ⟨t, ht, hle⟩ := hclosed i (Array.mem_toList_iff.1 hi) l ho
    rw [target?, ← h.label hl] at ht
    exact ⟨t, ht, h.size_code ▸ hle⟩

end Twin

/-- A label that is bound has an offset in every layout. -/
theorem Closed.offsetOf? {d : Draft} (h : d.Closed) {slots : List Slot}
    (hslots : slots.map Slot.instruction = d.code.toList) {s : Slot} (hs : s ∈ slots) {l : Label}
    (hl : s.instruction.operand = .label l) : (d.offsetOf? (offsets slots) l).isSome := by
  have hmem : s.instruction ∈ d.code :=
    Array.mem_toList_iff.1 (hslots ▸ List.mem_map_of_mem hs)
  obtain ⟨t, ht, hle⟩ := h _ hmem l hl
  have hlen : slots.length = d.code.size := by
    rw [← Array.length_toList, ← hslots, List.length_map]
  obtain ⟨state, hstate, ht⟩ := Option.bind_eq_some_iff.1 ht
  rw [Draft.offsetOf?, hstate, Option.bind_some, ht, Option.bind_some, getElem?_offsets,
    if_pos (hlen ▸ hle)]
  rfl

/-- A draft without unbound labels is laid out unless a limit is exceeded. -/
theorem Closed.finish_eq {d : Draft} (h : d.Closed) (hfault : d.fault = none) :
    d.finish = (encodeFrom (d.offsetOf? (offsets d.settled)) 0 d.settled).map fun code =>
      { code
        instructionCount := d.code.size
        maxStack := d.maxStack code.length
        locals := d.locals.toList
        clauses := d.clauses.toList.map (clause (offsets d.settled))
        points := d.points.toList.map fun (i, pos) => ((offsets d.settled).getD i 0, pos) } := by
  have hfind : ((d.code.toList.map Slot.start).filterMap Slot.shortTarget?).find?
      (fun l => (d.offsetOf? (offsets (d.code.toList.map Slot.start)) l).isNone) = none := by
    refine List.find?_eq_none.2 fun l hl => ?_
    obtain ⟨s, hs, hl⟩ := List.mem_filterMap.1 hl
    have hlabel : s.instruction.operand = .label l := by
      unfold Slot.shortTarget? at hl
      split at hl
      · cases hl
        assumption
      · cases hl
    have hsome := h.offsetOf? (by rw [List.map_map]; exact List.map_id _) hs hlabel
    rw [← Option.not_isSome, hsome]
    exact Bool.false_ne_true
  unfold finish
  simp only [hfault, hfind, show d.settle (d.code.toList.map Slot.start) = d.settled from rfl]
  cases encodeFrom (d.offsetOf? (offsets d.settled)) 0 d.settled <;> rfl

namespace Twin

variable {v : Variation} {ρ : Pairing} {d d' : Draft}

/-- **Twin drafts are laid out alike**, down to the faults, if every branch goes to a bound label. -/
theorem finish_eq (h : Twin v ρ d d') (hclosed : d.Closed) :
    d'.finish = d.finish.map (·.vary v) := by
  cases hfault : d.fault with
  | some fault =>
    rw [finish, finish, h.fault, hfault]
    rfl
  | none =>
    have hoffsets : offsets d'.settled = offsets d.settled := by
      rw [offsets, offsetsFrom_eq h.settled, offsets]
    have hcode : encodeFrom (d'.offsetOf? (offsets d'.settled)) 0 d'.settled =
        encodeFrom (d.offsetOf? (offsets d.settled)) 0 d.settled := by
      rw [hoffsets]
      exact encodeFrom_eq h.settled (h.offsetOf?_eq _)
        (fun s hs l hl => hclosed.offsetOf? (settled_spec d).1 hs hl) 0
    have hmaxStack (length : Nat) : d'.maxStack length = d.maxStack length := by
      have hempty : d'.locals.isEmpty = d.locals.isEmpty := by
        rw [h.locals, Array.isEmpty, Array.isEmpty, Array.size_map]
      rw [maxStack, maxStack, h.maxDepth, hempty, h.clauses]
    rw [hclosed.finish_eq hfault, (h.closed hclosed).finish_eq (h.fault.trans hfault), hcode]
    cases encodeFrom (d.offsetOf? (offsets d.settled)) 0 d.settled with
    | error => rfl
    | ok code =>
      simp only [Except.map, FinishedBody.vary, hoffsets, hmaxStack, h.size_code, h.locals,
        h.clauses, h.points, Array.toList_map]
      split <;> rfl

end Twin

end Draft

end CilScope
