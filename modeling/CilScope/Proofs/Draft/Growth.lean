import CilScope.Draft.Layout
import CilScope.Proofs.Machine.Basic

/-!
# How drafts grow

Nothing that stands in a draft is taken back: instructions, locals and clauses are only appended, a
label that is bound stays bound where it is, and the first limit that was exceeded is remembered. `Grows`
says so for the steps between two drafts, except that labels from some index on may be bound on the way;
`Appends` says what one more instruction does, and the steps that append one instruction come with the
action of what they append.
-/

namespace CilScope

/-- The operand of a drafted instruction has the shape that the opcode declares. -/
def DraftInstruction.Shaped (i : DraftInstruction) : Prop :=
  match i.opcode.operandKind, i.operand with
  | .none, .none => True
  | .shortInt, .int v => Instruction.fitsByte v.toInt
  | .int, .int _ => True
  | .shortVar, .var v => v.toNat < 256
  | .var, .var _ => True
  | .branch, .label _ => True
  | .token, .token _ => True
  | _, _ => False

/-- The part of a drafted operand that is no place. -/
def DraftOperand.immediate : DraftOperand → Machine.Immediate
  | .int v => .int v
  | .var i => .var i
  | _ => .none

/-- What a drafted instruction does. -/
def DraftInstruction.action? (i : DraftInstruction) : Option Machine.Action :=
  Machine.action? i.opcode i.operand.immediate

namespace Draft

/-- The instruction that a label is bound to. -/
def target? (d : Draft) (l : Label) : Option Nat := (d.labels[l.index]?).bind (·.target)

/-- Some branch to the label has been drafted, or the label was bound in code that can be
reached. -/
def Targeted (d : Draft) (l : Label) : Prop := ((d.labels[l.index]?).bind (·.depth)).isSome

/-- The label is one of the draft. -/
def Has (d : Draft) (l : Label) : Prop := l.index < d.labels.size

theorem prefix_of_eq {α : Type} {xs ys : Array α} (h : ys = xs) : xs.toList <+: ys.toList :=
  h ▸ List.prefix_refl _

/-- The draft exceeds a limit of the instruction formats: it has more locals than an index can count, or it
stores an argument that the short store does not reach. -/
inductive Overruns (d : Draft) : GenerationFault → Prop
  | locals (h : 0x10000 < d.locals.size) : Overruns d .tooManyLocals
  | argument {i : UInt16} (h : 255 < i.toNat) (hi : ⟨.stargS, .var i⟩ ∈ d.code.toList) :
      Overruns d (.argumentOutOfRange i.toNat)

theorem Overruns.mono {d d' : Draft} {fault : GenerationFault} (h : d.Overruns fault)
    (hcode : d.code.toList <+: d'.code.toList) (hlocals : d.locals.toList <+: d'.locals.toList) :
    d'.Overruns fault := by
  cases h with
  | locals h => exact .locals (Nat.lt_of_lt_of_le h hlocals.length_le)
  | argument h hi => exact .argument h (hcode.subset hi)

/-- A limit that is remembered was exceeded. -/
def Blamed (d : Draft) : Prop := ∀ fault, d.fault = some fault → d.Overruns fault

/-- What the steps from `d` to `d'` keep, if they bind labels from index `b` on only. -/
structure Grows (b : Nat) (d d' : Draft) : Prop where
  code : d.code.toList <+: d'.code.toList
  labels : d.labels.size ≤ d'.labels.size
  target : ∀ l : Label, l.index < b → d.Has l → d'.target? l = d.target? l
  targeted : ∀ l, d.Targeted l → d'.Targeted l
  locals : d.locals.toList <+: d'.locals.toList
  clauses : d.clauses.toList <+: d'.clauses.toList
  fault : d'.fault = none → d.fault = none
  shaped : d'.fault = none → (∀ i ∈ d.code.toList, i.Shaped) → ∀ i ∈ d'.code.toList, i.Shaped
  few : d'.fault = none → d.locals.size ≤ 0x10000 → d'.locals.size ≤ 0x10000
  blamed : d.Blamed → d'.Blamed

namespace Grows

variable {b b' : Nat} {d d' d'' : Draft}

theorem refl (b : Nat) (d : Draft) : Grows b d d where
  code := List.prefix_refl _
  labels := Nat.le_refl _
  target := fun _ _ _ => rfl
  targeted := fun _ h => h
  locals := List.prefix_refl _
  clauses := List.prefix_refl _
  fault := id
  shaped := fun _ h => h
  few := fun _ h => h
  blamed := id

theorem trans (h : Grows b d d') (h' : Grows b d' d'') : Grows b d d'' where
  code := h.code.trans h'.code
  labels := Nat.le_trans h.labels h'.labels
  target := fun l hb hl =>
    (h'.target l hb (Nat.lt_of_lt_of_le hl h.labels)).trans (h.target l hb hl)
  targeted := fun l hl => h'.targeted l (h.targeted l hl)
  locals := h.locals.trans h'.locals
  clauses := h.clauses.trans h'.clauses
  fault := fun hf => h.fault (h'.fault hf)
  shaped := fun hf hs => h'.shaped hf (h.shaped (h'.fault hf) hs)
  few := fun hf hs => h'.few hf (h.few (h'.fault hf) hs)
  blamed := fun hd => h'.blamed (h.blamed hd)

/-- Fewer labels are promised to stay unbound. -/
theorem mono (h : Grows b' d d') (hb : b ≤ b') : Grows b d d' :=
  { h with target := fun l hl => h.target l (Nat.lt_of_lt_of_le hl hb) }

end Grows

/-! ## One more instruction -/

/-- `d'` is `d` with the instruction `i` at its end. -/
structure Appends (i : DraftInstruction) (d d' : Draft) : Prop where
  code : d'.code = d.code.push i
  labels : d'.labels = d.labels
  locals : d'.locals = d.locals
  clauses : d'.clauses = d.clauses
  fault : d'.fault = none → d.fault = none ∧ i.Shaped
  blamed : ∀ fault, d'.fault = some fault → d.fault = some fault ∨ d'.Overruns fault
  unreachable : d'.unreachable = (d.unreachable || !i.opcode.fallsThrough)

namespace Appends

variable {i : DraftInstruction} {d d' : Draft}

theorem size (h : Appends i d d') : d'.code.size = d.code.size + 1 := by
  rw [h.code, Array.size_push]

theorem prefix_code (h : Appends i d d') : d.code.toList <+: d'.code.toList := by
  rw [h.code, Array.toList_push]
  exact List.prefix_append _ _

theorem grows (h : Appends i d d') (b : Nat) : Grows b d d' where
  code := h.prefix_code
  labels := Nat.le_of_eq (by rw [h.labels])
  target := fun l _ _ => by rw [target?, h.labels, target?]
  targeted := fun l hl => by rwa [Targeted, h.labels]
  locals := prefix_of_eq h.locals
  clauses := prefix_of_eq h.clauses
  fault := fun hf => (h.fault hf).1
  shaped := fun hf hs j hj => by
    rw [h.code, Array.toList_push, List.mem_append, List.mem_singleton] at hj
    rcases hj with hj | rfl
    · exact hs j hj
    · exact (h.fault hf).2
  few := fun _ hs => by rwa [h.locals]
  blamed := fun hd fault hf => (h.blamed fault hf).elim
    (fun hf => (hd fault hf).mono h.prefix_code (prefix_of_eq h.locals)) id

end Appends

variable (d : Draft)

section

variable (op : Opcode) (operand : DraftOperand) (pops pushes : UInt32)

@[simp] theorem code_push : (d.push op operand pops pushes).code = d.code.push ⟨op, operand⟩ := by
  simp only [push]
  split <;> rfl

@[simp] theorem labels_push : (d.push op operand pops pushes).labels = d.labels := by
  simp only [push]
  split <;> rfl

@[simp] theorem locals_push : (d.push op operand pops pushes).locals = d.locals := by
  simp only [push]
  split <;> rfl

@[simp] theorem clauses_push : (d.push op operand pops pushes).clauses = d.clauses := by
  simp only [push]
  split <;> rfl

@[simp] theorem fault_push : (d.push op operand pops pushes).fault = d.fault := by
  simp only [push]
  split <;> rfl

@[simp] theorem unreachable_push :
    (d.push op operand pops pushes).unreachable = (d.unreachable || !op.fallsThrough) := by
  simp only [push]
  split <;> simp_all

end

theorem appends_push {op : Opcode} {operand : DraftOperand}
    (h : DraftInstruction.Shaped ⟨op, operand⟩) (pops pushes : UInt32) :
    Appends ⟨op, operand⟩ d (d.push op operand pops pushes) where
  code := by simp
  labels := by simp
  locals := by simp
  clauses := by simp
  fault := fun hf => ⟨by simpa using hf, h⟩
  blamed := fun fault hf => .inl (by simpa using hf)
  unreachable := by simp

theorem shaped_none {op : Opcode} (h : op.operandKind = .none) :
    DraftInstruction.Shaped ⟨op, .none⟩ := by
  simp [DraftInstruction.Shaped, h]

theorem shaped_token {op : Opcode} (h : op.operandKind = .token) (t : Token) :
    DraftInstruction.Shaped ⟨op, .token t⟩ := by
  simp [DraftInstruction.Shaped, h]

theorem appends_emit {op : Opcode} (h : op.operandKind = .none) :
    Appends ⟨op, .none⟩ d (d.emit op) :=
  appends_push d (shaped_none h) _ _

theorem appends_ret : Appends ⟨.ret, .none⟩ d (d.emit .ret) := appends_emit d rfl

theorem appends_emitToken {op : Opcode} (h : op.operandKind = .token) (t : Token) :
    Appends ⟨op, .token t⟩ d (d.emitToken op t) :=
  appends_push d (shaped_token h t) _ _

theorem appends_emitCall {op : Opcode} (h : op.operandKind = .token) (t : Token)
    (pops pushes : UInt32) : Appends ⟨op, .token t⟩ d (d.emitCall op t pops pushes) :=
  appends_push d (shaped_token h t) _ _

/-! ## Constants and variables -/

theorem constantOpcode?_eq_some {v : Int32} {op : Opcode} (h : constantOpcode? v = some op) :
    op.operandKind = .none ∧ Machine.action? op .none = some (.push v) := by
  have hmem (table : List (Int32 × Opcode)) (h : table.lookup v = some op) : (v, op) ∈ table := by
    induction table with
    | nil => cases h
    | cons e table ih =>
      rw [List.lookup_cons] at h
      split at h
      · rename_i heq
        cases h
        rw [eq_of_beq heq]
        exact List.mem_cons_self ..
      · exact List.mem_cons_of_mem _ (ih h)
  have hentry := hmem _ h
  simp only [List.mem_cons, Prod.mk.injEq, List.not_mem_nil, or_false] at hentry
  rcases hentry with ⟨rfl, rfl⟩ | ⟨rfl, rfl⟩ | ⟨rfl, rfl⟩ | ⟨rfl, rfl⟩ | ⟨rfl, rfl⟩ | ⟨rfl, rfl⟩ |
    ⟨rfl, rfl⟩ | ⟨rfl, rfl⟩ | ⟨rfl, rfl⟩ | ⟨rfl, rfl⟩ <;> exact ⟨rfl, rfl⟩

theorem appends_loadInt (v : Int32) :
    ∃ i, Appends i d (d.loadInt v) ∧ i.action? = some (.push v) := by
  unfold loadInt
  split
  · rename_i op hop
    obtain ⟨hkind, haction⟩ := constantOpcode?_eq_some hop
    exact ⟨_, appends_emit d hkind, haction⟩
  · by_cases hv : Instruction.fitsByte v.toInt
    · rw [if_pos hv]
      have hshape : DraftInstruction.Shaped ⟨.ldcI4S, .int v⟩ := hv
      exact ⟨_, appends_push d hshape 0 1, rfl⟩
    · rw [if_neg hv]
      have hshape : DraftInstruction.Shaped ⟨.ldcI4, .int v⟩ := trivial
      exact ⟨_, appends_push d hshape 0 1, rfl⟩

/-- An access to a variable, given what its forms do. -/
theorem appends_access {first : List Opcode} {short long : Opcode} {action : Nat → Machine.Action}
    (hfirst : ∀ k op, first[k]? = some op →
      op.operandKind = .none ∧ Machine.action? op .none = some (action k))
    (hshort : short.operandKind = .shortVar ∧
      ∀ i, Machine.action? short (.var i) = some (action i.toNat))
    (hlong : long.operandKind = .var ∧
      ∀ i, Machine.action? long (.var i) = some (action i.toNat)) (index : UInt16)
    (pops pushes : UInt32) :
    ∃ i, Appends i d (d.access first short long index pops pushes) ∧
      i.action? = some (action index.toNat) := by
  unfold access
  split
  · rename_i op hop
    obtain ⟨hkind, haction⟩ := hfirst _ op hop
    exact ⟨_, appends_emit d hkind, haction⟩
  · by_cases hv : index.toNat < 256
    · rw [if_pos hv]
      refine ⟨_, appends_push d ?_ pops pushes, hshort.2 index⟩
      simpa only [DraftInstruction.Shaped, hshort.1] using hv
    · rw [if_neg hv]
      refine ⟨_, appends_push d ?_ pops pushes, hlong.2 index⟩
      simp only [DraftInstruction.Shaped, hlong.1]

/-- The forms without operand, one for each of the first four variables. -/
theorem first_forms {o₀ o₁ o₂ o₃ : Opcode} {action : Nat → Machine.Action}
    (h₀ : o₀.operandKind = .none ∧ Machine.action? o₀ .none = some (action 0))
    (h₁ : o₁.operandKind = .none ∧ Machine.action? o₁ .none = some (action 1))
    (h₂ : o₂.operandKind = .none ∧ Machine.action? o₂ .none = some (action 2))
    (h₃ : o₃.operandKind = .none ∧ Machine.action? o₃ .none = some (action 3)) :
    ∀ k op, [o₀, o₁, o₂, o₃][k]? = some op →
      op.operandKind = .none ∧ Machine.action? op .none = some (action k)
  | 0, _, rfl => h₀
  | 1, _, rfl => h₁
  | 2, _, rfl => h₂
  | 3, _, rfl => h₃

theorem appends_loadLocal (index : UInt16) :
    ∃ i, Appends i d (d.loadLocal index) ∧ i.action? = some (.loadLocal index.toNat) :=
  appends_access d (first_forms ⟨rfl, rfl⟩ ⟨rfl, rfl⟩ ⟨rfl, rfl⟩ ⟨rfl, rfl⟩)
    ⟨rfl, fun _ => rfl⟩ ⟨rfl, fun _ => rfl⟩ index 0 1

theorem appends_storeLocal (index : UInt16) :
    ∃ i, Appends i d (d.storeLocal index) ∧ i.action? = some (.storeLocal index.toNat) :=
  appends_access d (first_forms ⟨rfl, rfl⟩ ⟨rfl, rfl⟩ ⟨rfl, rfl⟩ ⟨rfl, rfl⟩)
    ⟨rfl, fun _ => rfl⟩ ⟨rfl, fun _ => rfl⟩ index 1 0

theorem appends_loadArg (index : UInt16) :
    ∃ i, Appends i d (d.loadArg index) ∧ i.action? = some (.loadArg index.toNat) :=
  appends_access d (first_forms ⟨rfl, rfl⟩ ⟨rfl, rfl⟩ ⟨rfl, rfl⟩ ⟨rfl, rfl⟩)
    ⟨rfl, fun _ => rfl⟩ ⟨rfl, fun _ => rfl⟩ index 0 1

theorem appends_storeArg (index : UInt16) :
    ∃ i, Appends i d (d.storeArg index) ∧ i.action? = some (.storeArg index.toNat) := by
  refine ⟨⟨.stargS, .var index⟩, ?_, rfl⟩
  by_cases h : 255 < index.toNat
  · -- the limit is remembered, so nothing is promised of the shape
    have hfault : ((d.exceed (.argumentOutOfRange index.toNat)).push .stargS (.var index) 1 0).fault ≠
        none := by
      rw [fault_push, exceed]
      cases d.fault <;> simp
    simp only [storeArg, if_pos h]
    refine ⟨by simp [exceed], by simp [exceed], by simp [exceed], by simp [exceed],
      fun hf => absurd hf hfault, fun fault hf => ?_, by simp [exceed]⟩
    rw [fault_push, exceed] at hf
    rcases Option.or_eq_some_iff.1 hf with hf | ⟨-, hf⟩
    · exact .inl hf
    · cases hf
      exact .inr (.argument h (by simp))
  · simp only [storeArg, if_neg h]
    have hshape : DraftInstruction.Shaped ⟨.stargS, .var index⟩ := show index.toNat < 256 by omega
    exact appends_push d hshape 1 0

/-! ## Labels -/

theorem has_of_targeted {l : Label} (h : d.Targeted l) : d.Has l := by
  refine Nat.lt_of_not_le fun hl => ?_
  simp [Targeted, Array.getElem?_eq_none hl] at h

theorem has_of_target? {l : Label} {k : Nat} (h : d.target? l = some k) : d.Has l := by
  refine Nat.lt_of_not_le fun hl => ?_
  simp [target?, Array.getElem?_eq_none hl] at h

/-- What was exceeded stays so where neither code nor locals change. -/
theorem blamed_of_eq {d d' : Draft} (hcode : d'.code = d.code) (hlocals : d'.locals = d.locals)
    (hfault : d'.fault = d.fault) (hd : d.Blamed) : d'.Blamed := fun fault hf =>
  (hd fault (hfault ▸ hf)).mono (prefix_of_eq hcode) (prefix_of_eq hlocals)

/-- One more label changes nothing about those that are there. -/
theorem grows_of_push {d' : Draft} {s : LabelState} (b : Nat) (hlabels : d'.labels = d.labels.push s)
    (hcode : d'.code = d.code) (hlocals : d'.locals = d.locals)
    (hclauses : d.clauses.toList <+: d'.clauses.toList) (hfault : d'.fault = d.fault) :
    Grows b d d' where
  code := prefix_of_eq hcode
  labels := by rw [hlabels, Array.size_push]; omega
  target := fun l _ hl => by
    simp only [target?, hlabels]
    rw [Array.getElem?_push_lt hl, Array.getElem?_eq_getElem hl]
  targeted := fun l hl => by
    have hlt : l.index < d.labels.size := has_of_targeted d hl
    simp only [Targeted, hlabels] at hl ⊢
    rwa [Array.getElem?_push_lt hlt, ← Array.getElem?_eq_getElem hlt]
  locals := prefix_of_eq hlocals
  clauses := hclauses
  fault := by rw [hfault]; exact id
  shaped := fun _ hs => by rwa [hcode]
  few := fun _ hs => by rwa [hlocals]
  blamed := blamed_of_eq hcode hlocals hfault

theorem grows_newLabel (b : Nat) : Grows b d d.newLabel.1 :=
  grows_of_push d b rfl rfl rfl (List.prefix_refl _) rfl

theorem has_newLabel : d.newLabel.1.Has d.newLabel.2 := by
  simp [newLabel, Has]

section

variable {op : Opcode} {l : Label}

/-- A branch is an instruction; otherwise it only notes that its label is targeted. -/
theorem labels_branch : (d.branch op l).labels = d.labels.modify l.index fun s =>
    { s with depth := s.depth.or (below (if op = .leave then 0 else d.depth) (branchPops op)) } := by
  simp only [branch, labels_push]

theorem code_branch : (d.branch op l).code = d.code.push ⟨op, .label l⟩ := by
  simp only [branch, code_push]

theorem unreachable_branch :
    (d.branch op l).unreachable = (d.unreachable || !op.fallsThrough) := by
  simp only [branch, unreachable_push]

theorem locals_branch : (d.branch op l).locals = d.locals := by
  simp only [branch, locals_push]

theorem target?_branch (l' : Label) : (d.branch op l).target? l' = d.target? l' := by
  simp only [target?, labels_branch, Array.getElem?_modify]
  split
  · cases d.labels[l'.index]? <;> rfl
  · rfl

theorem targeted_branch (h : d.Has l) : (d.branch op l).Targeted l := by
  simp only [Targeted, labels_branch, Array.getElem?_modify, if_pos, Array.getElem?_eq_getElem h,
    Option.map_some, Option.bind_some, Option.isSome_or, Option.isSome_some, Bool.or_true]

theorem fault_branch : (d.branch op l).fault = d.fault := by
  simp only [branch, fault_push]

theorem prefix_code_branch : d.code.toList <+: (d.branch op l).code.toList := by
  rw [code_branch, Array.toList_push]
  exact List.prefix_append _ _

theorem grows_branch (hop : op.operandKind = .branch) (b : Nat) : Grows b d (d.branch op l) where
  code := prefix_code_branch d
  labels := Nat.le_of_eq (by rw [labels_branch, Array.size_modify])
  target := fun l' _ _ => target?_branch d l'
  targeted := fun l' hl => by
    simp only [Targeted, labels_branch, Array.getElem?_modify] at hl ⊢
    split
    · cases h : d.labels[l'.index]? with
      | none => rw [h] at hl; exact hl
      | some s =>
        simp
    · exact hl
  locals := prefix_of_eq (locals_branch d)
  clauses := prefix_of_eq (by rw [branch, clauses_push])
  fault := by rw [fault_branch]; exact id
  shaped := fun _ hs i hi => by
    rw [code_branch, Array.toList_push, List.mem_append, List.mem_singleton] at hi
    rcases hi with hi | rfl
    · exact hs i hi
    · simp only [DraftInstruction.Shaped, hop]
  few := fun _ hs => by rwa [locals_branch]
  blamed := fun hd fault hf =>
    (hd fault (fault_branch d ▸ hf)).mono (prefix_code_branch d) (prefix_of_eq (locals_branch d))

/-! ## Binding a label -/

theorem code_mark : (d.mark l).code = d.code := by
  simp only [mark]
  repeat' split
  all_goals rfl

theorem locals_mark : (d.mark l).locals = d.locals := by
  simp only [mark]
  repeat' split
  all_goals rfl

theorem clauses_mark : (d.mark l).clauses = d.clauses := by
  simp only [mark]
  repeat' split
  all_goals rfl

theorem fault_mark : (d.mark l).fault = d.fault := by
  simp only [mark]
  repeat' split
  all_goals rfl

theorem labels_mark : (d.mark l).labels = d.labels.setIfInBounds l.index
    { target := some d.code.size
      depth := if d.unreachable then (d.labels[l.index]?).bind (·.depth)
        else ((d.labels[l.index]?).bind (·.depth)).or d.depth } := by
  simp only [mark]
  repeat' split
  all_goals simp_all

theorem size_labels_mark : (d.mark l).labels.size = d.labels.size := by
  rw [labels_mark, Array.size_setIfInBounds]

theorem target?_mark (h : d.Has l) : (d.mark l).target? l = some d.code.size := by
  rw [target?, labels_mark, Array.getElem?_setIfInBounds_self, if_pos (show _ < _ from h)]
  rfl

theorem target?_mark_of_ne {l' : Label} (h : l'.index ≠ l.index) :
    (d.mark l).target? l' = d.target? l' := by
  simp only [target?, labels_mark, Array.getElem?_setIfInBounds_ne (Ne.symm h)]

/-- Behind a bound label code can be reached if it could before, or if a branch goes there. -/
theorem unreachable_mark :
    (d.mark l).unreachable = false ↔ d.unreachable = false ∨ d.Targeted l := by
  simp only [mark, Targeted]
  cases hu : d.unreachable with
  | false => simp
  | true =>
    cases hk : (d.labels[l.index]?).bind (·.depth) with
    | none => simp
    | some k => simp

theorem targeted_mark {l' : Label} (h : d.Targeted l') : (d.mark l).Targeted l' := by
  by_cases hl : l'.index = l.index
  · have hhas : l.index < d.labels.size := hl ▸ has_of_targeted d h
    rw [Targeted, hl] at h
    rw [Targeted, labels_mark, hl, Array.getElem?_setIfInBounds_self, if_pos hhas, Option.bind_some]
    split
    · exact h
    · rw [Option.isSome_or, h, Bool.true_or]
  · rwa [Targeted, labels_mark, Array.getElem?_setIfInBounds_ne (Ne.symm hl)]

theorem grows_mark {b : Nat} (h : b ≤ l.index) : Grows b d (d.mark l) where
  code := prefix_of_eq (code_mark d)
  labels := Nat.le_of_eq (by rw [size_labels_mark])
  target := fun l' hl' _ => target?_mark_of_ne d (by omega)
  targeted := fun l' hl => targeted_mark d hl
  locals := prefix_of_eq (locals_mark d)
  clauses := prefix_of_eq (clauses_mark d)
  fault := by rw [fault_mark]; exact id
  shaped := fun _ hs => by rwa [code_mark]
  few := fun _ hs => by rwa [locals_mark]
  blamed := blamed_of_eq (code_mark d) (locals_mark d) (fault_mark d)

end

/-! ## Locals, positions and regions -/

theorem grows_point (pos : Source.Position) (b : Nat) : Grows b d (d.point pos) :=
  grows_of_push d b rfl rfl rfl (List.prefix_refl _) rfl

theorem grows_beginTry (b : Nat) : Grows b d d.beginTry.1 :=
  grows_of_push d b rfl rfl rfl (List.prefix_refl _) rfl

theorem grows_beginHandler (start : Nat) (kind : ClauseKind) (b : Nat) :
    Grows b d (d.beginHandler start kind).1 :=
  grows_of_push d b rfl rfl rfl (List.prefix_refl _) rfl

theorem grows_endHandler (h : OpenHandler) (b : Nat) : Grows b d (d.endHandler h) := by
  refine grows_of_push d b rfl rfl rfl ?_ rfl
  simp [endHandler, anchor]

section

variable (sig : TypeSig) (name : Option String)

theorem locals_declareLocal :
    (d.declareLocal sig name).1.locals = d.locals.push { sig, name } := by
  simp only [declareLocal]
  split <;> rfl

theorem fault_declareLocal (h : (d.declareLocal sig name).1.fault = none) :
    d.fault = none ∧ d.locals.size < 0x10000 := by
  simp only [declareLocal] at h
  split at h
  · exact ⟨h, ‹_›⟩
  · exact absurd h (by cases d.fault <;> simp [exceed])

/-- The slot of a declared local is its place, unless there are too many. -/
theorem slot_declareLocal (h : (d.declareLocal sig name).1.fault = none) :
    (d.declareLocal sig name).2.toNat = d.locals.size := by
  have hsize := (fault_declareLocal d sig name h).2
  simp only [declareLocal, if_pos hsize, UInt16.toNat_ofNat']
  omega

theorem code_declareLocal : (d.declareLocal sig name).1.code = d.code := by
  simp only [declareLocal]
  split <;> rfl

theorem labels_declareLocal : (d.declareLocal sig name).1.labels = d.labels := by
  simp only [declareLocal]
  split <;> rfl

theorem unreachable_declareLocal : (d.declareLocal sig name).1.unreachable = d.unreachable := by
  simp only [declareLocal]
  split <;> rfl

theorem prefix_locals_declareLocal :
    d.locals.toList <+: (d.declareLocal sig name).1.locals.toList := by
  rw [locals_declareLocal, Array.toList_push]
  exact List.prefix_append _ _

/-- A local that is one too many is blamed on the number of locals. -/
theorem blamed_declareLocal (hd : d.Blamed) : (d.declareLocal sig name).1.Blamed := by
  have hold {fault : GenerationFault} (hf : d.fault = some fault) :
      (d.declareLocal sig name).1.Overruns fault :=
    (hd fault hf).mono (prefix_of_eq (code_declareLocal d sig name))
      (prefix_locals_declareLocal d sig name)
  intro fault hf
  by_cases hsize : d.locals.size < 0x10000
  · exact hold (by simpa only [declareLocal, if_pos hsize] using hf)
  · simp only [declareLocal, if_neg hsize, exceed] at hf
    rcases Option.or_eq_some_iff.1 hf with hf | ⟨-, hf⟩
    · exact hold hf
    · cases hf
      refine .locals ?_
      rw [locals_declareLocal, Array.size_push]
      omega

theorem grows_declareLocal (b : Nat) : Grows b d (d.declareLocal sig name).1 where
  code := prefix_of_eq (by rw [code_declareLocal])
  labels := Nat.le_of_eq (by rw [labels_declareLocal])
  target := fun l _ _ => by rw [target?, labels_declareLocal, target?]
  targeted := fun l hl => by rwa [Targeted, labels_declareLocal]
  locals := prefix_locals_declareLocal d sig name
  clauses := by
    simp only [declareLocal]
    split <;> exact List.prefix_refl _
  fault := fun h => (fault_declareLocal d sig name h).1
  shaped := fun _ hs => by rwa [code_declareLocal]
  few := fun h _ => by
    rw [locals_declareLocal, Array.size_push]
    exact (fault_declareLocal d sig name h).2
  blamed := blamed_declareLocal d sig name

end

end Draft

end CilScope
