import CilScope.Proofs.Draft.Growth

/-!
# What a draft was asked for

A draft is made by a history of requests: labels, instructions, protected regions. `Drafted history d`
says that `d` is the draft of a history whose requests were proper, an opcode being of the kind that
the request is for and a label, a region or a handler being one that was given out before. The history
alone says what the body has to be: which instructions were asked for (`emitted`), to which of them a
label was bound last (`boundTo`), what the clauses and the positions are (`clausesOf`, `pointsOf`) and
whether a limit was exceeded (`Exceeds`). `Drafted.records` is that the draft holds exactly this.
-/

namespace CilScope.Draft

/-- A request to a draft, with the label, region or handler that was given out for it. -/
inductive Event
  | newLabel (given : Label)
  | here (given : Label)
  | mark (l : Label)
  | declareLocal (sig : TypeSig) (name : Option String)
  | point (pos : Source.Position)
  | emit (op : Opcode)
  | emitToken (op : Opcode) (t : Token)
  | emitCall (op : Opcode) (t : Token) (pops pushes : UInt32)
  | loadInt (v : Int32)
  | loadLocal (index : UInt16)
  | storeLocal (index : UInt16)
  | loadArg (index : UInt16)
  | storeArg (index : UInt16)
  | branch (op : Opcode) (l : Label)
  | beginTry (given : Nat)
  | beginHandler (region : Nat) (kind : ClauseKind) (given : OpenHandler)
  | endHandler (h : OpenHandler)

/-- The draft behind a request. -/
def Event.apply (d : Draft) : Event → Draft
  | newLabel _ => d.newLabel.1
  | here _ => d.here.1
  | mark l => d.mark l
  | declareLocal sig name => (d.declareLocal sig name).1
  | point pos => d.point pos
  | emit op => d.emit op
  | emitToken op t => d.emitToken op t
  | emitCall op t pops pushes => d.emitCall op t pops pushes
  | loadInt v => d.loadInt v
  | loadLocal index => d.loadLocal index
  | storeLocal index => d.storeLocal index
  | loadArg index => d.loadArg index
  | storeArg index => d.storeArg index
  | branch op l => d.branch op l
  | beginTry _ => d.beginTry.1
  | beginHandler region kind _ => (d.beginHandler region kind).1
  | endHandler h => d.endHandler h

/-- The label was given out. Histories have the latest request first. -/
def Given (history : List Event) (l : Label) : Prop := .newLabel l ∈ history ∨ .here l ∈ history

/-- The request is proper behind a history that has led to `d`, and what it carries is what `d` gives
out for it. -/
def Event.Proper (history : List Event) (d : Draft) : Event → Prop
  | newLabel given => given = d.newLabel.2
  | here given => given = d.here.2
  | mark l => Given history l
  | emit op => op.operandKind = .none
  | emitToken op _ | emitCall op _ _ _ => op.operandKind = .token
  | branch op l => op.operandKind = .branch ∧ Given history l
  | beginTry given => given = d.beginTry.2
  | beginHandler region kind given =>
    .beginTry region ∈ history ∧ given = (d.beginHandler region kind).2
  | endHandler h => ∃ region kind, .beginHandler region kind h ∈ history
  | declareLocal .. | point _ | loadInt _ | loadLocal _ | storeLocal _ | loadArg _ | storeArg _ => True

/-- `d` is the draft of a history of proper requests. -/
inductive Drafted : List Event → Draft → Prop
  | start : Drafted [] {}
  | step {history : List Event} {d : Draft} (e : Event) (h : Drafted history d)
      (hproper : e.Proper history d) : Drafted (e :: history) (e.apply d)

/-! ## What a history asks for -/

/-- The instruction that loads a constant. -/
def constantInstruction (v : Int32) : DraftInstruction :=
  match constantOpcode? v with
  | some op => ⟨op, .none⟩
  | none => ⟨if Instruction.fitsByte v.toInt then .ldcI4S else .ldcI4, .int v⟩

/-- The instruction that accesses a variable. -/
def accessInstruction (first : List Opcode) (short long : Opcode) (index : UInt16) :
    DraftInstruction :=
  match first[index.toNat]? with
  | some op => ⟨op, .none⟩
  | none => ⟨if index.toNat < 256 then short else long, .var index⟩

/-- The instruction that loads a local. -/
def loadLocalInstruction : UInt16 → DraftInstruction :=
  accessInstruction [.ldloc0, .ldloc1, .ldloc2, .ldloc3] .ldlocS .ldloc

/-- The instruction that stores a local. -/
def storeLocalInstruction : UInt16 → DraftInstruction :=
  accessInstruction [.stloc0, .stloc1, .stloc2, .stloc3] .stlocS .stloc

/-- The instruction that loads an argument. -/
def loadArgInstruction : UInt16 → DraftInstruction :=
  accessInstruction [.ldarg0, .ldarg1, .ldarg2, .ldarg3] .ldargS .ldarg

/-- The instruction that a request is for. -/
def Event.instruction? : Event → Option DraftInstruction
  | emit op => some ⟨op, .none⟩
  | emitToken op t | emitCall op t _ _ => some ⟨op, .token t⟩
  | loadInt v => some (constantInstruction v)
  | loadLocal index => some (loadLocalInstruction index)
  | storeLocal index => some (storeLocalInstruction index)
  | loadArg index => some (loadArgInstruction index)
  | storeArg index => some ⟨.stargS, .var index⟩
  | branch op l => some ⟨op, .label l⟩
  | _ => none

/-- The instructions that were asked for, in the order of the requests. -/
def emitted : List Event → List DraftInstruction
  | [] => []
  | e :: history => emitted history ++ e.instruction?.toList

/-- Whether a request binds a label. -/
def Event.binds (l : Label) : Event → Bool
  | mark l' | here l' => l' = l
  | _ => false

/-- The number of the instruction that a label was bound to last. -/
def boundTo (l : Label) : List Event → Option Nat
  | [] => none
  | e :: history => if e.binds l then some (emitted history).length else boundTo l history

/-- The clause that a request behind `stop` instructions completes. -/
def Event.clause? (stop : Nat) : Event → Option DraftClause
  | endHandler h => some ⟨h.kind, h.tryStart, h.start, stop⟩
  | _ => none

/-- The clauses that were asked for, by the numbers of their instructions. -/
def clausesOf : List Event → List DraftClause
  | [] => []
  | e :: history => clausesOf history ++ (e.clause? (emitted history).length).toList

/-- The position that a request notes. -/
def Event.position? : Event → Option Source.Position
  | point pos => some pos
  | _ => none

/-- The positions that were noted, each with the number of the instruction it was noted at. -/
def pointsOf : List Event → List (Nat × Source.Position)
  | [] => []
  | e :: history => pointsOf history ++ (e.position?.map ((emitted history).length, ·)).toList

/-- The local that a request declares. -/
def Event.local? : Event → Option LocalVar
  | declareLocal sig name => some ⟨sig, name⟩
  | _ => none

/-- The locals that were declared. -/
def localsOf : List Event → List LocalVar
  | [] => []
  | e :: history => localsOf history ++ e.local?.toList

/-- A limit of the instruction formats was exceeded: an argument was stored that has no short form, or
there are more locals than slots. -/
def Exceeds (history : List Event) : Prop :=
  (∃ index, .storeArg index ∈ history ∧ 255 < index.toNat) ∨ 0x10000 < (localsOf history).length

/-! ## What one request changes -/

section

variable (d : Draft)

@[simp] theorem points_push (op : Opcode) (operand : DraftOperand) (pops pushes : UInt32) :
    (d.push op operand pops pushes).points = d.points := by
  simp only [push]
  split <;> rfl

theorem points_mark (l : Label) : (d.mark l).points = d.points := by
  simp only [mark]
  repeat' split
  all_goals rfl

theorem points_declareLocal (sig : TypeSig) (name : Option String) :
    (d.declareLocal sig name).1.points = d.points := by
  simp only [declareLocal]
  split <;> rfl

theorem clauses_declareLocal (sig : TypeSig) (name : Option String) :
    (d.declareLocal sig name).1.clauses = d.clauses := by
  simp only [declareLocal]
  split <;> rfl

theorem loadInt_eq_push (v : Int32) :
    d.loadInt v = d.push (constantInstruction v).opcode (constantInstruction v).operand 0 1 := by
  unfold loadInt constantInstruction
  cases hop : constantOpcode? v with
  | none => rfl
  | some op =>
    have haction := (constantOpcode?_eq_some hop).2
    have heffect : op.stackEffect = (0, 1) := by
      cases op <;> first | rfl | cases haction
    simp only [emit, heffect]

theorem access_eq_push {first : List Opcode} {pops pushes : UInt32}
    (h : ∀ op ∈ first, op.stackEffect = (pops, pushes)) (short long : Opcode) (index : UInt16) :
    d.access first short long index pops pushes =
      d.push (accessInstruction first short long index).opcode
        (accessInstruction first short long index).operand pops pushes := by
  unfold access accessInstruction
  cases hop : first[index.toNat]? with
  | none => rfl
  | some op => simp only [emit, h op (List.mem_of_getElem? hop)]

theorem loadLocal_eq_push (index : UInt16) :
    d.loadLocal index =
      d.push (loadLocalInstruction index).opcode (loadLocalInstruction index).operand 0 1 :=
  access_eq_push d (by decide) _ _ _

theorem storeLocal_eq_push (index : UInt16) :
    d.storeLocal index =
      d.push (storeLocalInstruction index).opcode (storeLocalInstruction index).operand 1 0 :=
  access_eq_push d (by decide) _ _ _

theorem loadArg_eq_push (index : UInt16) :
    d.loadArg index =
      d.push (loadArgInstruction index).opcode (loadArgInstruction index).operand 0 1 :=
  access_eq_push d (by decide) _ _ _

/-- What a request adds to a draft, labels and faults apart. -/
structure Event.Adds (e : Event) (d d' : Draft) : Prop where
  code : d'.code.toList = d.code.toList ++ e.instruction?.toList
  clauses : d'.clauses.toList = d.clauses.toList ++ (e.clause? d.code.size).toList
  points : d'.points.toList = d.points.toList ++ (e.position?.map (d.code.size, ·)).toList
  locals : d'.locals.toList = d.locals.toList ++ e.local?.toList

/-- A request for an instruction adds the instruction. The draft may have changed in its labels, its
depth and its fault before. -/
theorem Event.adds_push {e : Event} {d d₀ : Draft} {i : DraftInstruction} {pops pushes : UInt32}
    (hi : e.instruction? = some i) (hcode : d₀.code = d.code) (hclauses : d₀.clauses = d.clauses)
    (hpoints : d₀.points = d.points) (hlocals : d₀.locals = d.locals) :
    e.Adds d (d₀.push i.opcode i.operand pops pushes) := by
  cases e <;> cases hi <;> constructor <;>
    simp [clause?, position?, local?, instruction?, hcode, hclauses, hpoints, hlocals]

theorem Event.adds_apply (e : Event) : e.Adds d (e.apply d) := by
  cases e with
  | emit op => exact adds_push (i := ⟨op, .none⟩) rfl rfl rfl rfl rfl
  | emitToken op t | emitCall op t => exact adds_push (i := ⟨op, .token t⟩) rfl rfl rfl rfl rfl
  | loadInt => rw [apply, loadInt_eq_push]; exact adds_push rfl rfl rfl rfl rfl
  | loadLocal => rw [apply, loadLocal_eq_push]; exact adds_push rfl rfl rfl rfl rfl
  | storeLocal => rw [apply, storeLocal_eq_push]; exact adds_push rfl rfl rfl rfl rfl
  | loadArg => rw [apply, loadArg_eq_push]; exact adds_push rfl rfl rfl rfl rfl
  | storeArg index =>
    simp only [apply, Draft.storeArg]
    split <;> exact adds_push (i := ⟨.stargS, .var index⟩) rfl rfl rfl rfl rfl
  | branch op l => exact adds_push (i := ⟨op, .label l⟩) rfl rfl rfl rfl rfl
  | declareLocal =>
    constructor <;> simp [apply, instruction?, clause?, position?, local?, code_declareLocal,
      clauses_declareLocal, points_declareLocal, locals_declareLocal]
  | mark =>
    constructor <;> simp [apply, instruction?, clause?, position?, local?, code_mark, clauses_mark,
      points_mark, locals_mark]
  | here =>
    constructor <;> simp [apply, Draft.here, Draft.newLabel, instruction?, clause?, position?, local?,
      code_mark, clauses_mark, points_mark, locals_mark]
  | newLabel | point | beginTry | beginHandler | endHandler =>
    constructor <;> simp [apply, Draft.newLabel, Draft.point, Draft.beginTry, Draft.beginHandler,
      Draft.endHandler, anchor, instruction?, clause?, position?, local?]

/-! ### Labels and faults -/

variable {d} {history : List Event} {e : Event}

/-- A request takes nothing back, and of the labels below `b` it binds none. -/
theorem Event.grows (h : e.Proper history d) {b : Nat} (hb : ∀ l, e.binds l = true → b ≤ l.index) :
    Grows b d (e.apply d) := by
  cases e with
  | newLabel => exact grows_newLabel d b
  | here l =>
    have hle := hb l (by simp [binds])
    rw [show l = d.here.2 from h] at hle
    exact (grows_newLabel d b).trans (grows_mark _ hle)
  | mark l => exact grows_mark d (hb l (by simp [binds]))
  | declareLocal sig name => exact grows_declareLocal d sig name b
  | point pos => exact grows_point d pos b
  | emit op => exact (appends_emit d h).grows b
  | emitToken op t => exact (appends_emitToken d h t).grows b
  | emitCall op t pops pushes => exact (appends_emitCall d h t pops pushes).grows b
  | loadInt v => exact (appends_loadInt d v).choose_spec.1.grows b
  | loadLocal index => exact (appends_loadLocal d index).choose_spec.1.grows b
  | storeLocal index => exact (appends_storeLocal d index).choose_spec.1.grows b
  | loadArg index => exact (appends_loadArg d index).choose_spec.1.grows b
  | storeArg index => exact (appends_storeArg d index).choose_spec.1.grows b
  | branch op l => exact grows_branch d h.1 b
  | beginTry => exact grows_beginTry d b
  | beginHandler region kind => exact grows_beginHandler d region kind b
  | endHandler handler => exact grows_endHandler d handler b

theorem Label.eq_of_index_eq {l l' : Label} (h : l.index = l'.index) : l = l' := by
  cases l
  cases l'
  exact congrArg Label.mk h

/-- A label that is there is changed by a request that binds it, and by no other. -/
theorem Event.target?_apply (h : e.Proper history d) {l : Label} (hl : d.Has l) :
    (e.apply d).target? l = if e.binds l then some d.code.size else d.target? l := by
  cases e with
  | mark l' =>
    by_cases heq : l' = l
    · subst heq
      simpa [apply, binds] using target?_mark d hl
    · have hne : l.index ≠ l'.index := fun hindex => heq (Label.eq_of_index_eq hindex.symm)
      simpa [apply, binds, heq] using target?_mark_of_ne d hne
  | here l' =>
    have hne : l.index ≠ d.labels.size := Nat.ne_of_lt hl
    have heq : l' ≠ l := fun heq => hne (by rw [← heq, show l' = d.here.2 from h]; rfl)
    have hnew := (grows_newLabel d (l.index + 1)).target l (Nat.lt_succ_self _) hl
    simp only [binds, heq, decide_false, Bool.false_eq_true, if_false]
    exact (target?_mark_of_ne d.newLabel.1 hne).trans hnew
  | _ => exact (Event.grows h (fun _ hb => nomatch hb)).target l (Nat.lt_succ_self _) hl

/-- A request exceeds a limit if it stores an argument that has no short form, or declares a local for
which there is no slot. -/
def Event.exceeds (locals : Nat) : Event → Prop
  | storeArg index => 255 < index.toNat
  | declareLocal .. => 0x10000 ≤ locals
  | _ => False

theorem fault_exceed (fault : GenerationFault) : (d.exceed fault).fault ≠ none := by
  cases h : d.fault <;> simp [exceed, h]

/-- The first limit that is exceeded is remembered. -/
theorem Event.fault_apply :
    (e.apply d).fault = none ↔ d.fault = none ∧ ¬ e.exceeds d.locals.size := by
  cases e with
  | storeArg index =>
    simp only [apply, Draft.storeArg, exceeds, fault_push]
    split
    · simp [fault_exceed, *]
    · simp [*]
  | declareLocal sig name =>
    simp only [apply, Draft.declareLocal, exceeds]
    split
    · simp; omega
    · simp [fault_exceed]; omega
  | emit | emitToken | emitCall | loadInt | loadLocal | storeLocal | loadArg | branch =>
    simp [apply, exceeds, Draft.emit, Draft.emitToken, Draft.emitCall, loadInt_eq_push,
      loadLocal_eq_push, storeLocal_eq_push, loadArg_eq_push, Draft.branch]
  | mark | here => simp [apply, exceeds, Draft.here, Draft.newLabel, fault_mark]
  | newLabel | point | beginTry | beginHandler | endHandler =>
    simp [apply, exceeds, Draft.newLabel, Draft.point, Draft.beginTry, Draft.beginHandler,
      Draft.endHandler, anchor]

end

/-! ## The draft of a history -/

/-- A draft holds what its history asks for. -/
structure Records (history : List Event) (d : Draft) : Prop where
  code : d.code.toList = emitted history
  clauses : d.clauses.toList = clausesOf history
  points : d.points.toList = pointsOf history
  locals : d.locals.toList = localsOf history
  target : ∀ l, Given history l → d.target? l = boundTo l history
  fault : d.fault = none ↔ ¬ Exceeds history
  shaped : d.fault = none → ∀ i ∈ d.code.toList, i.Shaped

theorem exceeds_cons (e : Event) (history : List Event) :
    Exceeds (e :: history) ↔ Exceeds history ∨ e.exceeds (localsOf history).length := by
  cases e with
  | storeArg index =>
    simp only [Exceeds, localsOf, Event.local?, Event.exceeds, List.mem_cons, Event.storeArg.injEq,
      Option.toList_none, List.append_nil, or_and_right, exists_or, exists_eq_left]
    rw [or_assoc, or_comm]
  | declareLocal sig name =>
    simp only [Exceeds, localsOf, Event.local?, Event.exceeds, List.mem_cons, reduceCtorEq, false_or,
      Option.toList_some, List.length_append, List.length_singleton, or_assoc]
    have hnext : 0x10000 < (localsOf history).length + 1 ↔
        0x10000 < (localsOf history).length ∨ 0x10000 ≤ (localsOf history).length := by omega
    rw [hnext]
  | _ => simp [Exceeds, localsOf, Event.local?, Event.exceeds]

/-- A new label is not bound, unless it is given out for the next instruction. -/
theorem target?_of_new {history : List Event} {d : Draft} {e : Event} (h : e.Proper history d)
    {l : Label} (hl : Given (e :: history) l) (hnew : ¬ Given history l) :
    (e.apply d).target? l = if e.binds l then some d.code.size else none := by
  rcases hl with hl | hl <;> rcases List.mem_cons.1 hl with rfl | hl
  · rw [show l = d.newLabel.2 from h]
    simp [Event.apply, Event.binds, newLabel, target?]
  · exact absurd (.inl hl) hnew
  · rw [show l = d.here.2 from h]
    simp only [Event.binds, decide_true, if_true]
    exact target?_mark d.newLabel.1 (has_newLabel d)
  · exact absurd (.inr hl) hnew

/-- Only a label that was given out can be bound. -/
theorem Drafted.given_of_binds {history : List Event} {d : Draft} {e : Event} (h : e.Proper history d)
    {l : Label} (hbinds : e.binds l = true) : Given (e :: history) l := by
  cases e with
  | mark l' =>
    have heq : l' = l := by simpa [Event.binds] using hbinds
    subst heq
    exact h.imp (List.mem_cons_of_mem _) (List.mem_cons_of_mem _)
  | here l' =>
    have heq : l' = l := by simpa [Event.binds] using hbinds
    exact .inr (heq ▸ List.mem_cons_self ..)
  | _ => nomatch hbinds

theorem Drafted.given_of_boundTo {history : List Event} {d : Draft} (h : Drafted history d)
    {l : Label} {k : Nat} (hk : boundTo l history = some k) : Given history l := by
  induction h with
  | start => cases hk
  | step e h hproper ih =>
    rw [boundTo] at hk
    split at hk
    · exact given_of_binds hproper ‹_›
    · exact (ih hk).imp (List.mem_cons_of_mem _) (List.mem_cons_of_mem _)

theorem Drafted.has {history : List Event} {d : Draft} (h : Drafted history d) {l : Label}
    (hl : Given history l) : d.Has l := by
  induction h with
  | start => rcases hl with hl | hl <;> cases hl
  | @step history d e h hproper ih =>
    have hgrows : d.labels.size ≤ (e.apply d).labels.size :=
      (Event.grows hproper fun _ _ => Nat.zero_le _).labels
    rcases hl with hl | hl <;> rcases List.mem_cons.1 hl with rfl | hl
    · rw [show l = d.newLabel.2 from hproper]
      exact has_newLabel d
    · exact Nat.lt_of_lt_of_le (ih (.inl hl)) hgrows
    · rw [show l = d.here.2 from hproper]
      exact Nat.lt_of_lt_of_le (has_newLabel d) (Nat.le_of_eq (size_labels_mark _).symm)
    · exact Nat.lt_of_lt_of_le (ih (.inr hl)) hgrows

/-- **The draft of a history holds what the history asks for.** -/
theorem Drafted.records {history : List Event} {d : Draft} (h : Drafted history d) :
    Records history d := by
  induction h with
  | start =>
    refine ⟨rfl, rfl, rfl, rfl, fun l hl => ?_, ⟨fun _ hex => ?_, fun _ => rfl⟩, fun _ i hi => ?_⟩
    · rcases hl with hl | hl <;> cases hl
    · rcases hex with ⟨index, hindex, -⟩ | hlocals
      · cases hindex
      · exact absurd hlocals (by decide)
    · cases hi
  | @step history d e h hproper ih =>
    have hadds := e.adds_apply d
    have hsize : d.code.size = (emitted history).length := by rw [← ih.code, Array.length_toList]
    have hlocals : d.locals.size = (localsOf history).length := by
      rw [← ih.locals, Array.length_toList]
    refine ⟨?_, ?_, ?_, ?_, fun l hl => ?_, ?_, fun hf => ?_⟩
    · rw [hadds.code, ih.code, emitted]
    · rw [hadds.clauses, ih.clauses, hsize, clausesOf]
    · rw [hadds.points, ih.points, hsize, pointsOf]
    · rw [hadds.locals, ih.locals, localsOf]
    · rw [boundTo, ← hsize]
      by_cases hgiven : Given history l
      · rw [Event.target?_apply hproper (h.has hgiven), ih.target l hgiven]
      · have hfree : boundTo l history = none := Option.eq_none_iff_forall_ne_some.2 fun k hk =>
          hgiven (h.given_of_boundTo hk)
        rw [target?_of_new hproper hl hgiven, hfree]
    · rw [Event.fault_apply, ih.fault, exceeds_cons, hlocals, not_or]
    · have hgrows := Event.grows hproper fun _ _ => Nat.zero_le _
      exact hgrows.shaped hf (ih.shaped (hgrows.fault hf))

/-! ## Labels, regions and handlers in a history -/

theorem mem_emitted {history : List Event} {i : DraftInstruction} :
    i ∈ emitted history ↔ ∃ e ∈ history, e.instruction? = some i := by
  induction history with
  | nil => simp [emitted]
  | cons e history ih =>
    simp only [emitted, List.mem_append, ih, Option.mem_toList, List.mem_cons, or_and_right, exists_or,
      exists_eq_left]
    exact or_comm

theorem operand_accessInstruction (first : List Opcode) (short long : Opcode) (index : UInt16)
    (l : Label) : (accessInstruction first short long index).operand ≠ .label l := by
  unfold accessInstruction
  split <;> exact nofun

/-- Only a branch has a label. -/
theorem branch_of_operand {e : Event} {i : DraftInstruction} {l : Label}
    (he : e.instruction? = some i) (hl : i.operand = .label l) : e = .branch i.opcode l := by
  cases e with
  | branch op l' =>
    cases he
    cases hl
    rfl
  | loadLocal | storeLocal | loadArg =>
    cases he
    exact absurd hl (operand_accessInstruction _ _ _ _ l)
  | loadInt v =>
    cases he
    unfold constantInstruction at hl
    split at hl <;> cases hl
  | emit | emitToken | emitCall | storeArg =>
    cases he
    cases hl
  | _ => cases he

theorem boundTo_le {history : List Event} {l : Label} {k : Nat} (h : boundTo l history = some k) :
    k ≤ (emitted history).length := by
  induction history with
  | nil => cases h
  | cons e history ih =>
    rw [boundTo] at h
    rw [emitted, List.length_append]
    split at h
    · cases h
      exact Nat.le_add_right _ _
    · exact Nat.le_add_right_of_le (ih h)

/-- Every beginning of a history has a draft. -/
theorem Drafted.early {late early : List Event} {d : Draft} (h : Drafted (late ++ early) d) :
    ∃ d', Drafted early d' := by
  induction late generalizing d with
  | nil => exact ⟨d, h⟩
  | cons e late ih =>
    cases h with
    | step e h hproper => exact ih h

/-- The labels of branches were given out. -/
theorem Drafted.given_of_branch {history : List Event} {d : Draft} (h : Drafted history d)
    {op : Opcode} {l : Label} (hbranch : .branch op l ∈ history) : Given history l := by
  obtain ⟨late, early, rfl⟩ := List.append_of_mem hbranch
  obtain ⟨d', h'⟩ := h.early
  cases h' with
  | step e h hproper =>
    refine hproper.2.imp ?_ ?_ <;>
      exact fun hl => List.mem_append_right _ (List.mem_cons_of_mem _ hl)

/-- A region stands for the number of the instruction that it starts at. -/
theorem Drafted.region_eq {late early : List Event} {d : Draft} {region : Nat}
    (h : Drafted (late ++ .beginTry region :: early) d) : region = (emitted early).length := by
  obtain ⟨d', h'⟩ := h.early
  cases h' with
  | step e h hproper =>
    rw [← h.records.code, Array.length_toList]
    exact hproper

/-- A handler stands for its kind, its region and the number of the instruction that it starts at. -/
theorem Drafted.handler_eq {late early : List Event} {d : Draft} {region : Nat} {kind : ClauseKind}
    {handler : OpenHandler} (h : Drafted (late ++ .beginHandler region kind handler :: early) d) :
    handler = ⟨kind, region, (emitted early).length⟩ := by
  obtain ⟨d', h'⟩ := h.early
  cases h' with
  | step e h hproper =>
    rw [← h.records.code, Array.length_toList]
    exact hproper.2

/-- Later requests only add instructions. -/
theorem length_emitted_le (late early : List Event) :
    (emitted early).length ≤ (emitted (late ++ early)).length := by
  induction late with
  | nil => exact Nat.le_refl _
  | cons e late ih =>
    rw [List.cons_append, emitted, List.length_append]
    exact Nat.le_add_right_of_le ih

/-- A clause is completed by a request. -/
theorem exists_of_mem_clausesOf {history : List Event} {c : DraftClause} (h : c ∈ clausesOf history) :
    ∃ late early handler, history = late ++ .endHandler handler :: early ∧
      c = ⟨handler.kind, handler.tryStart, handler.start, (emitted early).length⟩ := by
  induction history with
  | nil => cases h
  | cons e history ih =>
    rw [clausesOf, List.mem_append] at h
    rcases h with h | h
    · obtain ⟨late, early, handler, rfl, hc⟩ := ih h
      exact ⟨e :: late, early, handler, rfl, hc⟩
    · cases e with
      | endHandler handler =>
        obtain rfl := List.mem_singleton.1 h
        exact ⟨[], history, handler, rfl, rfl⟩
      | _ => cases h

/-- The region of a clause ends where its handler starts, and both lie in the code. -/
theorem Drafted.clause_le {history : List Event} {d : Draft} (h : Drafted history d)
    {c : DraftClause} (hc : c ∈ clausesOf history) :
    c.tryStart ≤ c.handlerStart ∧ c.handlerStart ≤ c.handlerStop ∧
      c.handlerStop ≤ (emitted history).length := by
  obtain ⟨late, early, handler, rfl, rfl⟩ := exists_of_mem_clausesOf hc
  obtain ⟨d', h'⟩ := h.early
  cases h' with
  | step e hearly hproper =>
    obtain ⟨region, kind, hmem⟩ := hproper
    obtain ⟨between, before, rfl⟩ := List.append_of_mem hmem
    obtain rfl := hearly.handler_eq
    obtain ⟨d'', h''⟩ := hearly.early
    cases h'' with
    | step e hbefore hproper =>
      obtain ⟨inside, start, rfl⟩ := List.append_of_mem hproper.1
      obtain rfl := hbefore.region_eq
      refine ⟨?_, ?_, ?_⟩
      · exact Nat.le_trans (length_emitted_le [.beginTry _] start) (length_emitted_le inside _)
      · exact Nat.le_trans (length_emitted_le [.beginHandler ..] _) (length_emitted_le between _)
      · exact Nat.le_trans (length_emitted_le [.endHandler _] _) (length_emitted_le late _)

/-- Positions are noted in the order of the instructions. -/
theorem pairwise_pointsOf (history : List Event) :
    (pointsOf history).Pairwise (fun p q => p.1 ≤ q.1) ∧
      ∀ p ∈ pointsOf history, p.1 ≤ (emitted history).length := by
  induction history with
  | nil => exact ⟨List.Pairwise.nil, fun p hp => by cases hp⟩
  | cons e history ih =>
    have hnew : ∀ p ∈ (e.position?.map ((emitted history).length, ·)).toList,
        p.1 = (emitted history).length := by
      cases e.position? <;> simp
    rw [pointsOf]
    refine ⟨List.pairwise_append.2 ⟨ih.1, ?_, fun p hp q hq => ?_⟩, fun p hp => ?_⟩
    · cases e.position? <;> simp
    · rw [hnew q hq]
      exact ih.2 p hp
    · refine Nat.le_trans ?_ (length_emitted_le [e] history)
      rcases List.mem_append.1 hp with hp | hp
      · exact ih.2 p hp
      · exact Nat.le_of_eq (hnew p hp)

end CilScope.Draft
