import CilScope.Proofs.Draft.Growth

/-!
# Blocks

A draft is not any list of instructions: its labels and protected regions nest. `Block x d d'` says
that the steps from `d` to `d'` laid out one block, whose branches go to labels of the block or to
the exits `x`, and whose regions end where control cannot fall out of them. What holds of every
block is then shown by induction, with one case for each way to build one.
-/

namespace CilScope

/-- A drafted instruction that does not branch or return. -/
structure DraftInstruction.Plain (i : DraftInstruction) : Prop where
  operand : ∀ l, i.operand ≠ .label l
  opcode : i.opcode ≠ .ret

namespace Draft

/-! ## Exits -/

/-- Where a block may go. -/
structure Exits where
  /-- The labels that any branch may go to. -/
  jump : Label → Prop
  /-- The labels that can be left for. -/
  leave : Label → Prop
  /-- The block may return. -/
  ret : Prop

namespace Exits

variable {x y : Exits} {l : Label}

/-- The exits of a whole body. -/
def body : Exits := ⟨fun _ => False, fun _ => False, True⟩

/-- Some branch may go to the label. -/
def Allows (x : Exits) (l : Label) : Prop := x.jump l ∨ x.leave l

/-- The exits of a block around which `l` is bound. -/
def with_ (x : Exits) (l : Label) : Exits := { x with jump := fun m => m = l ∨ x.jump m }

/-- The exits of a protected region or a handler: all of them can only be left for. -/
def inside (x : Exits) : Exits := ⟨fun _ => False, x.Allows, False⟩

/-- Whatever takes the exits `x` takes only the exits `y`. -/
structure Within (x y : Exits) : Prop where
  jump : ∀ l, x.jump l → y.jump l
  leave : ∀ l, x.leave l → y.Allows l
  ret : x.ret → y.ret

theorem Within.refl (x : Exits) : x.Within x := ⟨fun _ => id, fun _ => .inr, id⟩

theorem Within.allows (h : x.Within y) (hl : x.Allows l) : y.Allows l :=
  hl.elim (fun hl => .inl (h.jump l hl)) (h.leave l)

theorem Within.with_ (h : x.Within y) (l : Label) : (x.with_ l).Within (y.with_ l) where
  jump := fun m => Or.imp id (h.jump m)
  leave := fun m hm => (h.leave m hm).imp .inr id
  ret := h.ret

theorem Within.inside (h : x.Within y) : x.inside.Within y.inside :=
  ⟨fun _ => False.elim, fun _ hl => .inr (h.allows hl), id⟩

/-- A label that is bound around the block is one more exit. -/
theorem within_with_ (x : Exits) (l : Label) : x.Within (x.with_ l) :=
  ⟨fun _ => .inr, fun _ => .inr, id⟩

theorem inside_within (x : Exits) : x.inside.Within x :=
  ⟨fun _ => False.elim, fun _ => id, False.elim⟩

theorem allows_with_ : (x.with_ l).Allows l := .inl (.inl rfl)

theorem Allows.of_with_ {m : Label} (h : (x.with_ l).Allows m) : m = l ∨ x.Allows m := by
  rcases h with (rfl | h) | h
  · exact .inl rfl
  · exact .inr (.inl h)
  · exact .inr (.inr h)

theorem allows_inside : x.inside.Allows l ↔ x.Allows l := or_iff_right id

end Exits

/-! ## The ways to build a block -/

/-- No instruction branches to the label. -/
def Unused (d : Draft) (l : Label) : Prop := ∀ i ∈ d.code, i.operand ≠ .label l

/-- A step that appends nothing: it makes labels and declares locals. -/
structure Rests (d d' : Draft) : Prop where
  grows : d.Grows d.labels.size d'
  code : d'.code = d.code
  clauses : d'.clauses = d.clauses
  unreachable : d'.unreachable = d.unreachable
  bound : ∀ l t, d'.target? l = some t → d.target? l = some t ∨ t = d.code.size
  asked : ∀ l, d'.Targeted l → d.Targeted l

/-- A step that appends the instruction `i`. -/
structure Adds (i : DraftInstruction) (d d' : Draft) : Prop where
  grows : d.Grows d.labels.size d'
  code : d'.code = d.code.push i
  clauses : d'.clauses = d.clauses
  unreachable : d'.unreachable = (d.unreachable || !i.opcode.fallsThrough)
  target : ∀ l, d'.target? l = d.target? l
  targeted : ∀ l, i.operand = .label l → d.Has l ∧ d'.Targeted l
  asked : ∀ l, d'.Targeted l → d.Targeted l ∨ i.operand = .label l

/-- The steps from `d` to `d'` lay out a block with the exits `x`. A label of the block is bound at
its end (`forward`) or at its start (`backward`); a protected region is a block with its handler
behind it, and neither falls out at its end. -/
inductive Block : (x : Exits) → (d d' : Draft) → Prop
  | rest {x : Exits} {d d' : Draft} (h : Rests d d') : Block x d d'
  | add {x : Exits} {d d' : Draft} {i : DraftInstruction} (h : Adds i d d')
      (hl : ∀ l, i.operand = .label l → x.jump l ∨ i.opcode = .leave ∧ x.leave l)
      (hret : i.opcode = .ret → x.ret) : Block x d d'
  | seq {x : Exits} {d d₁ d' : Draft} (h : Block x d d₁) (h' : Block x d₁ d') : Block x d d'
  | forward {x : Exits} {d d' : Draft} (l : Label) (hunused : d.Unused l)
      (h : Block (x.with_ l) d d') (hhas : d'.Has l) (hfree : d'.target? l = none) :
      Block x d (d'.mark l)
  | backward {x : Exits} {d d' : Draft} (l : Label) (hunused : d.Unused l) (hhas : d.Has l)
      (hfree : d.target? l = none) (h : Block (x.with_ l) (d.mark l) d') : Block x d d'
  | protect {x : Exits} {d d₁ d₂ : Draft} (kind : ClauseKind) (hbody : Block x.inside d.beginTry.1 d₁)
      (hend : d₁.unreachable = true)
      (hhandler : Block x.inside (d₁.beginHandler d.code.size kind).1 d₂)
      (hstop : d₂.unreachable = true) :
      Block x d (d₂.endHandler ⟨kind, d.code.size, d₁.code.size⟩)

variable {d d' d'' : Draft}

theorem Rests.refl (d : Draft) : Rests d d := ⟨.refl _ d, rfl, rfl, rfl, fun _ _ => .inl, fun _ => id⟩

/-- A new label is free, or bound to the next instruction. -/
theorem target?_of_push {s : LabelState} (h : d'.labels = d.labels.push s) {l : Label} {t : Nat}
    (ht : d'.target? l = some t) : d.target? l = some t ∨ s.target = some t := by
  rw [target?, h, Array.getElem?_push] at ht
  split at ht
  · exact .inr ht
  · exact .inl ht

theorem target?_of_anchor (h : d'.labels = d.labels.push { target := some d.code.size }) {l : Label}
    {t : Nat} (ht : d'.target? l = some t) : d.target? l = some t ∨ t = d.code.size :=
  (target?_of_push h ht).imp id fun ht => (Option.some.inj ht).symm

/-- Nothing asks for a new label. -/
theorem targeted_of_push {s : LabelState} (h : d'.labels = d.labels.push s) (hs : s.depth = none)
    {l : Label} (hl : d'.Targeted l) : d.Targeted l := by
  rw [Targeted, h, Array.getElem?_push] at hl
  split at hl
  · rw [Option.bind_some, hs] at hl
    cases hl
  · exact hl

theorem rests_newLabel (d : Draft) : Rests d d.newLabel.1 :=
  ⟨grows_newLabel d _, rfl, rfl, rfl, fun _ _ ht => (target?_of_push rfl ht).imp id nofun,
    fun _ => targeted_of_push rfl rfl⟩

theorem rests_beginTry (d : Draft) : Rests d d.beginTry.1 :=
  ⟨grows_beginTry d _, rfl, rfl, rfl, fun _ _ => target?_of_anchor rfl,
    fun _ => targeted_of_push rfl rfl⟩

theorem rests_point (d : Draft) (pos : Source.Position) : Rests d (d.point pos) :=
  ⟨grows_point d pos _, rfl, rfl, rfl, fun _ _ => target?_of_anchor rfl,
    fun _ => targeted_of_push rfl rfl⟩

theorem rests_declareLocal (d : Draft) (sig : TypeSig) (name : Option String) :
    Rests d (d.declareLocal sig name).1 where
  grows := grows_declareLocal d sig name _
  code := code_declareLocal d sig name
  clauses := by
    simp only [declareLocal]
    split <;> rfl
  unreachable := unreachable_declareLocal d sig name
  bound := fun l t ht => by
    rw [target?, labels_declareLocal] at ht
    exact .inl ht
  asked := fun l hl => by rwa [Targeted, labels_declareLocal] at hl

theorem Appends.adds {i : DraftInstruction} (h : Appends i d d') (hi : ∀ l, i.operand ≠ .label l) :
    Adds i d d' where
  grows := h.grows _
  code := h.code
  clauses := h.clauses
  unreachable := h.unreachable
  target := fun l => by rw [target?, h.labels, target?]
  targeted := fun l hl => absurd hl (hi l)
  asked := fun l hl => .inl (by rwa [Targeted, h.labels] at hl)

/-- What is appended is known from the code. -/
theorem Appends.eq_of_code {i j : DraftInstruction} (h : Appends i d d')
    (hj : d'.code = d.code.push j) : i = j :=
  (Array.push_eq_push.1 (h.code.symm.trans hj)).1

theorem plain_loadInt (d : Draft) (v : Int32) : ∃ i, Appends i d (d.loadInt v) ∧ i.Plain := by
  obtain ⟨i, hi, -⟩ := appends_loadInt d v
  refine ⟨i, hi, ?_⟩
  unfold loadInt at hi
  split at hi
  · rename_i op hop
    rw [hi.eq_of_code (code_push ..)]
    refine ⟨by simp, ?_⟩
    rintro rfl
    cases (constantOpcode?_eq_some hop).2
  · rw [hi.eq_of_code (code_push ..)]
    exact ⟨by simp, by split <;> nofun⟩

/-- An access to a variable, in any of its forms. -/
theorem Appends.plain_access {first : List Opcode} {short long : Opcode} {index : UInt16}
    {pops pushes : UInt32} {i : DraftInstruction}
    (h : Appends i d (d.access first short long index pops pushes)) (hfirst : .ret ∉ first)
    (hshort : short ≠ .ret) (hlong : long ≠ .ret) : i.Plain := by
  unfold access at h
  split at h
  · rename_i op hop
    rw [h.eq_of_code (code_push ..)]
    refine ⟨by simp, ?_⟩
    rintro rfl
    exact hfirst (List.mem_of_getElem? hop)
  · rw [h.eq_of_code (code_push ..)]
    refine ⟨by simp, ?_⟩
    split
    · exact hshort
    · exact hlong

theorem plain_loadLocal (d : Draft) (index : UInt16) :
    ∃ i, Appends i d (d.loadLocal index) ∧ i.Plain :=
  (appends_loadLocal d index).imp fun _ h =>
    ⟨h.1, h.1.plain_access (by decide) (by decide) (by decide)⟩

theorem plain_storeLocal (d : Draft) (index : UInt16) :
    ∃ i, Appends i d (d.storeLocal index) ∧ i.Plain :=
  (appends_storeLocal d index).imp fun _ h =>
    ⟨h.1, h.1.plain_access (by decide) (by decide) (by decide)⟩

theorem plain_loadArg (d : Draft) (index : UInt16) :
    ∃ i, Appends i d (d.loadArg index) ∧ i.Plain :=
  (appends_loadArg d index).imp fun _ h =>
    ⟨h.1, h.1.plain_access (by decide) (by decide) (by decide)⟩

theorem plain_storeArg (d : Draft) (index : UInt16) :
    ∃ i, Appends i d (d.storeArg index) ∧ i.Plain := by
  obtain ⟨i, hi, -⟩ := appends_storeArg d index
  refine ⟨i, hi, ?_⟩
  have hcode : (d.storeArg index).code = d.code.push ⟨.stargS, .var index⟩ := by
    unfold storeArg
    dsimp only
    rw [code_push]
    split <;> rfl
  rw [hi.eq_of_code hcode]
  exact ⟨by simp, nofun⟩

theorem adds_branch (d : Draft) {op : Opcode} {l : Label} (hop : op.operandKind = .branch)
    (hl : d.Has l) : Adds ⟨op, .label l⟩ d (d.branch op l) where
  grows := grows_branch d hop _
  code := code_branch d
  clauses := by rw [branch, clauses_push]
  unreachable := unreachable_branch d
  target := target?_branch d
  targeted := by
    rintro _ ⟨⟩
    exact ⟨hl, targeted_branch d hl⟩
  asked := fun l' hl' => by
    by_cases heq : l = l'
    · exact .inr (congrArg DraftOperand.label heq)
    · have hne : l.index ≠ l'.index := fun h => heq (congrArg Label.mk h)
      rw [Targeted, labels_branch, Array.getElem?_modify, if_neg hne] at hl'
      exact .inl hl'

namespace Block

variable {x y : Exits}

theorem plain {i : DraftInstruction} (h : Appends i d d') (hi : i.Plain) : Block x d d' :=
  .add (h.adds hi.operand) (fun l hl => absurd hl (hi.operand l)) fun hret => absurd hret hi.opcode

theorem branch {op : Opcode} {l : Label} (hop : op.operandKind = .branch) (hhas : d.Has l)
    (hl : x.jump l ∨ op = .leave ∧ x.leave l) : Block x d (d.branch op l) := by
  refine .add (adds_branch d hop hhas) ?_ fun (hret : op = .ret) => ?_
  · rintro _ ⟨⟩
    exact hl
  · rw [hret] at hop
    cases hop

theorem mono (h : Block x d d') (hxy : x.Within y) : Block y d d' := by
  induction h generalizing y with
  | rest h => exact .rest h
  | add h hl hret =>
    refine .add h (fun l hi => ?_) fun hi => hxy.ret (hret hi)
    rcases hl l hi with hl | ⟨hop, hl⟩
    · exact .inl (hxy.jump l hl)
    · exact (hxy.leave l hl).imp id fun hl => ⟨hop, hl⟩
  | seq _ _ ih ih' => exact .seq (ih hxy) (ih' hxy)
  | forward l hunused _ hhas hfree ih => exact .forward l hunused (ih (hxy.with_ l)) hhas hfree
  | backward l hunused hhas hfree _ ih => exact .backward l hunused hhas hfree (ih (hxy.with_ l))
  | protect kind _ hend _ hstop ih ih' => exact .protect kind (ih hxy.inside) hend (ih' hxy.inside) hstop

/-! ## What every block keeps -/

theorem grows (h : Block x d d') : d.Grows 0 d' := by
  induction h with
  | rest h => exact h.grows.mono (Nat.zero_le _)
  | add h _ _ => exact h.grows.mono (Nat.zero_le _)
  | seq _ _ ih ih' => exact ih.trans ih'
  | forward l _ _ _ _ ih => exact ih.trans (grows_mark _ (Nat.zero_le _))
  | backward l _ _ _ _ ih => exact (grows_mark _ (Nat.zero_le _)).trans ih
  | protect kind _ _ _ _ ih ih' =>
    exact (grows_beginTry _ 0).trans (ih.trans ((grows_beginHandler _ _ kind 0).trans
      (ih'.trans (grows_endHandler _ _ 0))))

theorem size_le (h : Block x d d') : d.code.size ≤ d'.code.size := by
  simpa only [Array.length_toList] using h.grows.code.length_le

/-- What stands in the draft stays where it is. -/
theorem getElem? (h : Block x d d') {k : Nat} (hk : k < d.code.size) : d'.code[k]? = d.code[k]? := by
  obtain ⟨rest, hrest⟩ := h.grows.code
  simp only [← Array.getElem?_toList, ← hrest]
  exact List.getElem?_append_left (by simpa using hk)

end Block

/-- Labels that are bound stay bound where they are. -/
def Binds (d d' : Draft) : Prop := ∀ l t, d.target? l = some t → d'.target? l = some t

theorem Grows.binds (h : d.Grows d.labels.size d') : Binds d d' := fun l _ ht =>
  have hhas : d.Has l := has_of_target? d ht
  (h.target l hhas hhas).trans ht

theorem binds_mark {l : Label} (hfree : d.target? l = none) : Binds d (d.mark l) := by
  intro m t ht
  rw [target?_mark_of_ne d fun heq => ?_, ht]
  rw [show m = l from congrArg Label.mk heq, hfree] at ht
  cases ht

namespace Binds

theorem trans (h : Binds d d') (h' : Binds d' d'') : Binds d d'' :=
  fun l t ht => h' l t (h l t ht)

/-- A label that two steps do not bind is not bound in between. -/
theorem target?_eq {l : Label} (h : Binds d d') (h' : Binds d' d'')
    (hl : d''.target? l = d.target? l) : d'.target? l = d.target? l := by
  cases ht : d.target? l with
  | some t => exact h l t ht
  | none =>
    refine Option.eq_none_iff_forall_ne_some.2 fun t ht' => ?_
    rw [h' l t ht', ht] at hl
    cases hl

end Binds

theorem Block.binds {x : Exits} (h : Block x d d') : Binds d d' := by
  induction h with
  | rest h => exact h.grows.binds
  | add h _ _ => exact h.grows.binds
  | seq _ _ ih ih' => exact ih.trans ih'
  | forward l _ _ _ hfree ih => exact ih.trans (binds_mark hfree)
  | backward l _ _ hfree _ ih => exact (binds_mark hfree).trans ih
  | protect kind _ _ _ _ ih ih' =>
    exact (grows_beginTry _ _).binds.trans (ih.trans ((grows_beginHandler _ _ kind _).binds.trans
      (ih'.trans (grows_endHandler _ _ _).binds)))

/-! ## Sound drafts -/

/-- The instructions know their labels, labels are bound to instructions or to the end of the draft, and
the ranges of the clauses are in order. If a branch goes to the end, then the end can be reached. -/
structure Sound (d : Draft) : Prop where
  targeted : ∀ i ∈ d.code, ∀ l, i.operand = .label l → d.Targeted l
  bound : ∀ l t, d.target? l = some t → t ≤ d.code.size
  live : ∀ i ∈ d.code, ∀ l, i.operand = .label l → d.target? l = some d.code.size →
    d.unreachable = false
  clauses : ∀ c ∈ d.clauses, c.tryStart ≤ c.handlerStart ∧ c.handlerStart ≤ c.handlerStop ∧
    c.handlerStop ≤ d.code.size

namespace Sound

theorem empty : Sound {} := ⟨by simp, by simp [target?], by simp, by simp⟩

/-- The labels of instructions that are there stay as they are. -/
theorem target?_eq (hd : Sound d) (hgrows : d.Grows d.labels.size d') {i : DraftInstruction}
    {l : Label} (hi : i ∈ d.code) (hl : i.operand = .label l) : d'.target? l = d.target? l := by
  have hhas : d.Has l := has_of_targeted d (hd.targeted i hi l hl)
  exact hgrows.target l hhas hhas

theorem rest (h : Sound d) (hrest : Rests d d') : Sound d' where
  targeted := fun i hi l hl => hrest.grows.targeted l (h.targeted i (hrest.code ▸ hi) l hl)
  bound := fun l t ht => by
    rw [hrest.code]
    exact (hrest.bound l t ht).elim (h.bound l t) Nat.le_of_eq
  live := fun i hi l hl ht => by
    rw [hrest.code] at hi ht
    rw [hrest.unreachable]
    exact h.live i hi l hl (h.target?_eq hrest.grows hi hl ▸ ht)
  clauses := fun c hc => by rw [hrest.code]; exact h.clauses c (hrest.clauses ▸ hc)

theorem add {i : DraftInstruction} (h : Sound d) (hadd : Adds i d d') : Sound d' where
  targeted := fun j hj l hl => by
    rw [hadd.code, Array.mem_push] at hj
    rcases hj with hj | rfl
    · exact hadd.grows.targeted l (h.targeted j hj l hl)
    · exact (hadd.targeted l hl).2
  bound := fun l t ht => by
    rw [hadd.code, Array.size_push]
    exact Nat.le_succ_of_le (h.bound l t (hadd.target l ▸ ht))
  live := fun j _ l _ ht => by
    -- no label is bound behind the new instruction
    rw [hadd.target, hadd.code, Array.size_push] at ht
    exact absurd (h.bound l _ ht) (Nat.not_succ_le_self _)
  clauses := fun c hc => by
    have := h.clauses c (hadd.clauses ▸ hc)
    rw [hadd.code, Array.size_push]
    omega

theorem mark (h : Sound d) {l : Label} (hhas : d.Has l) : Sound (d.mark l) where
  targeted := fun i hi m hm => targeted_mark d (h.targeted i (code_mark d ▸ hi) m hm)
  bound := fun m t ht => by
    rw [code_mark]
    by_cases hml : m = l
    · rw [hml, target?_mark d hhas] at ht
      exact Nat.le_of_eq (Option.some.inj ht).symm
    · rw [target?_mark_of_ne d fun heq => hml (congrArg Label.mk heq)] at ht
      exact h.bound m t ht
  live := fun i hi m hm ht => by
    rw [code_mark] at hi ht
    by_cases hml : m = l
    · exact (unreachable_mark d).2 (.inr (hml ▸ h.targeted i hi m hm))
    · rw [target?_mark_of_ne d fun heq => hml (congrArg Label.mk heq)] at ht
      exact (unreachable_mark d).2 (.inl (h.live i hi m hm ht))
  clauses := fun c hc => by rw [code_mark]; exact h.clauses c (clauses_mark d ▸ hc)

theorem beginHandler (h : Sound d) (start : Nat) (kind : ClauseKind) :
    Sound (d.beginHandler start kind).1 where
  targeted := fun i hi l hl => (grows_beginHandler d start kind 0).targeted l (h.targeted i hi l hl)
  bound := fun l t ht => (target?_of_anchor rfl ht).elim (h.bound l t) Nat.le_of_eq
  live := fun _ _ _ _ _ => rfl
  clauses := h.clauses

/-- One more clause, whose ranges are in order. -/
theorem endHandler (h : Sound d) {handler : OpenHandler} (htry : handler.tryStart ≤ handler.start)
    (hstart : handler.start ≤ d.code.size) : Sound (d.endHandler handler) where
  targeted := fun i hi l hl => (grows_endHandler d handler 0).targeted l (h.targeted i hi l hl)
  bound := fun l t ht => (target?_of_anchor rfl ht).elim (h.bound l t) Nat.le_of_eq
  live := fun i hi l hl ht =>
    h.live i hi l hl (h.target?_eq (grows_endHandler d handler _) hi hl ▸ ht)
  clauses := fun c hc => by
    rcases Array.mem_push.1 hc with hc | rfl
    · exact h.clauses c hc
    · exact ⟨htry, hstart, Nat.le_refl _⟩

/-- A label that does not exist yet is not branched to. -/
theorem unused (h : Sound d) {l : Label} (hl : ¬d.Has l) : d.Unused l :=
  fun i hi hop => hl (has_of_targeted d (h.targeted i hi l hop))

end Sound

/-- **Blocks keep drafts sound.** -/
theorem Block.sound {x : Exits} (h : Block x d d') (hd : Sound d) : Sound d' := by
  induction h with
  | rest h => exact hd.rest h
  | add h _ _ => exact hd.add h
  | seq _ _ ih ih' => exact ih' (ih hd)
  | forward l _ _ hhas _ ih => exact (ih hd).mark hhas
  | backward l _ hhas _ _ ih => exact ih (hd.mark hhas)
  | @protect _ d d₁ d₂ kind hbody _ hhandler _ ih ih' =>
    refine (ih' ((ih (hd.rest (rests_beginTry d))).beginHandler _ _)).endHandler ?_ ?_
    · exact hbody.size_le
    · exact hhandler.size_le

end Draft

end CilScope
