import CilScope.Proofs.Draft.Faithful

/-!
# The recorded depth of the stack

A draft knows how deep the stack is in the order of its code, and remembers of every label the depth that
the first branch to it left, in whatever code that branch stands. `Levelled` says that the ways to an
instruction agree: a branch that control can come to leaves the depth that its label has, a label that
control falls into has the depth there is, and nothing falls into a handler. Then the stack is never
deeper than the draft records, on any path through the code and its handlers
(`Draft.after_le_maxDepth`), and so the depth that the body records suffices
(`Draft.after_le_maxStack`). Paths count the stack without a bound, drafts count it in 32 bits: the two
agree as long as fewer values are put on the stack altogether (`Draft.pushed`). A history that is not levelled can record too little: a branch in code that
control never comes to may be the first one to a label.
-/

namespace CilScope

/-- How many values a handler finds on the stack. -/
def ClauseKind.entryDepth : ClauseKind → Nat
  | catch_ _ => 1
  | finally_ => 0

namespace Draft

/-! ## Paths -/

/-- A drafted instruction with the number of values that it takes and leaves. -/
structure Step where
  instruction : DraftInstruction
  pops : Nat
  pushes : Nat

/-- The depth behind an instruction. -/
def Step.after (s : Step) (n : Nat) : Nat := n - s.pops + s.pushes

/-- The depth that a branch leaves where it goes. Leaving a protected region empties the stack. -/
def Step.landing (s : Step) (n : Nat) : Nat :=
  if s.instruction.opcode = .leave then 0 else s.after n

/-- How many values a request takes from the stack and leaves there. -/
def Event.effect : Event → UInt32 × UInt32
  | emit op | emitToken op _ => op.stackEffect
  | emitCall _ _ pops pushes => (pops, pushes)
  | loadInt _ | loadLocal _ | loadArg _ => (0, 1)
  | storeLocal _ | storeArg _ => (1, 0)
  | branch op _ => (branchPops op, 0)
  | beginHandler _ kind _ => (0, .ofNat kind.entryDepth)
  | _ => (0, 0)

/-- The instruction that a request is for, with its effect on the stack. -/
def Event.step? (e : Event) : Option Step :=
  e.instruction?.map (⟨·, e.effect.1.toNat, e.effect.2.toNat⟩)

/-- How many values the requests of a history leave on the stack, if none is ever taken. -/
def pushed : List Event → Nat
  | [] => 0
  | e :: history => pushed history + e.effect.2.toNat

/-- The instructions that were asked for, with their effects. -/
def steps : List Event → List Step
  | [] => []
  | e :: history => steps history ++ e.step?.toList

/-- Control can come to the instruction with number `k` while there are `n` values on the stack. -/
inductive Deep (history : List Event) : Nat → Nat → Prop
  | start : Deep history 0 0
  | falls {k n : Nat} {s : Step} (h : Deep history k n) (hs : (steps history)[k]? = some s)
    (hfalls : s.instruction.opcode.fallsThrough = true) : Deep history (k + 1) (s.after n)
  | jumps {k n t : Nat} {s : Step} {l : Label} (h : Deep history k n)
    (hs : (steps history)[k]? = some s) (hl : s.instruction.operand = .label l)
    (ht : boundTo l history = some t) : Deep history t (s.landing n)
  | handled {k n : Nat} {c : DraftClause} (h : Deep history k n) (hc : c ∈ clausesOf history)
    (hstart : c.tryStart ≤ k) (hstop : k < c.handlerStart) :
    Deep history c.handlerStart c.kind.entryDepth

/-! ## Levels -/

/-- The depth that is known of a label. -/
def known (d : Draft) (l : Label) : Option Nat :=
  ((d.labels[l.index]?).bind (·.depth)).map UInt32.toNat

/-- How deep the stack is in front of the next instruction, if the draft takes it that control can come
there. -/
def level (d : Draft) : Option Nat := if d.unreachable then none else some d.depth.toNat

/-- The draft of a history. -/
def draftOf (history : List Event) : Draft := history.foldr (fun e d => e.apply d) {}

/-- The levels in front of the instructions that were asked for. -/
def levels : List Event → List (Option Nat)
  | [] => []
  | e :: history => levels history ++ (e.instruction?.map fun _ => (draftOf history).level).toList

/-- The level in front of the instruction with number `k`, or behind the last one. -/
def levelAt (history : List Event) (k : Nat) : Option Nat :=
  ((levels history ++ [(draftOf history).level])[k]?).join

/-- A branch to a label. -/
def branchStep (op : Opcode) (l : Label) : Step := ⟨⟨op, .label l⟩, (branchPops op).toNat, 0⟩

/-- The request agrees with the ways to the instructions that the history has, whose draft is `d`. -/
def Event.Levels (history : List Event) (d : Draft) : Event → Prop
  | branch op l => ∀ n ∈ d.level,
      (∀ t ∈ boundTo l history, levelAt history t = some ((branchStep op l).landing n)) ∧
        (boundTo l history = none → ∀ m ∈ d.known l, m = (branchStep op l).landing n)
  | mark l => boundTo l history = none ∧ ∀ n ∈ d.level, ∀ m ∈ d.known l, m = n
  | beginHandler .. => d.level = none
  | _ => True

/-- The ways to every instruction agree on the depth of the stack. -/
def Levelled : List Event → Prop
  | [] => True
  | e :: history => e.Levels history (draftOf history) ∧ Levelled history

instance (history : List Event) (d : Draft) (e : Event) : Decidable (e.Levels history d) := by
  cases e <;> dsimp only [Event.Levels] <;> infer_instance

instance decidableLevelled : (history : List Event) → Decidable (Levelled history)
  | [] => .isTrue trivial
  | e :: history =>
    have := decidableLevelled history
    inferInstanceAs (Decidable (e.Levels history (draftOf history) ∧ Levelled history))

theorem Drafted.eq_draftOf {history : List Event} {d : Draft} (h : Drafted history d) :
    d = draftOf history := by
  induction h with
  | start => rfl
  | step e h hproper ih => exact congrArg e.apply ih

section

variable {history : List Event} {e : Event}

theorem length_levels (history : List Event) : (levels history).length = (emitted history).length := by
  induction history with
  | nil => rfl
  | cons e history ih =>
    rw [levels, emitted, List.length_append, List.length_append, ih]
    cases e.instruction? <;> rfl

theorem length_steps (history : List Event) : (steps history).length = (emitted history).length := by
  induction history with
  | nil => rfl
  | cons e history ih =>
    rw [steps, emitted, List.length_append, List.length_append, ih, Event.step?]
    cases e.instruction? <;> rfl

/-- An instruction is an earlier one or the one that is asked for. -/
theorem step_of_cons {k : Nat} {s : Step} (hs : (steps (e :: history))[k]? = some s) :
    (k < (emitted history).length ∧ (steps history)[k]? = some s) ∨
      k = (emitted history).length ∧ e.step? = some s := by
  rw [steps, List.getElem?_append, length_steps] at hs
  split at hs
  · exact .inl ⟨‹_›, hs⟩
  · cases hstep : e.step? with
    | none => simp [hstep] at hs
    | some s' =>
      rw [hstep, Option.toList_some, List.getElem?_singleton] at hs
      split at hs
      · exact .inr ⟨by omega, hs⟩
      · cases hs

/-- Behind the last instruction the level is that of the draft. -/
theorem levelAt_length (history : List Event) :
    levelAt history (emitted history).length = (draftOf history).level := by
  rw [levelAt, ← length_levels, List.getElem?_concat_length]
  rfl

/-- A request leaves the levels in front of the instructions that are there. -/
theorem levelAt_cons {k : Nat} (hk : k < (emitted history).length) :
    levelAt (e :: history) k = levelAt history k := by
  rw [← length_levels] at hk
  rw [levelAt, levelAt, levels, List.append_assoc, List.getElem?_append_left hk,
    List.getElem?_append_left hk]

/-- A request for an instruction leaves the level in front of it. -/
theorem levelAt_of_instruction {i : DraftInstruction} (hi : e.instruction? = some i) {k : Nat}
    (hk : k ≤ (emitted history).length) : levelAt (e :: history) k = levelAt history k := by
  rcases Nat.lt_or_eq_of_le hk with hlt | rfl
  · exact levelAt_cons hlt
  · rw [levelAt_length, levelAt, levels, hi, ← length_levels, List.append_assoc,
      List.getElem?_append_right (Nat.le_refl _), Nat.sub_self]
    rfl

/-- Behind the end of the code there are no levels. -/
theorem le_of_levelAt {k n : Nat} (h : levelAt history k = some n) : k ≤ (emitted history).length := by
  by_contra hk
  rw [levelAt, List.getElem?_eq_none] at h
  · cases h
  · rw [List.length_append, length_levels, List.length_singleton]
    omega

/-! ## What requests do to the depths -/

variable {d d' : Draft}

/-- The draft has the stack and the labels of another, as far as depths go. -/
structure Same (d d' : Draft) : Prop where
  unreachable : d'.unreachable = d.unreachable
  depth : d'.depth = d.depth
  maxDepth : d'.maxDepth = d.maxDepth
  known : ∀ l, d'.known l = d.known l

theorem Same.refl (d : Draft) : Same d d := ⟨rfl, rfl, rfl, fun _ => rfl⟩

theorem Same.level (h : Same d d') : d'.level = d.level := by
  rw [Draft.level, Draft.level, h.unreachable, h.depth]

/-- Of a label that is new nothing is known. -/
theorem known_of_push {s : LabelState} (h : d'.labels = d.labels.push s) (hs : s.depth = none)
    (l : Label) : d'.known l = d.known l := by
  rw [known, known, h, Array.getElem?_push]
  split
  · rename_i heq
    rw [heq, Array.getElem?_eq_none (Nat.le_refl _), Option.bind_some, hs]
    rfl
  · rfl

theorem same_newLabel (d : Draft) : Same d d.newLabel.1 :=
  ⟨rfl, rfl, rfl, known_of_push rfl rfl⟩

theorem same_exceed (d : Draft) (fault : GenerationFault) : Same d (d.exceed fault) :=
  ⟨rfl, rfl, rfl, fun _ => rfl⟩

theorem same_declareLocal (d : Draft) (sig : TypeSig) (name : Option String) :
    Same d (d.declareLocal sig name).1 := by
  simp only [declareLocal]
  split <;> exact ⟨rfl, rfl, rfl, fun _ => rfl⟩

/-- What a request can do to the depths of a draft. -/
inductive Shift (d : Draft) : Event → Draft → Prop
  | quiet {e : Event} {d' : Draft} (hi : e.instruction? = none) (hbinds : ∀ l, e.binds l = false)
    (hsame : Same d d') : Shift d e d'
  | pushed {e : Event} {i : DraftInstruction} {d₀ : Draft} (hi : e.instruction? = some i)
    (hlabel : ∀ l, i.operand ≠ .label l) (hsame : Same d d₀) :
    Shift d e (d₀.push i.opcode i.operand e.effect.1 e.effect.2)
  | jumped (op : Opcode) {l : Label} (hhas : d.Has l) : Shift d (.branch op l) (d.branch op l)
  | bound {e : Event} {l : Label} {d₀ : Draft} (hi : e.instruction? = none)
    (hbinds : ∀ l', e.binds l' = decide (l = l')) (hsame : Same d d₀) (hhas : d₀.Has l) :
    Shift d e (d₀.mark l)
  | opened (region : Nat) (kind : ClauseKind) (given : OpenHandler) :
    Shift d (.beginHandler region kind given) (d.beginHandler region kind).1

theorem shift_of_push {i : DraftInstruction} {d₀ : Draft} (hi : e.instruction? = some i)
    (hbranch : ∀ op l, e ≠ .branch op l) (hsame : Same d d₀) :
    Shift d e (d₀.push i.opcode i.operand e.effect.1 e.effect.2) :=
  .pushed hi (fun l hl => hbranch _ l (branch_of_operand hi hl)) hsame

/-- This is all that requests do to the depths. -/
theorem Event.shift (hd : Drafted history d) (h : e.Proper history d) : Shift d e (e.apply d) := by
  cases e with
  | newLabel => exact .quiet rfl (fun _ => rfl) (same_newLabel d)
  | declareLocal sig name => exact .quiet rfl (fun _ => rfl) (same_declareLocal d sig name)
  | point | beginTry | endHandler =>
    exact .quiet rfl (fun _ => rfl) ⟨rfl, rfl, rfl, known_of_push rfl rfl⟩
  | here given =>
    rw [show given = d.here.2 from h]
    exact .bound rfl (fun _ => rfl) (same_newLabel d) (has_newLabel d)
  | mark l => exact .bound rfl (fun _ => rfl) (.refl d) (hd.has h)
  | emit op => exact shift_of_push (e := .emit op) (i := ⟨op, .none⟩) rfl (by simp) (.refl d)
  | emitToken op t =>
    exact shift_of_push (e := .emitToken op t) (i := ⟨op, .token t⟩) rfl (by simp) (.refl d)
  | emitCall op t pops pushes =>
    exact shift_of_push (e := .emitCall op t pops pushes) (i := ⟨op, .token t⟩) rfl (by simp) (.refl d)
  | loadInt v =>
    rw [apply, loadInt_eq_push]
    exact shift_of_push (e := .loadInt v) rfl (by simp) (.refl d)
  | loadLocal index =>
    rw [apply, loadLocal_eq_push]
    exact shift_of_push (e := .loadLocal index) rfl (by simp) (.refl d)
  | storeLocal index =>
    rw [apply, storeLocal_eq_push]
    exact shift_of_push (e := .storeLocal index) rfl (by simp) (.refl d)
  | loadArg index =>
    rw [apply, loadArg_eq_push]
    exact shift_of_push (e := .loadArg index) rfl (by simp) (.refl d)
  | storeArg index =>
    simp only [apply, Draft.storeArg]
    split
    · exact shift_of_push (e := .storeArg index) rfl (by simp) (same_exceed d _)
    · exact shift_of_push (e := .storeArg index) rfl (by simp) (.refl d)
  | branch op l => exact .jumped op (hd.has h.2)
  | beginHandler region kind given => exact .opened region kind given

theorem toNat_depth_of_level {n : Nat} (h : d.level = some n) : d.depth.toNat = n := by
  rw [level] at h
  split at h
  · cases h
  · exact Option.some.inj h

/-! ### Instructions -/

section

variable (op : Opcode) (operand : DraftOperand) (pops pushes : UInt32)

theorem toNat_below (depth pops : UInt32) : (below depth pops).toNat = depth.toNat - pops.toNat :=
  UInt32.toNat_ofNat_of_lt' (Nat.lt_of_le_of_lt (Nat.sub_le _ _) depth.toNat_lt)

/-- The depth behind an instruction, counted as the draft counts. -/
theorem toNat_below_add (depth pops pushes : UInt32) :
    (below depth pops + pushes).toNat = (depth.toNat - pops.toNat + pushes.toNat) % 2 ^ 32 := by
  rw [UInt32.toNat_add, toNat_below]

theorem level_push : (d.push op operand pops pushes).level =
    if op.fallsThrough then d.level.map fun n => (n - pops.toNat + pushes.toNat) % 2 ^ 32
    else none := by
  unfold level push
  cases op.fallsThrough <;> cases d.unreachable <;> try rfl
  exact congrArg some (toNat_below_add ..)

theorem toNat_maxDepth_push : (d.push op operand pops pushes).maxDepth.toNat =
    max d.maxDepth.toNat ((d.depth.toNat - pops.toNat + pushes.toNat) % 2 ^ 32) := by
  rw [← toNat_below_add, ← UInt32.toNat_max]
  simp only [push]
  split <;> rfl

theorem maxDepth_push_le : d.maxDepth.toNat ≤ (d.push op operand pops pushes).maxDepth.toNat := by
  rw [toNat_maxDepth_push]
  exact Nat.le_max_left _ _

theorem depth_push_le :
    (d.push op operand pops pushes).depth.toNat ≤ (d.push op operand pops pushes).maxDepth.toNat := by
  simp only [push]
  split
  · rw [UInt32.toNat_max]
    exact Nat.le_max_right _ _
  · exact Nat.zero_le _

theorem known_push (l : Label) : (d.push op operand pops pushes).known l = d.known l := by
  rw [known, labels_push, known]

end

theorem landing_branchStep (op : Opcode) (l : Label) (n : Nat) :
    (branchStep op l).landing n = (if op = .leave then 0 else n) - (branchPops op).toNat := by
  by_cases hop : op = .leave
  · subst hop
    rfl
  · rw [if_neg hop]
    exact if_neg hop

theorem level_branch (op : Opcode) (l : Label) :
    (d.branch op l).level =
      if op.fallsThrough then d.level.map (branchStep op l).after else none := by
  by_cases hop : op = .leave
  · subst hop
    exact level_push ..
  · simp only [branch, if_neg hop]
    rw [level_push]
    refine congrArg (if op.fallsThrough then · else none) (Option.map_congr fun n hn => ?_)
    have hlt := d.depth.toNat_lt
    rw [toNat_depth_of_level hn] at hlt
    exact Nat.mod_eq_of_lt (by rw [UInt32.toNat_zero]; omega)

/-- The first branch to a label decides what is known of it. -/
theorem known_branch (op : Opcode) {l : Label} (h : d.Has l) (l' : Label) :
    (d.branch op l).known l' =
      if l' = l then (d.known l).or (some ((branchStep op l).landing d.depth.toNat))
      else d.known l' := by
  rw [known, labels_branch, Array.getElem?_modify, landing_branchStep]
  have hlands : (below (if op = .leave then 0 else d.depth) (branchPops op)).toNat =
      (if op = .leave then 0 else d.depth.toNat) - (branchPops op).toNat := by
    rw [toNat_below, apply_ite UInt32.toNat, UInt32.toNat_zero]
  by_cases hl : l' = l
  · subst hl
    rw [if_pos rfl, if_pos rfl, known, Array.getElem?_eq_getElem h, ← hlands]
    exact Option.map_or ..
  · rw [if_neg hl, if_neg fun hindex => hl (Label.eq_of_index_eq hindex.symm)]
    rfl

/-! ### Labels -/

theorem maxDepth_mark (l : Label) : (d.mark l).maxDepth = d.maxDepth := by
  simp only [mark]
  repeat' split
  all_goals rfl

theorem level_mark (l : Label) : (d.mark l).level = d.level.or (d.known l) := by
  unfold level mark known
  cases d.unreachable with
  | false => rfl
  | true => cases (d.labels[l.index]?).bind (·.depth) <;> rfl

theorem known_mark {l : Label} (h : d.Has l) (l' : Label) :
    (d.mark l).known l' = if l' = l then (d.known l).or d.level else d.known l' := by
  rw [known, labels_mark]
  by_cases hl : l' = l
  · subst hl
    rw [if_pos rfl, Array.getElem?_setIfInBounds_self, if_pos (show _ < _ from h), level]
    cases d.unreachable
    · exact Option.map_or ..
    · exact (Option.or_none).symm
  · rw [if_neg hl, Array.getElem?_setIfInBounds_ne fun hindex =>
      hl (Label.eq_of_index_eq hindex.symm)]
    rfl

/-! ### What is recorded -/

theorem toNat_maxDepth_beginHandler (d : Draft) (region : Nat) (kind : ClauseKind) :
    (d.beginHandler region kind).1.maxDepth.toNat =
      max d.maxDepth.toNat (d.beginHandler region kind).1.depth.toNat :=
  UInt32.toNat_max ..

/-- Every depth that the draft knows of is recorded. -/
structure Bounded (d : Draft) : Prop where
  depth : d.depth.toNat ≤ d.maxDepth.toNat
  known : ∀ l n, d.known l = some n → n ≤ d.maxDepth.toNat

theorem Bounded.same (h : d.Bounded) (hsame : Same d d') : d'.Bounded where
  depth := by rw [hsame.depth, hsame.maxDepth]; exact h.depth
  known l n hn := by
    rw [hsame.known] at hn
    rw [hsame.maxDepth]
    exact h.known l n hn

theorem Bounded.push (h : d.Bounded) (op : Opcode) (operand : DraftOperand) (pops pushes : UInt32) :
    (d.push op operand pops pushes).Bounded where
  depth := depth_push_le ..
  known l n hn := by
    rw [known_push] at hn
    exact Nat.le_trans (h.known l n hn) (maxDepth_push_le ..)

theorem maxDepth_branch_le (op : Opcode) (l : Label) :
    d.maxDepth.toNat ≤ (d.branch op l).maxDepth.toNat := by
  rw [branch, toNat_maxDepth_push]
  exact Nat.le_max_left _ _

theorem landing_branchStep_le (op : Opcode) (l : Label) (n : Nat) :
    (branchStep op l).landing n ≤ n := by
  rw [landing_branchStep]
  split <;> omega

theorem Bounded.branch (h : d.Bounded) (op : Opcode) {l : Label} (hhas : d.Has l) :
    (d.branch op l).Bounded where
  depth := depth_push_le ..
  known l' n hn := by
    refine Nat.le_trans ?_ (maxDepth_branch_le op l)
    rw [known_branch op hhas] at hn
    split at hn
    · rcases Option.or_eq_some_iff.1 hn with hn | ⟨-, hn⟩
      · exact h.known l n hn
      · rw [← Option.some.inj hn]
        exact Nat.le_trans (landing_branchStep_le op l _) h.depth
    · exact h.known l' n hn

theorem Bounded.mark (h : d.Bounded) {l : Label} (hhas : d.Has l) : (d.mark l).Bounded where
  depth := by
    rw [maxDepth_mark]
    simp only [Draft.mark]
    split
    · split
      · rename_i depth hdepth
        exact h.known l depth.toNat (congrArg (Option.map UInt32.toNat) hdepth)
      · exact Nat.zero_le _
    · exact h.depth
  known l' n hn := by
    rw [maxDepth_mark]
    rw [known_mark hhas] at hn
    split at hn
    · rcases Option.or_eq_some_iff.1 hn with hn | ⟨-, hn⟩
      · exact h.known l n hn
      · rw [level] at hn
        split at hn
        · cases hn
        · exact Option.some.inj hn ▸ h.depth
    · exact h.known l' n hn

theorem Bounded.apply (h : d.Bounded) (hshift : Shift d e d') : d'.Bounded := by
  cases hshift with
  | quiet _ _ hsame => exact h.same hsame
  | pushed _ _ hsame => exact (h.same hsame).push ..
  | jumped op hhas => exact h.branch op hhas
  | bound _ _ hsame hhas => exact (h.same hsame).mark hhas
  | opened region kind given =>
    have hmax := toNat_maxDepth_beginHandler d region kind
    refine ⟨hmax ▸ Nat.le_max_right _ _, fun l n hn => hmax ▸ Nat.le_trans ?_ (Nat.le_max_left _ _)⟩
    exact h.known l n ((known_of_push rfl rfl l).symm.trans hn)

theorem Drafted.bounded (h : Drafted history d) : d.Bounded := by
  induction h with
  | start => exact ⟨Nat.le_refl _, fun l n hn => by cases hn⟩
  | step e hd hproper ih => exact ih.apply (Event.shift hd hproper)

theorem Shift.maxDepth_le (h : Shift d e d') : d.maxDepth.toNat ≤ d'.maxDepth.toNat := by
  cases h with
  | quiet _ _ hsame => rw [hsame.maxDepth]
  | pushed _ _ hsame =>
    rw [← hsame.maxDepth]
    exact maxDepth_push_le ..
  | jumped op => exact maxDepth_branch_le op _
  | bound _ _ hsame => rw [maxDepth_mark, hsame.maxDepth]
  | opened region kind =>
    rw [toNat_maxDepth_beginHandler]
    exact Nat.le_max_left _ _

/-- A request makes the recorded depth no larger than by what it leaves on the stack. -/
theorem Shift.maxDepth_le_add (h : Shift d e d') (hbounded : d.Bounded) :
    d'.maxDepth.toNat ≤ d.maxDepth.toNat + e.effect.2.toNat := by
  have hdepth := hbounded.depth
  cases h with
  | quiet _ _ hsame =>
    rw [hsame.maxDepth]
    exact Nat.le_add_right _ _
  | pushed _ _ hsame =>
    rw [toNat_maxDepth_push, hsame.maxDepth, hsame.depth]
    have := Nat.mod_le (d.depth.toNat - e.effect.1.toNat + e.effect.2.toNat) (2 ^ 32)
    omega
  | jumped op =>
    have hle : (if op = .leave then 0 else d.depth).toNat ≤ d.depth.toNat := by
      split
      · exact Nat.zero_le _
      · exact Nat.le_refl _
    rw [branch, toNat_maxDepth_push]
    refine Nat.max_le.2 ⟨Nat.le_add_right _ _, Nat.le_trans (Nat.mod_le _ _) ?_⟩
    exact Nat.add_le_add_right (Nat.le_trans (Nat.sub_le _ _) (Nat.le_trans hle hdepth)) _
  | bound _ _ hsame =>
    rw [maxDepth_mark, hsame.maxDepth]
    exact Nat.le_add_right _ _
  | opened region kind =>
    rw [toNat_maxDepth_beginHandler]
    exact Nat.max_le.2 ⟨Nat.le_add_right _ _, Nat.le_add_left_of_le (by cases kind <;> exact Nat.le_refl _)⟩

theorem Drafted.maxDepth_le_pushed (h : Drafted history d) : d.maxDepth.toNat ≤ pushed history := by
  induction h with
  | start => exact Nat.le_refl 0
  | step e hd hproper ih =>
    exact Nat.le_trans ((Event.shift hd hproper).maxDepth_le_add hd.bounded)
      (Nat.add_le_add_right ih _)

/-- What is known of a label stays. -/
theorem Shift.known (h : Shift d e d') {l : Label} {n : Nat} (hn : d.known l = some n) :
    d'.known l = some n := by
  cases h with
  | quiet _ _ hsame => exact (hsame.known l).trans hn
  | pushed _ _ hsame => rw [known_push, hsame.known, hn]
  | jumped op hhas =>
    rw [known_branch op hhas]
    split
    · subst l
      rw [hn, Option.some_or]
    · exact hn
  | bound _ _ hsame hhas =>
    rw [known_mark hhas]
    split
    · subst l
      rw [hsame.known, hn, Option.some_or]
    · rw [hsame.known, hn]
  | opened => exact (known_of_push rfl rfl l).trans hn

/-- A request for no instruction leaves the level that there is. -/
theorem Shift.level (h : Shift d e d') (hi : e.instruction? = none) (hlevels : e.Levels history d)
    {n : Nat} (hn : d.level = some n) : d'.level = some n := by
  cases h with
  | quiet _ _ hsame => rw [hsame.level, hn]
  | pushed hs => cases hi.symm.trans hs
  | jumped => cases hi
  | bound _ _ hsame => rw [level_mark, hsame.level, hn, Option.some_or]
  | opened => cases hn.symm.trans hlevels

/-! ## What the levels say of an instruction -/

/-- Behind a request for no instruction the level is the new one. -/
theorem levelAt_of_none (hd : Drafted history d) (hproper : e.Proper history d)
    (hi : e.instruction? = none) :
    levelAt (e :: history) (emitted history).length = (e.apply d).level := by
  have hlength : (emitted (e :: history)).length = (emitted history).length := by
    rw [emitted, hi, Option.toList_none, List.append_nil]
  rw [← hlength, levelAt_length, ← (hd.step e hproper).eq_draftOf]

/-- The level that there is stays. -/
theorem levelAt_step (hd : Drafted history d) (hproper : e.Proper history d)
    (hlevels : e.Levels history d) {k n : Nat} (hn : levelAt history k = some n) :
    levelAt (e :: history) k = some n := by
  rcases hi : e.instruction? with _ | i
  · rcases Nat.lt_or_eq_of_le (le_of_levelAt hn) with hlt | rfl
    · rw [levelAt_cons hlt, hn]
    · rw [levelAt_length, ← hd.eq_draftOf] at hn
      rw [levelAt_of_none hd hproper hi]
      exact (Event.shift hd hproper).level hi hlevels hn
  · rw [levelAt_of_instruction hi (le_of_levelAt hn), hn]

/-- A label that is bound was free before. -/
theorem free_of_binds (hd : Drafted history d) (hproper : e.Proper history d)
    (hlevels : e.Levels history d) {l : Label} (hbinds : e.binds l = true) :
    boundTo l history = none := by
  cases e with
  | mark l' =>
    obtain rfl : l' = l := by simpa [Event.binds] using hbinds
    exact hlevels.1
  | here l' =>
    obtain rfl : l' = l := by simpa [Event.binds] using hbinds
    refine Option.eq_none_iff_forall_ne_some.2 fun t ht => ?_
    have hhas : l'.index < d.labels.size := hd.has (hd.given_of_boundTo ht)
    rw [show l' = d.here.2 from hproper] at hhas
    exact Nat.lt_irrefl _ hhas
  | _ => cases hbinds

/-- Where a label is bound the level is what is known of the label. -/
theorem level_of_binds (hproper : e.Proper history d)
    (hlevels : e.Levels history d) {l : Label} (hbinds : e.binds l = true) {n : Nat}
    (hn : d.known l = some n) : (e.apply d).level = some n := by
  cases e with
  | mark l' =>
    obtain rfl : l' = l := by simpa [Event.binds] using hbinds
    rw [Event.apply, level_mark, hn]
    cases hm : d.level with
    | none => rfl
    | some m => rw [hlevels.2 m hm n hn, Option.some_or]
  | here l' =>
    obtain rfl : l' = l := by simpa [Event.binds] using hbinds
    -- nothing is known of a label before it is given out
    have hhas : l'.index < d.labels.size := by
      by_contra hfresh
      rw [known, Array.getElem?_eq_none (Nat.le_of_not_lt hfresh)] at hn
      cases hn
    rw [show l' = d.here.2 from hproper] at hhas
    exact absurd hhas (Nat.lt_irrefl _)
  | _ => cases hbinds

/-- Instruction `k`, which finds `n` values on the stack, agrees with the levels behind it. -/
structure Kept (history : List Event) (d : Draft) (k : Nat) (s : Step) (n : Nat) : Prop where
  after_le : s.after n ≤ d.maxDepth.toNat
  falls : s.instruction.opcode.fallsThrough = true → levelAt history (k + 1) = some (s.after n)
  lands : ∀ l t, s.instruction.operand = .label l → boundTo l history = some t →
    levelAt history t = some (s.landing n)
  awaits : ∀ l, s.instruction.operand = .label l → boundTo l history = none →
    d.known l = some (s.landing n)

theorem Kept.step {k n : Nat} {s : Step} (h : Kept history d k s n) (hd : Drafted history d)
    (hproper : e.Proper history d) (hlevels : e.Levels history d) :
    Kept (e :: history) (e.apply d) k s n where
  after_le := Nat.le_trans h.after_le (Event.shift hd hproper).maxDepth_le
  falls hfalls := levelAt_step hd hproper hlevels (h.falls hfalls)
  lands l t hl ht := by
    rw [boundTo] at ht
    split at ht
    · rename_i hbinds
      obtain rfl := Option.some.inj ht
      have hknown := h.awaits l hl (free_of_binds hd hproper hlevels hbinds)
      have hi : e.instruction? = none := by cases e <;> first | rfl | cases hbinds
      rw [levelAt_of_none hd hproper hi]
      exact level_of_binds hproper hlevels hbinds hknown
    · exact levelAt_step hd hproper hlevels (h.lands l t hl ht)
  awaits l hl hfree := by
    rw [boundTo] at hfree
    split at hfree
    · cases hfree
    · exact (Event.shift hd hproper).known (h.awaits l hl hfree)

/-- What is known of the label of a branch that control comes to. -/
theorem known_of_levels {op : Opcode} {l : Label} {n : Nat} (hhas : d.Has l) (hn : d.level = some n)
    (hknown : ∀ m, d.known l = some m → m = (branchStep op l).landing n) :
    (d.branch op l).known l = some ((branchStep op l).landing n) := by
  rw [known_branch op hhas, if_pos rfl, toNat_depth_of_level hn]
  cases hm : d.known l with
  | none => rfl
  | some m => rw [hknown m hm, Option.some_or]

/-- An instruction agrees with the levels when it is asked for. -/
theorem kept_of_step {s : Step} {n : Nat} (hd : Drafted history d) (hproper : e.Proper history d)
    (hlevels : e.Levels history d) (hroom : pushed (e :: history) < 2 ^ 32) (hs : e.step? = some s)
    (hn : d.level = some n) : Kept (e :: history) (e.apply d) (emitted history).length s n := by
  obtain ⟨i, hi, rfl⟩ := Option.map_eq_some_iff.1 hs
  have hlength : (emitted history).length + 1 = (emitted (e :: history)).length := by
    rw [emitted, hi, List.length_append]
    rfl
  have hlevel := levelAt_length (e :: history)
  rw [← hlength, ← (hd.step e hproper).eq_draftOf] at hlevel
  have hle : n ≤ d.maxDepth.toNat := toNat_depth_of_level hn ▸ hd.bounded.depth
  have hshift := Event.shift hd hproper
  generalize e.apply d = d' at hlevel hshift ⊢
  cases hshift with
  | quiet hnone => cases hnone.symm.trans hi
  | bound hnone => cases hnone.symm.trans hi
  | opened => cases hi
  | pushed hi' hlabel hsame =>
    obtain rfl := Option.some.inj (hi.symm.trans hi')
    have hfits : (n - e.effect.1.toNat + e.effect.2.toNat) % 2 ^ 32 =
        n - e.effect.1.toNat + e.effect.2.toNat := by
      rw [pushed] at hroom
      have hpushed := hd.maxDepth_le_pushed
      exact Nat.mod_eq_of_lt (by omega)
    refine ⟨?_, fun hfalls => ?_, fun l _ hl => absurd hl (hlabel l),
      fun l hl => absurd hl (hlabel l)⟩
    · rw [toNat_maxDepth_push, hsame.depth, toNat_depth_of_level hn, hfits]
      exact Nat.le_max_right _ _
    · rw [hlevel, level_push, if_pos hfalls, hsame.level, hn, Option.map_some, hfits]
      rfl
  | @jumped op l hhas =>
    cases hi
    refine ⟨?_, fun hfalls => ?_, fun l' t hl ht => ?_, fun l' hl hfree => ?_⟩
    · exact Nat.le_trans (Nat.le_trans (Nat.sub_le _ _) hle) (maxDepth_branch_le op l)
    · rw [hlevel, level_branch, if_pos hfalls, hn]
      rfl
    · cases hl
      exact levelAt_step hd hproper hlevels ((hlevels n hn).1 t ht)
    · cases hl
      exact known_of_levels hhas hn ((hlevels n hn).2 hfree)

/-! ## What the levels say of a history -/

/-- The levels of a history agree with its instructions and handlers. -/
structure Tracked (history : List Event) (d : Draft) : Prop where
  start : levelAt history 0 = some 0
  kept : ∀ k s n, (steps history)[k]? = some s → levelAt history k = some n → Kept history d k s n
  handler : ∀ region kind given, .beginHandler region kind given ∈ history →
    levelAt history given.start = some kind.entryDepth

theorem Tracked.step (h : Tracked history d) (hd : Drafted history d) (hproper : e.Proper history d)
    (hlevels : e.Levels history d) (hroom : pushed (e :: history) < 2 ^ 32) :
    Tracked (e :: history) (e.apply d) where
  start := levelAt_step hd hproper hlevels h.start
  kept k s n hs hn := by
    rcases step_of_cons hs with ⟨hk, hold⟩ | ⟨rfl, hnew⟩
    · rw [levelAt_cons hk] at hn
      exact (h.kept k s n hold hn).step hd hproper hlevels
    · obtain ⟨i, hi, -⟩ := Option.map_eq_some_iff.1 hnew
      rw [levelAt_of_instruction hi (Nat.le_refl _), levelAt_length, ← hd.eq_draftOf] at hn
      exact kept_of_step hd hproper hlevels hroom hnew hn
  handler region kind given hmem := by
    rcases List.mem_cons.1 hmem with rfl | hmem
    · have hlevel := levelAt_of_none hd hproper rfl
      have hstart : given.start = (emitted history).length := by
        rw [show given = (d.beginHandler region kind).2 from hproper.2, ← hd.records.code,
          Array.length_toList]
        rfl
      rw [hstart, hlevel]
      cases kind <;> rfl
    · exact levelAt_step hd hproper hlevels (h.handler region kind given hmem)

theorem Drafted.tracked (h : Drafted history d) (hlevelled : Levelled history)
    (hroom : pushed history < 2 ^ 32) : Tracked history d := by
  induction h with
  | start => exact ⟨rfl, fun k s n hs => (by cases hs), fun _ _ _ hmem => (by cases hmem)⟩
  | step e hd hproper ih =>
    rw [Levelled, ← hd.eq_draftOf] at hlevelled
    exact (ih hlevelled.2 (Nat.lt_of_le_of_lt (Nat.le_add_right _ _) hroom)).step hd hproper hlevelled.1
      hroom

/-- Where control can come with `n` values on the stack, the level is `n`. -/
theorem levelAt_of_deep (h : Drafted history d) (hlevelled : Levelled history)
    (hroom : pushed history < 2 ^ 32) {k n : Nat} (hdeep : Deep history k n) :
    levelAt history k = some n := by
  have htracked := h.tracked hlevelled hroom
  induction hdeep with
  | start => exact htracked.start
  | falls _ hs hfalls ih => exact (htracked.kept _ _ _ hs ih).falls hfalls
  | jumps _ hs hl ht ih => exact (htracked.kept _ _ _ hs ih).lands _ _ hl ht
  | handled _ hc =>
    obtain ⟨late, early, handler, rfl, rfl⟩ := exists_of_mem_clausesOf hc
    obtain ⟨d', hearly⟩ := h.early
    cases hearly with
    | step e hearly hproper =>
      obtain ⟨region, kind, hmem⟩ := hproper
      obtain ⟨between, before, rfl⟩ := List.append_of_mem hmem
      obtain rfl := hearly.handler_eq
      exact htracked.handler region kind _
        (List.mem_append_right _ (List.mem_cons_of_mem _ (List.mem_append_right _ List.mem_cons_self)))

/-- **The stack is never deeper than the draft records**, on any path to any instruction, unless so much
is put on it altogether that the draft cannot count it. -/
theorem after_le_maxDepth (h : Drafted history d) (hlevelled : Levelled history)
    (hroom : pushed history < 2 ^ 32) {k n : Nat} {s : Step} (hdeep : Deep history k n)
    (hs : (steps history)[k]? = some s) : s.after n ≤ d.maxDepth.toNat :=
  ((h.tracked hlevelled hroom).kept k s n hs (levelAt_of_deep h hlevelled hroom hdeep)).after_le

/-- The depth that the body records suffices, if there is room in it for what the draft records. -/
theorem after_le_maxStack (h : Drafted history d) (hlevelled : Levelled history)
    (hroom : pushed history < 2 ^ 32) (hmax : d.maxDepth.toNat < 0x10000) {body : FinishedBody}
    (hbody : d.finish = .ok body) {k n : Nat} {s : Step} (hdeep : Deep history k n)
    (hs : (steps history)[k]? = some s) : s.after n ≤ body.maxStack.toNat := by
  refine Nat.le_trans (after_le_maxDepth h hlevelled hroom hdeep hs) ?_
  rw [eq_bodyWith_of_finish hbody, bodyWith, maxStack]
  split
  · rename_i hsmall
    have hle := UInt32.le_iff_toNat_le.1 hsmall.2.1
    rwa [UInt16.toNat_toUInt32] at hle
  · rw [UInt32.toNat_toUInt16]
    exact Nat.le_of_eq (Nat.mod_eq_of_lt hmax).symm

end

/-- Two values, and above them a test that returns or goes to `⟨1⟩`, where two more are loaded. If `dead`,
the first branch to `⟨1⟩` stands in front of the test, where control never comes. -/
def joining (dead : Bool) : List Event :=
  let skipped : List Event := if dead then [.branch .brtrue ⟨1⟩, .loadArg 0] else []
  .loadInt 1 :: .loadInt 1 :: .mark ⟨1⟩ :: .emit .ret :: .branch .brtrue ⟨1⟩ :: .loadArg 1 :: .mark ⟨0⟩ ::
    (skipped ++ [.branch .br ⟨0⟩, .loadInt 1, .loadInt 1, .newLabel ⟨1⟩, .newLabel ⟨0⟩])

example : Levelled (joining false) ∧ (draftOf (joining false)).maxDepth = 4 := by decide +kernel

example : ¬ Levelled (joining true) ∧ (draftOf (joining true)).maxDepth = 3 := by decide +kernel

end Draft

end CilScope
