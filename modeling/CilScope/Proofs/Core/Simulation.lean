import CilScope.Proofs.Core.Semantics
import CilScope.Proofs.Draft.Layout
import CilScope.Proofs.Lowering.Frame

/-!
# Relating the core to its code

What the parts of the simulation have in common. `F` is the finished draft of a method, in which all
code of the method stands and all its labels are bound; `Final` says that lowering is at a point from
which it goes on to `F` without an error. `Holds` relates a store to the memory of the machine, and
`Follows` says that the machine does what an evaluation comes to.
-/

namespace CilScope

theorem getElem?_of_prefix {α : Type} {xs ys : List α} (h : xs <+: ys) {k : Nat} {x : α}
    (hx : xs[k]? = some x) : ys[k]? = some x := by
  obtain ⟨zs, rfl⟩ := h
  rw [List.getElem?_append_left (List.getElem?_eq_some_iff.1 hx).1, hx]

namespace Draft

/-- What stands in `d` stands in `F`, and no limit was exceeded. -/
structure Within (d F : Draft) : Prop where
  code : d.code.toList <+: F.code.toList
  target : ∀ l k, d.target? l = some k → F.target? l = some k
  locals : d.locals.toList <+: F.locals.toList
  fault : d.fault = none

theorem Grows.within {d d' F : Draft} (h : Grows d.labels.size d d') (hF : d'.Within F) :
    d.Within F where
  code := h.code.trans hF.code
  target := fun l k hl => by
    have hhas := has_of_target? d hl
    exact hF.target l k ((h.target l hhas hhas).trans hl)
  locals := h.locals.trans hF.locals
  fault := h.fault hF.fault

end Draft

namespace Core

open Machine (Memory Status Effect Reach)
open Lowering (Context State Gen Freedom Walk Frame Still Typing Sees typing_any sees_any)

/-! ## Points of the lowering -/

/-- Lowering is in the method of `x`, outside of protected regions. -/
structure Here (x : Site) (c : Context) : Prop where
  program : c.program = x.program
  owner : c.owner = x.owner
  method : c.method = x.method
  inferLocals : c.options.inferLocals = x.inferLocals
  arity : x.method.arity < 0x10000
  ret : x.method.ret = .void ∨ ∃ t : Ty, x.method.ret = t.static
  tryDepth : c.tryDepth = 0

/-- The local that a name means, by its view. -/
def findView (language : Language) (view : List (List (String × UInt16 × StaticType)))
    (name : String) : Option (String × UInt16 × StaticType) :=
  view.findSome? (·.find? (language.sameName ·.1 name))

/-- The scopes of the lowering hold the variables of `σ`. -/
def Scoped (x : Site) (σ : Scope) (s : State) : Prop :=
  ∀ name, (findView x.language s.view name).map (fun v => (v.2.1.toNat, v.2.2)) =
    (σ.vars.find? (x.program.sameName ·.name name)).map fun v => (v.cell, v.type.static)

theorem Scoped.of_view {x : Site} {σ : Scope} {s s' : State} (h : Scoped x σ s)
    (hview : s'.view = s.view) : Scoped x σ s' := by
  unfold Scoped
  rw [hview]
  exact h

/-- The signature of a local of the core. -/
def Ty.sig : Ty → TypeSig
  | .int => .int32
  | .bool => .bool

theorem Ty.sig_inj {a b : Ty} (h : a.sig = b.sig) : a = b := by
  cases a <;> cases b <;> first | rfl | cases h

theorem Ty.static_inj {a b : Ty} (h : a.static = b.static) : a = b := by
  cases a <;> cases b <;> first | rfl | cases h

theorem Ty.ofStatic?_eq_some {s : StaticType} {t : Ty} (h : Ty.ofStatic? s = some t) :
    s = t.static := by
  cases s <;> cases h <;> rfl

/-- The cells of `F` have the types that the variables of `σ` have. -/
def Celled (F : Draft) (σ : Scope) : Prop :=
  ∀ v ∈ σ.vars, ∃ l, F.locals[v.cell]? = some l ∧ l.sig = v.type.sig

/-- Code can be emitted for a piece of the core here. -/
structure Ready (x : Site) (F : Draft) (σ : Scope) (c : Context) (s : State) : Prop where
  here : Here x c
  loud : c.muted = false
  names : Scoped x σ s
  celled : Celled F σ

theorem Ready.still {x : Site} {F : Draft} {σ : Scope} {c : Context} {s s' : State}
    (h : Ready x F σ c s) (hs : Still s s') : Ready x F σ c s' :=
  { h with names := h.names.of_view hs.view }

/-- The next instruction can be reached. -/
def Live (s : State) : Prop := s.draft.unreachable = false

/-- Lowering goes on from the state to `F`, without an error so far. -/
structure Final (F : Draft) (s : State) : Prop where
  clean : s.log.hasErrors = false
  within : s.draft.Within F

/-- A label of the draft that is not bound yet. -/
structure Open (l : Label) (s : State) : Prop where
  has : s.draft.Has l
  unbound : s.draft.target? l = none

section

variable {F : Draft} {T : StaticType → Prop} {b : Freedom} {s s' : State} {l : Label}

theorem Final.back (h : Final F s') (hframe : Frame T s.draft.labels.size b s s') : Final F s where
  clean := by
    cases hs : s.log.hasErrors with
    | false => rfl
    | true => rw [← hframe.log hs, h.clean]
  within := hframe.draft.within h.within

theorem Open.frame (h : Open l s) (hframe : Frame T s.draft.labels.size b s s') : Open l s' where
  has := Nat.lt_of_lt_of_le h.has hframe.draft.labels
  unbound := (hframe.draft.target l h.has h.has).trans h.unbound

end

/-! ### Steps of a walk -/

section

variable {α : Type} {b : Freedom} {g : Gen α} {Q : α → Prop}

theorem frame_walk {c : Context} (h : Walk c.program (fun _ => True) (fun _ => True) b g Q)
    (s : State) : Frame (fun _ => True) s.draft.labels.size b s (g c s).2 :=
  (h.framed (typing_any _) _ c s (sees_any c s) (Nat.le_refl _)).1

theorem final_before {F : Draft} {s : State} (c : Context)
    (hg : Walk c.program (fun _ => True) (fun _ => True) .declares g Q) (h : Final F (g c s).2) :
    Final F s :=
  h.back (frame_walk hg s)

theorem still_walk {c : Context} (h : Walk c.program (fun _ => True) (fun _ => True) .assigns g Q)
    (s : State) : Still s (g c s).2 :=
  (h.quiet (typing_any _) nofun c s (sees_any c s)).1

theorem Ready.walk {x : Site} {F : Draft} {σ : Scope} {c : Context} {s : State}
    (h : Ready x F σ c s) (hg : Walk c.program (fun _ => True) (fun _ => True) .assigns g Q) :
    Ready x F σ c (g c s).2 :=
  h.still (still_walk hg s)

end

/-! ### Labels -/

section

variable {F : Draft} {c : Context} {s : State} {l l' : Label}

/-- From `s` to `s'` the label `l` is made, and nothing else is. -/
structure Made (l : Label) (s s' : State) : Prop where
  opened : Open l s'
  frame : Frame (fun _ => True) s.draft.labels.size .assigns s s'
  still : Still s s'
  code : s'.draft.code = s.draft.code
  live : Live s → Live s'
  fresh : ∀ l' : Label, s.draft.Has l' → l.index ≠ l'.index

theorem made_newLabel (c : Context) (s : State) :
    ∃ l s', Lowering.newLabel c s = (l, s') ∧ Made l s s' := by
  refine ⟨_, _, rfl, ⟨Draft.has_newLabel s.draft, ?_⟩, .of_eq (Draft.grows_newLabel _ _) id rfl rfl,
    ⟨rfl, rfl, rfl⟩, rfl, id, fun l' hl' => Nat.ne_of_gt hl'⟩
  show (Option.bind (s.draft.labels.push {})[s.draft.labels.size]? _) = none
  rw [Array.getElem?_push_size]
  rfl

/-- Binding a label that is open takes nothing back. -/
theorem Final.back_mark (h : Final F (Lowering.mark l c s).2) (hl : Open l s) : Final F s where
  clean := h.clean
  within := {
    code := by rw [← Draft.code_mark s.draft (l := l)]; exact h.within.code
    target := fun l' k hk => by
      refine h.within.target l' k ?_
      by_cases heq : l'.index = l.index
      · have hunbound := hl.unbound
        rw [Draft.target?, ← heq] at hunbound
        rw [Draft.target?, hunbound] at hk
        cases hk
      · exact (Draft.target?_mark_of_ne s.draft heq).trans hk
    locals := by rw [← Draft.locals_mark s.draft (l := l)]; exact h.within.locals
    fault := by rw [← Draft.fault_mark s.draft (l := l)]; exact h.within.fault }

/-- Where a label is bound for good. -/
theorem target_of_mark (h : Final F (Lowering.mark l c s).2) (hl : Open l s) :
    F.target? l = some s.draft.code.size :=
  h.within.target l _ (Draft.target?_mark s.draft hl.has)

theorem Open.mark (h : Open l' s) (hne : l'.index ≠ l.index) : Open l' (Lowering.mark l c s).2 where
  has := Nat.lt_of_lt_of_eq h.has (Draft.size_labels_mark s.draft).symm
  unbound := (Draft.target?_mark_of_ne s.draft hne).trans h.unbound

theorem live_mark : Live (Lowering.mark l c s).2 ↔ Live s ∨ s.draft.Targeted l :=
  Draft.unreachable_mark s.draft

end

/-! ## Memory -/

/-- How many arguments stand before the parameters: one for the current object. -/
def Site.base (x : Site) : Nat := if x.method.isStatic then 0 else 1

/-- The memory holds what the store holds. -/
structure Holds (x : Site) (F : Draft) (st : Store) (m : Memory) : Prop where
  length : m.locals.length = F.locals.size
  locals : ∀ k, k < F.locals.size → m.locals[k]? = some ((st.locals k).elim 0 Value.word)
  cells : ∀ k v, st.locals k = some v → ∃ l, F.locals[k]? = some l ∧ l.sig = v.type.sig
  args : ∃ this, this.length = x.base ∧ m.args = this ++ st.args.map Value.word
  params : st.args.map (·.type.static) = x.method.params

theorem Holds.stack {x : Site} {F : Draft} {st : Store} {m : Memory} (h : Holds x F st m)
    (stack : List Int32) : Holds x F st { m with stack } :=
  ⟨h.length, h.locals, h.cells, h.args, h.params⟩

/-- What a name refers to is there, and has the type that the name has. -/
def Known (x : Site) (F : Draft) : Ref → Prop
  | .cell k t => ∃ l, F.locals[k]? = some l ∧ l.sig = t.sig
  | .param i t => x.method.params[i]? = some t.static

theorem known_lookup {x : Site} {F : Draft} {σ : Scope} {n : String} {r : Ref} (hσ : Celled F σ)
    (h : x.lookup? σ n = some r) : Known x F r := by
  unfold Site.lookup? at h
  split at h
  · rename_i v hv
    cases h
    exact hσ v (List.mem_of_find?_eq_some hv)
  · simp only [Site.param?, Option.bind_eq_bind, Option.bind_eq_some_iff, Option.map_eq_some_iff] at h
    obtain ⟨i, -, type, htype, t, ht, rfl⟩ := h
    rw [Known, htype, Ty.ofStatic?_eq_some ht]

namespace Holds

variable {x : Site} {F : Draft} {st : Store} {m : Memory} {v : Value} {k i : Nat} {t : Ty}

theorem read_cell (h : Holds x F st m) (hk : Known x F (.cell k t)) :
    ∃ v, st.read (.cell k t) = .ok v ∧ v.type = t ∧ m.locals[k]? = some v.word := by
  obtain ⟨l, hl, hsig⟩ := hk
  refine ⟨_, rfl, ?_, ?_⟩
  · cases hv : st.locals k with
    | none => cases t <;> rfl
    | some v =>
      obtain ⟨l', hl', hsig'⟩ := h.cells k v hv
      rw [hl] at hl'
      cases hl'
      exact Ty.sig_inj (hsig'.symm.trans hsig)
  · rw [h.locals k (Array.getElem?_eq_some_iff.1 hl).1]
    cases st.locals k with
    | none => cases t <;> rfl
    | some v => rfl

theorem read_param (h : Holds x F st m) (hi : Known x F (.param i t)) :
    ∃ v, st.read (.param i t) = .ok v ∧ v.type = t ∧ m.args[i + x.base]? = some v.word := by
  have hparam : (st.args.map (·.type.static))[i]? = some t.static := by rw [h.params, hi]
  rw [List.getElem?_map] at hparam
  obtain ⟨v, hv, htype⟩ := Option.map_eq_some_iff.1 hparam
  obtain ⟨this, hthis, hargs⟩ := h.args
  refine ⟨v, by simp only [Store.read, hv], Ty.static_inj htype, ?_⟩
  rw [hargs, List.getElem?_append_right (by omega), hthis, Nat.add_sub_cancel, List.getElem?_map, hv]
  rfl

theorem write_cell (h : Holds x F st m) (hk : Known x F (.cell k t)) (hv : v.type = t) :
    k < m.locals.length ∧ ∃ st', st.write (.cell k t) v = .ok st' ∧
      Holds x F st' { m with locals := m.locals.set k v.word } := by
  obtain ⟨l, hl, hsig⟩ := hk
  have hlt := (Array.getElem?_eq_some_iff.1 hl).1
  refine ⟨by rw [h.length]; exact hlt, _, if_pos hv, ?_⟩
  refine ⟨by rw [← h.length, List.length_set], fun j hj => ?_, fun j w hw => ?_, h.args, h.params⟩
  · by_cases hjk : j = k
    · subst hjk
      rw [List.getElem?_set_self (by rw [h.length]; exact hj)]
      simp
    · rw [List.getElem?_set_ne (Ne.symm hjk), h.locals j hj]
      simp only [if_neg hjk]
  · by_cases hjk : j = k
    · subst hjk
      simp only [if_true, Option.some.injEq] at hw
      subst hw
      exact ⟨l, hl, hv ▸ hsig⟩
    · simp only [if_neg hjk] at hw
      exact h.cells j w hw

theorem write_param (h : Holds x F st m) (hi : Known x F (.param i t)) (hv : v.type = t) :
    i + x.base < m.args.length ∧ ∃ st', st.write (.param i t) v = .ok st' ∧
      Holds x F st' { m with args := m.args.set (i + x.base) v.word } := by
  obtain ⟨this, hthis, hargs⟩ := h.args
  have hlt : i < st.args.length := by
    have := (List.getElem?_eq_some_iff.1 hi).1
    rwa [← h.params, List.length_map] at this
  refine ⟨by rw [hargs, List.length_append, List.length_map]; omega, _, if_pos hv, ?_⟩
  refine ⟨h.length, h.locals, h.cells, ⟨this, hthis, ?_⟩, ?_⟩
  · rw [hargs, List.set_append_right _ _ (by omega), hthis, Nat.add_sub_cancel, List.map_set]
  · -- the type of the parameter is that of the new value
    rw [List.map_set, h.params]
    refine List.ext_getElem? fun j => ?_
    by_cases hj : j = i
    · subst hj
      rw [List.getElem?_set_self (by rw [← h.params, List.length_map]; exact hlt), hv, hi]
    · rw [List.getElem?_set_ne (Ne.symm hj)]

end Holds

/-! ## What the machine does -/

/-- The machine stands at the end of the code of `s`. -/
def here (s : State) (m : Memory) : Status Nat := .running s.draft.code.size m

theorem here_mark (l : Label) (c : Context) (s : State) (m : Memory) :
    here (Lowering.mark l c s).2 m = here s m := by
  show Machine.Status.running (s.draft.mark l).code.size m = _
  rw [Draft.code_mark]
  rfl

theorem Made.here {l : Label} {s s' : State} (h : Made l s s') (m : Memory) : here s m = here s' m := by
  rw [Core.here, Core.here, h.code]

/-- From status `a` the machine does what an evaluation comes to: what `P` says of its result, a
fault, or at least `n` steps if some loop is out of rounds. -/
def Follows (F : Draft) (n : Nat) (a : Status Nat) {α : Type} (r : Except Halt α) (P : α → Prop) :
    Prop :=
  match r with
  | .ok v => P v
  | .error .fault => Reach F.fetch 0 a .faulted
  | .error .exhausted => ∃ pc m, Reach F.fetch n a (.running pc m)
  | .error .meaningless => False

namespace Follows

variable {F : Draft} {n : Nat} {a b : Status Nat} {α β : Type} {r : Except Halt α}
  {P : α → Prop} {Q : β → Prop}

theorem bind {k : α → Except Halt β} (h : Follows F n a r P)
    (hk : ∀ v, P v → Follows F n a (k v) Q) : Follows F n a (r >>= k) Q := by
  cases r with
  | ok v => exact hk v h
  | error e => cases e <;> exact h

theorem imp {Q : α → Prop} (h : Follows F n a r P) (hPQ : ∀ v, P v → Q v) :
    Follows F n a r Q := by
  cases r with
  | ok v => exact hPQ v h
  | error e => cases e <;> exact h

theorem weaken {j : Nat} (h : Follows F n a r P) (hj : j ≤ n) : Follows F j a r P := by
  cases r with
  | ok v => exact h
  | error e =>
    cases e with
    | fault | meaningless => exact h
    | exhausted =>
      obtain ⟨pc, m, hm⟩ := h
      exact ⟨pc, m, hm.weaken hj⟩

/-- What follows from a status that is reached follows from where it is reached. -/
theorem after {j : Nat} {Q : α → Prop} (hab : Reach F.fetch j a b) (h : Follows F n b r P)
    (hPQ : ∀ v, P v → Q v) : Follows F (j + n) a r Q := by
  cases r with
  | ok v => exact hPQ v h
  | error e =>
    cases e with
    | fault => exact (hab.trans h).weaken (Nat.zero_le _)
    | meaningless => exact h
    | exhausted =>
      obtain ⟨pc, m, hm⟩ := h
      exact ⟨pc, m, hab.trans hm⟩

end Follows

/-! ## One instruction -/

section

variable {F : Draft} {d d' : Draft} {i : DraftInstruction} {a : Machine.Action} {m m' : Memory}

theorem fetch_of_appends (hi : Draft.Appends i d d') (hF : d'.Within F) (ha : i.action? = some a) :
    ∃ target, F.fetch d.code.size = some ⟨a, d'.code.size, target⟩ := by
  have hcode : F.code[d.code.size]? = some i := by
    rw [← Array.getElem?_toList]
    refine getElem?_of_prefix hF.code ?_
    rw [hi.code, Array.getElem?_toList, Array.getElem?_push_size]
  rw [hi.size]
  exact ⟨_, by simp only [Draft.fetch, hcode, Option.bind_eq_bind, Option.bind_some, ha]; rfl⟩

/-- An appended instruction that goes on to the next. -/
theorem reach_next (hi : Draft.Appends i d d') (hF : d'.Within F) (ha : i.action? = some a)
    (hm : a.perform m = .next m') :
    Reach F.fetch 1 (.running d.code.size m) (.running d'.code.size m') := by
  obtain ⟨target, hfetch⟩ := fetch_of_appends hi hF ha
  refine .one ?_
  simp only [Machine.step, hfetch, hm, Machine.Fetched.follow]

theorem reach_fault (hi : Draft.Appends i d d') (hF : d'.Within F) (ha : i.action? = some a)
    (hm : a.perform m = .fault) : Reach F.fetch 0 (.running d.code.size m) .faulted := by
  obtain ⟨target, hfetch⟩ := fetch_of_appends hi hF ha
  refine (Reach.one ?_).weaken (Nat.zero_le _)
  simp only [Machine.step, hfetch, hm, Machine.Fetched.follow]

theorem reach_return {stack : List Int32} (hi : Draft.Appends i d d') (hF : d'.Within F)
    (ha : i.action? = some a) (hm : a.perform m = .return_ stack) :
    Reach F.fetch 1 (.running d.code.size m) (.returned stack) := by
  obtain ⟨target, hfetch⟩ := fetch_of_appends hi hF ha
  refine .one ?_
  simp only [Machine.step, hfetch, hm, Machine.Fetched.follow]

variable {op : Opcode} {l : Label}

theorem fetch_of_branch (hF : (d.branch op l).Within F) (ha : Machine.action? op .none = some a) :
    F.fetch d.code.size = some ⟨a, (d.branch op l).code.size, F.target? l⟩ := by
  have hcode : F.code[d.code.size]? = some ⟨op, .label l⟩ := by
    rw [← Array.getElem?_toList]
    refine getElem?_of_prefix hF.code ?_
    rw [Draft.code_branch, Array.getElem?_toList, Array.getElem?_push_size]
  rw [Draft.code_branch, Array.size_push]
  simp only [Draft.fetch, hcode, Option.bind_eq_bind, Option.bind_some, DraftInstruction.action?,
    DraftOperand.immediate, ha]
  rfl

variable {c : Context} {s : State}

/-- A branch that is taken. -/
theorem reach_jump {k : Nat} (hF : Final F (Lowering.branch op l c s).2)
    (ha : Machine.action? op .none = some a) (hm : a.perform m = .jump m')
    (hk : F.target? l = some k) : Reach F.fetch 1 (here s m) (.running k m') := by
  refine .one ?_
  simp only [here, Machine.step, fetch_of_branch hF.within ha, hm, Machine.Fetched.follow, hk]

/-- A branch that is not taken. -/
theorem reach_past (hF : Final F (Lowering.branch op l c s).2)
    (ha : Machine.action? op .none = some a) (hm : a.perform m = .next m') :
    Reach F.fetch 1 (here s m) (here (Lowering.branch op l c s).2 m') := by
  refine .one ?_
  simp only [here, Machine.step, fetch_of_branch hF.within ha, hm, Machine.Fetched.follow]
  rfl

end

/-! ## Steps of lowering and of the machine -/

/-- An action that goes on to the next instruction, if it succeeds. -/
def GoesOn : Machine.Action → Prop
  | .jump | .ret => False
  | _ => True

theorem fallsThrough_of_action? {op : Opcode} {imm : Machine.Immediate} {a : Machine.Action}
    (h : Machine.action? op imm = some a) (ha : GoesOn a) : op.fallsThrough = true := by
  cases op <;> first | rfl | (cases imm <;> cases h <;> exact ha.elim)

section

variable {F : Draft} {c : Context} {s : State} {f : Draft → Draft} {a : Machine.Action} {m m' : Memory}
  (happ : ∃ i, Draft.Appends i s.draft (f s.draft) ∧ i.action? = some a)
include happ

theorem reach_edit (hF : Final F (Lowering.edit f c s).2) (hm : a.perform m = .next m') :
    Reach F.fetch 1 (here s m) (here (Lowering.edit f c s).2 m') := by
  obtain ⟨i, hi, ha⟩ := happ
  exact reach_next hi hF.within ha hm

theorem live_edit (ha : GoesOn a) (hs : Live s) : Live (Lowering.edit f c s).2 := by
  obtain ⟨i, hi, hia⟩ := happ
  show (f s.draft).unreachable = false
  rw [hi.unreachable, show s.draft.unreachable = false from hs, fallsThrough_of_action? hia ha]
  rfl

end

/-- Nothing that is wrong is reported on the way. -/
theorem not_final_report {F : Draft} {c : Context} {s : State} {pos : Source.Position} {cause : Cause}
    (hc : c.muted = false) (h : ∀ language, cause.severity language = .error) :
    ¬Final F (Lowering.report pos cause c s).2 := by
  intro hF
  have hclean := hF.clean
  rw [Lowering.report_apply, hc] at hclean
  simp [Log.hasErrors, Log.report, Diagnostic.isError, Cause.diagnostic, h] at hclean

end Core

end CilScope
