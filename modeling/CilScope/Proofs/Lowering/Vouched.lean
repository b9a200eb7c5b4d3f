import CilScope.Proofs.Lowering.Overload
import CilScope.Proofs.Program.Known

/-!
# Types that are known, step by step

`Vouches c s₀ g Q` says of a step that leaves the locals in scope as they are that its result has `Q` unless
there is an error in the log behind it. A report of an error vouches for anything; so a call and an operator
have a result of a known type where their operands have one, whatever is reported in between. The types of
operands are often found by probing, without a report. What is probed is walked again in earnest, and since
its type is settled, what was not reported then is reported later.
-/

namespace CilScope.Lowering

open Source (Expr)

/-- What is known of the meaning of a name. -/
def Meaning.IsKnown : Meaning → Prop
  | .place q => q.type.IsKnown
  | .type t => t.IsKnown
  | .methods _ | .nothing => True

/-- Problems are reported, no member of the program has the type of what has been reported as wrong, and
neither has what a name in `N` means in `s`. -/
structure Clear (c : Context) (N : String → Prop) (s : State) : Prop where
  program : c.program.Known
  constructs : c.program.Constructs
  muted : c.muted = false
  names : ∀ n, N n → (c.resolve s.scopes n).IsKnown

/-- Where the locals in scope are those of `s₀`, the step leaves them there. And if there is no error in the
log behind it, there was none before and the result has `Q`. -/
def Vouches (c : Context) (s₀ : State) {α : Type} (g : Gen α) (Q : α → Prop) : Prop :=
  ∀ s, s.view = s₀.view → (g c s).2.view = s₀.view ∧
    ((g c s).2.log.hasErrors = false → s.log.hasErrors = false ∧ Q (g c s).1)

variable {c : Context} {N : String → Prop} {s₀ : State}

namespace Vouches

variable {α β : Type} {Q : α → Prop} {R : β → Prop} {g : Gen α}

theorem pure {a : α} (h : Q a) : Vouches c s₀ (Pure.pure a) Q :=
  fun _ hs => ⟨hs, fun hlog => ⟨hlog, h⟩⟩

theorem imp {Q' : α → Prop} (hg : Vouches c s₀ g Q) (h : ∀ a, Q a → Q' a) : Vouches c s₀ g Q' :=
  fun s hs => And.imp_right (fun hlog hnone => And.imp_right (h _) (hlog hnone)) (hg s hs)

theorem bind_of {P : α → Prop} {k : α → Gen β} (hg : Vouches c s₀ g Q) (hP : ∀ s, P (g c s).1)
    (hk : ∀ a, P a → Vouches c s₀ (k a) fun b => Q a → R b) : Vouches c s₀ (g >>= k) R := by
  intro s hs
  obtain ⟨hview, hlog⟩ := hg s hs
  obtain ⟨hview', hlog'⟩ := hk _ (hP s) (g c s).2 hview
  refine ⟨hview', fun hnone => ?_⟩
  obtain ⟨hmid, hR⟩ := hlog' hnone
  obtain ⟨hstart, hQ⟩ := hlog hmid
  exact ⟨hstart, hR hQ⟩

/-- What is known of the first result is a premise of what is said of the second one, and not of the step:
also where an error is reported, the rest goes on. -/
theorem bind {k : α → Gen β} (hg : Vouches c s₀ g Q)
    (hk : ∀ a, Vouches c s₀ (k a) fun b => Q a → R b) : Vouches c s₀ (g >>= k) R :=
  hg.bind_of (P := fun _ => True) (fun _ => trivial) fun a _ => hk a

/-- A step that is a walk, so that something is known of its result in any case. -/
theorem walk_bind {P : α → Prop} {k : α → Gen β} (hg : Vouches c s₀ g Q)
    (hP : Walk c.program (fun _ => True) (fun _ => False) .assigns g P)
    (hk : ∀ a, P a → Vouches c s₀ (k a) fun b => Q a → R b) : Vouches c s₀ (g >>= k) R :=
  hg.bind_of (fun s => (hP.framed (typing_any c.program) 0 c s (sees_any c s) (Nat.zero_le _)).2) hk

/-- A first step whose result does not matter for what is said of the second one. -/
theorem bind_any {k : α → Gen β} (hg : Vouches c s₀ g Q) (hk : ∀ a, Vouches c s₀ (k a) R) :
    Vouches c s₀ (g >>= k) R :=
  hg.bind fun a => (hk a).imp fun _ hR _ => hR

theorem seq {g : Gen Unit} {k : Gen β} {Q : Unit → Prop} (hg : Vouches c s₀ g Q)
    (hk : Vouches c s₀ k R) : Vouches c s₀ (g >>= fun _ => k) R :=
  hg.bind_any fun _ => hk

theorem discard (hg : Vouches c s₀ g Q) : Vouches c s₀ (discard g) fun _ => ∃ a, Q a :=
  hg.bind (k := fun _ => Pure.pure ()) fun a => pure fun ha => ⟨a, ha⟩

theorem ite {b : Prop} [Decidable b] {g' : Gen α} (hg : b → Vouches c s₀ g Q)
    (hg' : ¬b → Vouches c s₀ g' Q) : Vouches c s₀ (if b then g else g') Q := by
  split
  · exact hg ‹_›
  · exact hg' ‹_›

/-- A look at the context. -/
theorem read_bind {k : Context → Gen β} (h : Vouches c s₀ (k c) R) : Vouches c s₀ (read >>= k) R := h

theorem language_bind {k : Language → Gen β} (h : Vouches c s₀ (k c.program.language) R) :
    Vouches c s₀ (language >>= k) R := h

theorem typeName_bind {k : String → Gen β} (t : StaticType) (h : ∀ name, Vouches c s₀ (k name) R) :
    Vouches c s₀ (typeName t >>= k) R := h _

/-- A walk that declares nothing, and what is known of its result. -/
theorem of_walk {L : Exit → Prop} {Q' : α → Prop} (hg : Walk c.program (fun _ => True) L .assigns g Q')
    (h : ∀ s, s.view = s₀.view → (g c s).2.log.hasErrors = false → Q (g c s).1) :
    Vouches c s₀ g Q := by
  intro s hs
  obtain ⟨hframe, -⟩ := hg.framed (typing_any c.program) 0 c s (sees_any c s) (Nat.zero_le _)
  obtain ⟨new, hnew, -, hview⟩ := hframe.scopes
  refine ⟨?_, fun hnone => ⟨?_, h s hs hnone⟩⟩
  · rw [hview, hnew (by decide), extend_nil, hs]
  · cases hbefore : s.log.hasErrors with
    | false => rfl
    | true => exact (hframe.log hbefore).symm.trans hnone

/-- A walk that declares nothing. -/
theorem walk {L : Exit → Prop} {Q' : α → Prop} (hg : Walk c.program (fun _ => True) L .assigns g Q') :
    Vouches c s₀ g fun _ => True :=
  of_walk hg fun _ _ _ => trivial

/-- First a walk that only adds code. -/
theorem walk_seq {g : Gen Unit} {k : Gen β} {Q' : Unit → Prop}
    (hg : Walk c.program (fun _ => True) (fun _ => False) .assigns g Q') (hk : Vouches c s₀ k R) :
    Vouches c s₀ (g >>= fun _ => k) R :=
  (walk hg).seq hk

end Vouches

/-! ## What is reported -/

section

variable (hc : c.muted = false)

include hc

/-- Behind a report of an error there is an error in the log. -/
theorem vouches_report (pos : Source.Position) {cause : Cause}
    (h : ∀ language, cause.severity language = .error) :
    Vouches c s₀ (report pos cause) fun _ => False := by
  refine .of_walk (L := fun _ => False) (.report pos cause) fun s _ hnone => ?_
  rw [report_apply, hc] at hnone
  have herror : (s.log.report pos cause).hasErrors = true :=
    Program.hasErrors_report_of_error (h _) pos
  cases herror.symm.trans hnone

theorem vouches_refuse {Q : StaticType → Prop} (pos : Source.Position) {cause : Cause}
    (h : ∀ language, cause.severity language = .error) :
    Vouches c s₀ (refuse pos cause) Q :=
  (vouches_report hc pos h).bind fun _ => .pure False.elim

theorem vouches_noMember (t : StaticType) (name : String) (pos : Source.Position) :
    Vouches c s₀ (noMember t name pos) fun _ => t = .unknown := by
  unfold noMember
  split
  · exact .pure ‹_›
  · exact .typeName_bind t fun _ => (vouches_report hc pos fun _ => rfl).bind fun _ => .pure False.elim

/-- A type that is not unknown has no member only if that is reported. -/
theorem vouches_noMember_of_ne {Q : StaticType → Prop} {t : StaticType} (ht : t ≠ .unknown)
    (name : String) (pos : Source.Position) : Vouches c s₀ (noMember t name pos) Q :=
  (vouches_noMember hc t name pos).imp fun _ h => absurd h ht

end

/-! ## Probing -/

/-- The type that the expression has where the locals are those of `s₀`. -/
def answer (c : Context) (s₀ : State) (e : Expr) : StaticType := (evaluate e c s₀).1

theorem answer_eq (e : Expr) {s : State} (hs : s.view = s₀.view) :
    (evaluate e c s).1 = answer c s₀ e :=
  (settled_evaluate e).same c c.muted s₀ s rfl hs

theorem vouches_probe (e : Expr) :
    Vouches c s₀ (probe (evaluate e)) fun t => t = answer c s₀ e := by
  intro s hs
  refine ⟨((settled_evaluate e).probe.view c s rfl).trans hs, fun hnone => ?_⟩
  rw [log_probe_evaluate] at hnone
  exact ⟨hnone, (probe_evaluate e c s).trans (answer_eq e hs)⟩

/-- An expression whose type is known if no error is reported, and whose type is its answer. -/
theorem Vouches.evaluate_eq {e : Expr} (h : Vouches c s₀ (evaluate e) StaticType.IsKnown) :
    Vouches c s₀ (evaluate e) fun t => t = answer c s₀ e ∧ t.IsKnown := by
  intro s hs
  obtain ⟨hview, hlog⟩ := h s hs
  exact ⟨hview, fun hnone => ⟨(hlog hnone).1, answer_eq e hs, (hlog hnone).2⟩⟩

/-- What is walked once more in earnest. -/
theorem Vouches.discard_answer {e : Expr} (h : Vouches c s₀ (evaluate e) StaticType.IsKnown) :
    Vouches c s₀ (Functor.discard (evaluate e)) fun _ => (answer c s₀ e).IsKnown :=
  h.evaluate_eq.discard.imp fun _ ht => by
    obtain ⟨_, rfl, ht⟩ := ht
    exact ht

/-! ## Calls -/

theorem Library.known_ret {m : Library.Method} (hm : m ∈ Library.Method.all) : m.ret.IsKnown := by
  have h : ∀ m ∈ Library.Method.all, m.ret ∈ [StaticType.void, .bool, .int, .string] := by decide
  have hret := h m hm
  simp only [List.mem_cons, List.not_mem_nil, or_false] at hret
  rcases hret with h | h | h | h <;> rw [h] <;> trivial

theorem vouches_emitLibraryCall {m : Library.Method} (hm : m ∈ Library.Method.all) :
    Vouches c s₀ (emitLibraryCall m) StaticType.IsKnown := by
  refine .of_walk (L := fun _ => False) (walk_emitLibraryCall (typing_any c.program) hm) fun s _ _ => ?_
  have hret : (emitLibraryCall m c s).1 = m.ret := by
    unfold emitLibraryCall
    by_cases h : m.kind = .instance_
    · simp only [if_pos h]
      rfl
    · simp only [if_neg h]
      rfl
  exact hret ▸ Library.known_ret hm

theorem vouches_nil : ∀ e ∈ ([] : List Expr), Vouches c s₀ (evaluate e) StaticType.IsKnown :=
  fun _ he => absurd he List.not_mem_nil

section

variable (hclear : Clear c N s₀) {es : List Expr}
  (hes : ∀ e ∈ es, Vouches c s₀ (evaluate e) StaticType.IsKnown)

theorem argumentTypes_eq {s : State} (hs : s.view = s₀.view) :
    argumentTypes es c s = es.map (answer c s₀) :=
  List.map_congr_left fun e _ => (probe_evaluate e c s).trans (answer_eq e hs)

theorem walks_args : ∀ a ∈ compileAll es, a.Walks c.program fun _ => True :=
  walks_compileAll (typing_any c.program) es

include hes

/-- Where arguments are walked for their reports, their types are known if there is no report. -/
theorem vouches_args {α : Type} {r : α} : Vouches c s₀ (do
      for a in compileAll es do discard a.value
      return r) fun _ => ∀ e ∈ es, (answer c s₀ e).IsKnown := by
  have hloop : Vouches c s₀ (ForIn.forIn (compileAll es) PUnit.unit fun a _ => do
      discard a.value
      return ForInStep.yield PUnit.unit) fun _ => ∀ e ∈ es, (answer c s₀ e).IsKnown := by
    induction es with
    | nil => exact .pure (by simp)
    | cons e es ih =>
      obtain ⟨he, hes⟩ := List.forall_mem_cons.1 hes
      rw [compileAll, List.forIn_cons]
      have hstep : Vouches c s₀ (do discard (compile e).value; return ForInStep.yield PUnit.unit)
          fun r => r = ForInStep.yield PUnit.unit ∧ (answer c s₀ e).IsKnown :=
        he.discard_answer.bind fun _ => .pure fun h => ⟨rfl, h⟩
      refine hstep.bind fun r => ?_
      cases r with
      | done => exact .pure fun h => by cases h.1
      | yield => exact (ih hes).imp fun _ hrest h => List.forall_mem_cons.2 ⟨h.2, hrest⟩
  exact hloop.bind fun _ => .pure id

include hclear

/-- An overload is chosen, or a report says why not. -/
theorem vouches_choose {α : Type} (params : α → List StaticType) (candidates : List α) (name : String)
    (pos : Source.Position) :
    Vouches c s₀ (choose params candidates name (compileAll es) pos)
      fun r => ∃ x ∈ candidates, r = some x := by
  have hwalks : ∀ a ∈ compileAll es, a.Walks c.program fun _ => True := walks_args
  have hwalk := walk_choose (L := fun _ => False) (b := .assigns) params candidates name hwalks pos
  refine .of_walk hwalk fun s hs hnone => ?_
  by_cases hknown : .unknown ∈ argumentTypes es c s
  · -- the argument of an unknown type is walked in earnest
    obtain ⟨s', happly, -⟩ := probes_apply es c s
    have hprobes : Vouches c s₀ ((compileAll es).mapM fun a => probe a.value) fun _ => True :=
      .walk (L := fun _ => False) (.mapM fun a ha => .probe (walks_args a ha).value)
    have hview := (hprobes s hs).1
    rw [happly] at hview
    rw [choose, apply_bind, happly, if_pos hknown] at hnone
    have hargs := ((vouches_args hes s' hview).2 hnone).2
    rw [argumentTypes_eq hs] at hknown
    obtain ⟨e, he, hunknown⟩ := List.mem_map.1 hknown
    exact absurd hunknown (hargs e he).ne
  · cases hbest : bestOverload? params (candidates.filter fun x => (params x).length = es.length)
      (argumentTypes es c s) with
    | some x =>
      obtain ⟨s', -, happly⟩ := choose_of_some name pos hknown hbest
      rw [happly]
      exact ⟨x, (List.mem_filter.1 (mem_of_bestOverload? hbest)).1, rfl⟩
    | none =>
      obtain ⟨s', at_, cause, -, hcomplaint, happly⟩ := choose_of_none name pos hknown hbest
      rw [happly, report_apply, hclear.muted] at hnone
      have herror : (s'.log.report at_ cause).hasErrors = true := by
        refine Program.hasErrors_report_of_error ?_ at_
        cases hcomplaint <;> rfl
      cases herror.symm.trans hnone

theorem vouches_libraryCall {candidates : List Library.Method}
    (hall : ∀ m ∈ candidates, m ∈ Library.Method.all) {owner : StaticType} (howner : owner ≠ .unknown)
    (name : String) (pos : Source.Position) :
    Vouches c s₀ (libraryCall candidates owner name (compileAll es) pos) StaticType.IsKnown := by
  refine .ite (fun _ => vouches_noMember_of_ne hclear.muted howner name pos) fun _ => ?_
  refine (vouches_choose hclear hes _ _ _ _).walk_bind (walk_choose _ _ _ walks_args _) fun r hr => ?_
  cases r with
  | none => exact .pure fun h => by simp at h
  | some m =>
    refine Vouches.walk_seq (walk_arguments _ walks_args) ?_
    exact (vouches_emitLibraryCall (hall m (hr m rfl))).imp fun _ h _ => h

theorem vouches_programCall (owner : Nat) (name : String) (receiver : Receiver)
    (hreceiver : receiver.Walks c.program fun _ => True) (pos : Source.Position) :
    Vouches c s₀ (programCall owner name receiver (compileAll es) pos) StaticType.IsKnown := by
  have hmuted := hclear.muted
  refine .read_bind (.ite (fun _ => vouches_noMember_of_ne hmuted (by simp) name pos) fun _ => ?_)
  refine (vouches_choose hclear hes _ _ _ _).walk_bind (walk_choose _ _ _ walks_args _) fun r hr => ?_
  cases r with
  | none => exact .pure fun h => by simp at h
  | some m =>
    have hm : m ∈ (c.program.membersOf owner).methods := (List.mem_filter.1 (hr m rfl)).1
    have hcall (v : Bool) : Vouches c s₀ (do arguments m.params (compileAll es); emitCall m v)
        fun t => (∃ x ∈ c.program.methodsOf owner name, some m = some x) → t.IsKnown := by
      refine Vouches.walk_seq (walk_arguments _ walks_args) ?_
      refine .of_walk (L := fun _ => False) (walk_emitCall (typing_any _) hm v) fun _ _ _ _ => ?_
      exact hclear.program.ret owner m hm
    dsimp only
    split
    · exact .language_bind (.ite (fun _ => vouches_refuse hmuted _ fun _ => rfl) fun _ => hcall false)
    · exact hcall false
    · exact Vouches.walk_seq hreceiver.value.discard (hcall _)
    · refine .read_bind (.ite (fun _ => vouches_refuse hmuted pos fun _ => rfl) fun _ => ?_)
      exact Vouches.walk_seq (.emission (.loadArg 0)) (hcall false)

theorem vouches_newLibraryObject (class_ : Library.Class) {type : StaticType} (htype : type.IsKnown)
    (pos : Source.Position) :
    Vouches c s₀ (newLibraryObject class_ type (compileAll es) pos) StaticType.IsKnown := by
  refine .language_bind ?_
  refine (vouches_choose hclear hes _ _ _ _).walk_bind (walk_choose _ _ _ walks_args _) fun r hr => ?_
  cases r with
  | none => exact .pure fun h => by simp at h
  | some m =>
    refine Vouches.walk_seq (walk_arguments _ walks_args) ?_
    have hm := mem_all_of_mem_overloads (hr m rfl)
    exact Vouches.walk_seq (.mention (.method _ _ hm (by decide)))
      (.pure fun _ => htype)

omit hes in
/-- A type that is written is one of the program or of the framework, unless that is reported. -/
theorem vouches_resolveType (t : Source.TypeUse) :
    Vouches c s₀ (resolveType t) fun r => r.IsKnown ∧ r.Within c.program.types.size := by
  refine .of_walk (L := fun _ => False) (.resolveType t) fun s _ hnone => ?_
  rw [resolveType_apply, hclear.muted] at hnone ⊢
  exact ⟨(Program.vouches_resolve _ _ _ _ s.log hnone).2, Program.yields_resolve _ _ _ _ s.log⟩

theorem vouches_newObject (type : Source.TypeUse) (pos : Source.Position) :
    Vouches c s₀ (newObject type (compileAll es) pos) StaticType.IsKnown := by
  have hmuted := hclear.muted
  refine .read_bind ((vouches_resolveType hclear type).bind fun t => ?_)
  split
  · exact .pure fun h => h.1.elim
  · rename_i index
    refine .ite (fun _ => .typeName_bind _ fun _ => vouches_refuse hmuted pos fun _ => rfl) fun hstatic => ?_
    split
    · rename_i hctor
      refine .pure fun htype => ?_
      obtain ⟨hpos, hlt⟩ := htype.2
      -- a class that is no static class has a constructor
      have hhead : c.program.types[index]? = some c.program.types[index] :=
        Array.getElem?_eq_getElem hlt
      rw [hhead] at hstatic
      have hsome := hclear.constructs index _ hhead hpos (by simpa using hstatic)
      rw [hctor] at hsome
      cases hsome
    · rename_i ctor hctor
      have hm : ctor ∈ (c.program.membersOf index).methods := List.mem_of_find?_eq_some hctor
      refine .ite (fun _ => ?_) fun _ => vouches_refuse hmuted pos fun _ => rfl
      exact Vouches.walk_seq (.emission (.method (by decide) hm))
        (.pure fun _ => trivial)
  · exact (vouches_newLibraryObject hclear hes _ (show StaticType.object.IsKnown from trivial) pos).imp
      fun _ h _ => h
  · have hexception : (StaticType.lib .exception).IsKnown := trivial
    exact (vouches_newLibraryObject hclear hes _ hexception pos).imp fun _ h _ => h
  · exact .typeName_bind _ fun _ => vouches_refuse hmuted pos fun _ => rfl

end

/-! ## Operators -/

section

variable (hclear : Clear c N s₀) {lhs rhs : Expr}
  (hrhs : Vouches c s₀ (evaluate rhs) StaticType.IsKnown)

include hclear

theorem vouches_badOperands {Q : StaticType → Prop} (op : Source.BinaryOp) (lt rt : StaticType)
    (pos : Source.Position) : Vouches c s₀ (badOperands op lt rt pos) Q :=
  .language_bind (.typeName_bind _ fun _ => .typeName_bind _ fun _ =>
    vouches_refuse hclear.muted pos fun _ => rfl)

theorem vouches_unary (op : Source.UnaryOp) {operand : Expr}
    (h : Vouches c s₀ (evaluate operand) StaticType.IsKnown) (pos : Source.Position) :
    Vouches c s₀ (unary op (compile operand) pos) StaticType.IsKnown := by
  refine Vouches.bind (g := evaluate operand) h fun t => .ite (fun ht => .pure fun h => ?_) fun _ => ?_
  · exact absurd ht h.ne
  · refine .language_bind ?_
    split
    · rename_i hops
      have hops := operandKind_of_unaryCode? hops
      refine Vouches.walk_seq (walk_emits (fun o ho => (hops o ho).1)
        fun o ho h => absurd h (hops o ho).2) (.pure id)
    · exact .language_bind (.typeName_bind _ fun _ => vouches_refuse hclear.muted pos fun _ => rfl)

include hrhs

theorem vouches_concat (op : Source.BinaryOp) (lt : StaticType) (pos : Source.Position) :
    Vouches c s₀ (concat op lt (compile rhs) pos) fun t => lt.IsKnown → t.IsKnown := by
  have hcall {m : Library.Method} (hm : m ∈ Library.Method.all) : Vouches c s₀ (emitLibraryCall m)
      fun t => lt.IsKnown → t.IsKnown := (vouches_emitLibraryCall hm).imp fun _ h _ => h
  refine Vouches.bind (g := probe (evaluate rhs)) (vouches_probe rhs) fun rt => ?_
  refine Vouches.imp (Q := fun t => rt = answer c s₀ rhs → lt.IsKnown → t.IsKnown) ?_ fun _ h => h
  refine .ite (fun hunknown => ?_) fun _ => .ite (fun _ => ?_) fun _ => .ite (fun _ => ?_) fun _ => ?_
  · -- one of the operands is of an unknown type, and both are walked in earnest
    refine hrhs.discard_answer.bind fun _ => .pure fun hanswer hrt hlt => ?_
    rcases hunknown with h | h
    · exact absurd h hlt.ne
    · exact absurd (hrt.symm.trans h) hanswer.ne
  · exact hrhs.discard.seq (vouches_badOperands hclear op lt rt pos)
  · exact hrhs.discard.seq ((hcall (by decide)).imp fun _ h _ => h)
  · refine Vouches.walk_seq (walk_box lt) ?_
    refine Vouches.bind (g := evaluate rhs) hrhs fun t => ?_
    refine Vouches.walk_seq (walk_box t) ?_
    exact (hcall (by decide)).imp fun _ h _ _ => h

theorem vouches_applyTo (op : Source.BinaryOp) (lt : StaticType) (pos : Source.Position) :
    Vouches c s₀ (applyTo op lt (compile rhs) pos) fun t => lt.IsKnown → t.IsKnown := by
  have hwalks := walks_compile (typing_any c.program) rhs
  have hconcatenates := walk_concatenates (L := fun _ => False) (b := .assigns) op lt hwalks
  refine (Vouches.walk hconcatenates).bind fun _ => .ite (fun _ => ?_) fun _ => ?_
  · exact (vouches_concat hclear hrhs op lt pos).imp fun _ h _ => h
  · refine Vouches.bind (g := evaluate rhs) hrhs fun rt => .ite (fun hunknown => ?_) fun _ => ?_
    · refine .pure fun hrt _ hlt => ?_
      rcases hunknown with h | h
      · exact absurd h hlt.ne
      · exact absurd h hrt.ne
    · split
      · rename_i ops result hcode
        obtain ⟨_, _, heq, hops, hresult⟩ | ⟨m, hm, heq⟩ := operatorCode?_cases hcode
        · cases heq
          refine Vouches.walk_seq (walk_emits (fun o ho => (hops o ho).1)
            fun o ho h => absurd h (hops o ho).2) (.pure fun _ _ _ => ?_)
          rcases hresult with rfl | rfl <;> trivial
        · cases heq
      · rename_i m hcode
        obtain ⟨_, _, heq, -⟩ | ⟨m, hm, heq⟩ := operatorCode?_cases hcode
        · cases heq
        · cases heq
          exact (vouches_emitLibraryCall hm).imp fun _ h _ _ _ => h
      · exact vouches_badOperands hclear op lt rt pos

end

end CilScope.Lowering
