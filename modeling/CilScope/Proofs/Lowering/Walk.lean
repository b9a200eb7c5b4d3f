import CilScope.Lowering.Method
import Mathlib

/-!
# The steps of lowering

Everything that lowering does to its state is made of a few kinds of steps: it looks around, reports,
appends instructions, refers to the framework, declares locals, and opens labels that it binds before
it is done with them. `Walk` says so once for all steps, with what a step promises of its result, and
facts about whole methods are then inductions over `Walk` with one case for each kind.

* `walks_compile`: the code of every expression is a walk;
* `walk_statement`, `walk_declaredBody`: so is the code of every statement and body.
-/

namespace CilScope.Lowering

/-! ## What is known all along -/

/-- A predicate on types that holds of everything a program can name. -/
structure Typing (p : Program) (T : StaticType → Prop) : Prop where
  void : T .void
  bool : T .bool
  int : T .int
  string : T .string
  object : T .object
  null : T .null
  unknown : T .unknown
  lib : ∀ c, T (.lib c)
  element : ∀ {e}, T (.array e) → T e
  array : ∀ {e}, T e → T (.array e)
  found : ∀ {i name t}, p.lookup? i name = some t → T t
  field : ∀ {i f}, f ∈ (p.membersOf i).fields → T f.type
  ret : ∀ {i m}, m ∈ (p.membersOf i).methods → T m.ret

/-- What holds wherever the walk is: the program is `p`, and all types are among those of `T`. -/
structure Sees (p : Program) (T : StaticType → Prop) (c : Context) (s : State) : Prop where
  program : c.program = p
  owner : T (.class_ c.owner)
  params : ∀ t ∈ c.method.params, T t
  ret : T c.method.ret
  locals : ∀ scope ∈ s.scopes, ∀ l ∈ scope, T l.type

/-! ## Kinds of steps -/

/-- Appending one instruction. The tokens are those of fields and methods of the program. -/
inductive Emission (p : Program) : (Draft → Draft) → Prop
  | emit {op : Opcode} (h : op.operandKind = .none) (hret : op ≠ .ret) : Emission p (·.emit op)
  | loadInt (v : Int32) : Emission p (·.loadInt v)
  | loadLocal (i : UInt16) : Emission p (·.loadLocal i)
  | storeLocal (i : UInt16) : Emission p (·.storeLocal i)
  | loadArg (i : UInt16) : Emission p (·.loadArg i)
  | storeArg (i : UInt16) : Emission p (·.storeArg i)
  | field {op : Opcode} {i : Nat} {f : Field} (hop : op ∈ [.ldfld, .stfld, .ldsfld, .stsfld])
      (hf : f ∈ (p.membersOf i).fields) : Emission p (·.emitToken op f.token)
  | method {op : Opcode} {i : Nat} {pops pushes : UInt32} {m : Method} (hop : op ∈ [.call, .callvirt, .newobj])
      (hm : m ∈ (p.membersOf i).methods) : Emission p (·.emitCall op m.token pops pushes)

/-- Appending one instruction whose token is that of something in the framework. -/
inductive Mention : Gen Unit → Prop
  | box (c : Library.Class) : Mention do
      let token ← classToken c
      edit (·.emitToken .box token)
  | string (text : String) : Mention do
      let token ← stringToken text
      edit (·.emitToken .ldstr token)
  | method {op : Opcode} {m : Library.Method} (pops pushes : UInt32) (hm : m ∈ Library.Method.all)
      (hop : op ∈ [.call, .callvirt, .newobj]) : Mention do
      let token ← methodToken m
      edit (·.emitCall op token pops pushes)

/-- Where a step may go: to a label, or out of the method. -/
inductive Exit
  | label (l : Label)
  | ret

/-- What a step may do to the locals: note that they are read, note also that they are assigned, or
declare some as well. -/
inductive Freedom
  | reads
  | assigns
  | declares
  deriving DecidableEq

/-- Steps of lowering a method of `p`. `L` holds of the exits that may be taken, `freedom` says what may
be done to the locals, and `Q` holds of the result. -/
inductive Walk (p : Program) (T : StaticType → Prop) :
    (L : Exit → Prop) → (freedom : Freedom) → {α : Type} → Gen α → (Q : α → Prop) → Prop
  | look {L : Exit → Prop} {b : Freedom} {α : Type} {Q : α → Prop} (f : Context → State → α)
      (h : ∀ c s, Sees p T c s → Q (f c s)) : Walk p T L b (fun c s => (f c s, s)) Q
  | bind {L : Exit → Prop} {b : Freedom} {α β : Type} {g : Gen α} {k : α → Gen β} {Q : α → Prop}
      {R : β → Prop} (hg : Walk p T L b g Q) (hk : ∀ a, Q a → Walk p T L b (k a) R) :
      Walk p T L b (g >>= k) R
  | weaken {L : Exit → Prop} {b : Freedom} {α : Type} {g : Gen α} {Q R : α → Prop}
      (hg : Walk p T L b g Q) (h : ∀ a, Q a → R a) : Walk p T L b g R
  | report {L : Exit → Prop} {b : Freedom} (pos : Source.Position) (cause : Cause) :
      Walk p T L b (report pos cause) fun _ => True
  | resolveType {L : Exit → Prop} {b : Freedom} (t : Source.TypeUse) : Walk p T L b (resolveType t) T
  | point {L : Exit → Prop} {b : Freedom} (pos : Source.Position) :
      Walk p T L b (edit (·.point pos)) fun _ => True
  | emission {L : Exit → Prop} {b : Freedom} {f : Draft → Draft} (h : Emission p f) :
      Walk p T L b (edit f) fun _ => True
  | mention {L : Exit → Prop} {b : Freedom} {g : Gen Unit} (h : Mention g) :
      Walk p T L b g fun _ => True
  | ret {L : Exit → Prop} {b : Freedom} (h : L .ret) : Walk p T L b (emit .ret) fun _ => True
  | branch {L : Exit → Prop} {b : Freedom} {op : Opcode} {l : Label} (hop : op.operandKind = .branch)
      (hl : L (.label l)) : Walk p T L b (branch op l) fun _ => True
  | probe {L : Exit → Prop} {b : Freedom} {α : Type} {g : Gen α} {Q : α → Prop}
      (hg : Walk p T L .reads g Q) : Walk p T L b (probe g) Q
  | updateLocal {L : Exit → Prop} {b : Freedom} (slot : UInt16) (f : Local → Local)
      (h : ∀ l, (f l).name = l.name ∧ (f l).slot = l.slot ∧ (f l).type = l.type)
      (hread : b = .reads → ∀ l, f l = { l with read := true }) :
      Walk p T L b (updateLocal slot f) fun _ => True
  | shortCircuit {L : Exit → Prop} {b : Freedom} (isOr : Bool) {lhs rhs : ExprCode}
      (hl : ∀ L' l w, L' (.label l) → Walk p T L' b (lhs.jump l w) fun _ => True)
      (hr : ∀ L', Walk p T L' b rhs.value T) : Walk p T L b (shortCircuit isOr lhs rhs) T
  | jumpOnBoth {L : Exit → Prop} {b : Freedom} (isOr : Bool) {lhs rhs : ExprCode} {l : Label} (w : Bool)
      (hl : ∀ L' l w, L' (.label l) → Walk p T L' b (lhs.jump l w) fun _ => True)
      (hr : ∀ L' l w, L' (.label l) → Walk p T L' b (rhs.jump l w) fun _ => True) (h : L (.label l)) :
      Walk p T L b (jumpOnBoth isOr lhs rhs l w) fun _ => True
  | declareLocal {L : Exit → Prop} (name : String) {type : StaticType} (pos : Source.Position)
      (h : T type) : Walk p T L .declares (declareLocal name type pos) fun _ => True
  | inScope {L : Exit → Prop} {g : Gen Unit} (hg : Walk p T L .declares g fun _ => True) :
      Walk p T L .declares (inScope g) fun _ => True
  | loopJump {L : Exit → Prop} (kind : Option Source.LoopKind) (exit : Bool)
      (pos : Source.Position) : Walk p T L .declares (jump kind exit pos) fun _ => True
  | leaveMethod {L : Exit → Prop} {ret : StaticType} (h : T ret) :
      Walk p T L .declares (leaveMethod ret) fun _ => True
  | ifStatement {L : Exit → Prop} {cond : ExprCode} {then_ : Gen Unit} {else_ : Option (Gen Unit)}
      (hc : ∀ L' l w, L' (.label l) → Walk p T L' .declares (cond.jump l w) fun _ => True)
      (ht : ∀ L', Walk p T L' .declares then_ fun _ => True)
      (he : ∀ g, else_ = some g → ∀ L', Walk p T L' .declares g fun _ => True) :
      Walk p T L .declares (ifStatement cond then_ else_) fun _ => True
  | whileLoop {L : Exit → Prop} (kind : Source.LoopKind) {cond : Option Source.Expr} {body : Gen Unit}
      {step : Option (Gen Unit)}
      (hc : ∀ e, cond = some e → ∀ L' l w, L' (.label l) →
        Walk p T L' .declares ((compile e).jump l w) fun _ => True)
      (hb : ∀ L', Walk p T L' .declares body fun _ => True)
      (hs : ∀ g, step = some g → ∀ L', Walk p T L' .declares g fun _ => True) :
      Walk p T L .declares (whileLoop kind cond body step) fun _ => True
  | doLoop {L : Exit → Prop} {body : Gen Unit} {cond : Source.Expr} (until_ : Bool)
      (hb : ∀ L', Walk p T L' .declares body fun _ => True)
      (hc : ∀ L' l w, L' (.label l) → Walk p T L' .declares ((compile cond).jump l w) fun _ => True) :
      Walk p T L .declares (doLoop body cond until_) fun _ => True
  | tryStatement {L : Exit → Prop} {body : Gen Unit}
      {handler : Option (Source.CatchHead × Gen Unit)} {finally_ : Option (Gen Unit)}
      (hb : ∀ L', Walk p T L' .declares body fun _ => True)
      (hh : ∀ head g, handler = some (head, g) → ∀ L', Walk p T L' .declares g fun _ => True)
      (hf : ∀ g, finally_ = some g → ∀ L', Walk p T L' .declares g fun _ => True) :
      Walk p T L .declares (tryStatement body handler finally_) fun _ => True

variable {p : Program} {T : StaticType → Prop} {L : Exit → Prop} {b : Freedom}

namespace Walk

variable {α β : Type} {Q : α → Prop} {R : β → Prop}

theorem pure {a : α} (h : Q a) : Walk p T L b (Pure.pure a) Q :=
  look (fun _ _ => a) fun _ _ _ => h

/-- A look at the context. -/
theorem read_bind {k : Context → Gen β}
    (hk : ∀ c, c.program = p → T (.class_ c.owner) → (∀ t ∈ c.method.params, T t) → T c.method.ret →
      Walk p T L b (k c) R) : Walk p T L b (read >>= k) R :=
  (look (Q := fun c => c.program = p ∧ T (.class_ c.owner) ∧ (∀ t ∈ c.method.params, T t) ∧
      T c.method.ret) (fun c _ => c) fun _ _ h => ⟨h.program, h.owner, h.params, h.ret⟩).bind
    fun c hc => hk c hc.1 hc.2.1 hc.2.2.1 hc.2.2.2

/-- A look at what the rest may depend on in any way. -/
theorem look_bind {f : Context → State → α} {k : α → Gen β} (hk : ∀ a, Walk p T L b (k a) R) :
    Walk p T L b ((fun c s => (f c s, s) : Gen α) >>= k) R :=
  (look (Q := fun _ => True) f fun _ _ _ => trivial).bind fun a _ => hk a

theorem seq {g : Gen Unit} {k : Gen β} (hg : Walk p T L b g fun _ => True)
    (hk : Walk p T L b k R) : Walk p T L b (g >>= fun _ => k) R :=
  hg.bind fun _ _ => hk

theorem discard {g : Gen α} (hg : Walk p T L b g Q) : Walk p T L b (discard g) fun _ => True :=
  hg.bind (k := fun _ => Pure.pure ()) fun _ _ => pure trivial

theorem ite {c : Prop} [Decidable c] {g g' : Gen α} (hg : c → Walk p T L b g Q)
    (hg' : ¬c → Walk p T L b g' Q) : Walk p T L b (if c then g else g') Q := by
  split
  · exact hg ‹_›
  · exact hg' ‹_›

theorem forM {xs : List α} {f : α → Gen Unit} (h : ∀ x ∈ xs, Walk p T L b (f x) fun _ => True) :
    Walk p T L b (xs.forM f) fun _ => True := by
  induction xs with
  | nil => exact pure trivial
  | cons x xs ih =>
    exact (h x (List.mem_cons_self ..)).seq (ih fun y hy => h y (List.mem_cons_of_mem _ hy))

theorem mapM {xs : List α} {f : α → Gen β} (h : ∀ x ∈ xs, Walk p T L b (f x) R) :
    Walk p T L b (xs.mapM f) fun _ => True := by
  induction xs with
  | nil => exact pure trivial
  | cons x xs ih =>
    rw [List.mapM_cons]
    refine (h x (List.mem_cons_self ..)).bind fun _ _ => ?_
    exact (ih fun y hy => h y (List.mem_cons_of_mem _ hy)).bind fun _ _ => pure trivial

/-- A loop over a list. -/
theorem forIn {xs : List α} {f : α → PUnit → Gen (ForInStep PUnit)}
    (h : ∀ x ∈ xs, Walk p T L b (f x ⟨⟩) fun _ => True) :
    Walk p T L b (ForIn.forIn xs ⟨⟩ f) fun _ => True := by
  induction xs with
  | nil => exact pure trivial
  | cons x xs ih =>
    rw [List.forIn_cons]
    refine (h x (List.mem_cons_self ..)).bind fun r _ => ?_
    cases r with
    | done => exact pure trivial
    | yield => exact ih fun y hy => h y (List.mem_cons_of_mem _ hy)

end Walk

/-- The code of an expression is made of walks, and its value has a type of `T`. -/
structure ExprCode.Walks (p : Program) (T : StaticType → Prop) (code : ExprCode) : Prop where
  value : ∀ {L b}, Walk p T L b code.value T
  jump : ∀ {L b l} (w : Bool), L (.label l) → Walk p T L b (code.jump l w) fun _ => True

/-! ## Small steps -/

theorem walk_language : Walk p T L b language fun l => l = p.language :=
  Walk.look (fun c _ => c.program.language) fun _ _ h => by rw [h.program]

theorem walk_typeName (t : StaticType) : Walk p T L b (typeName t) fun _ => True :=
  Walk.look (fun c _ => c.program.typeName t) fun _ _ _ => trivial

theorem walk_isReachable : Walk p T L b isReachable fun _ => True :=
  Walk.look (fun _ s => s.draft.isReachable) fun _ _ _ => trivial

theorem walk_emit {op : Opcode} (h : op.operandKind = .none) (hret : op ≠ .ret) :
    Walk p T L b (emit op) fun _ => True :=
  .emission (.emit h hret)

theorem walk_refuse (hT : Typing p T) (pos : Source.Position) (cause : Cause) :
    Walk p T L b (refuse pos cause) T :=
  (Walk.report pos cause).seq (.pure hT.unknown)

theorem walk_point (pos : Source.Position) : Walk p T L b (point pos) fun _ => True :=
  Walk.look_bind (f := fun c _ => c) fun _ => .ite (fun _ => .point pos) fun _ => .pure trivial

theorem walk_blockMark : Walk p T L b blockMark fun _ => True :=
  Walk.look_bind (f := fun c _ => c) fun _ => .ite (fun _ => .pure trivial) fun _ => walk_emit rfl (by decide)

theorem walk_loadDefault (t : StaticType) : Walk p T L b (loadDefault t) fun _ => True :=
  .ite (fun _ => .emission (.loadInt 0)) fun _ => walk_emit rfl (by decide)

theorem walk_box (t : StaticType) : Walk p T L b (box t) fun _ => True :=
  .ite (fun _ => .mention (.box .int32)) fun _ =>
    .ite (fun _ => .mention (.box .boolean)) fun _ => .pure trivial

theorem walk_coerce (source target : StaticType) (pos : Source.Position) :
    Walk p T L b (coerce source target pos) fun _ => True := by
  refine .ite (fun _ => ?_) fun _ => .ite (fun _ => walk_box source) fun _ => .pure trivial
  exact (walk_typeName source).bind fun _ _ => (walk_typeName target).bind fun _ _ => .report ..

theorem walk_noMember (hT : Typing p T) (t : StaticType) (name : String) (pos : Source.Position) :
    Walk p T L b (noMember t name pos) T := by
  unfold noMember
  split
  · exact .pure hT.unknown
  · exact (walk_typeName t).bind fun _ _ => (Walk.report ..).seq (.pure hT.unknown)

/-! ## Calls -/

theorem mem_all_of_mem_overloads {language : Language} {class_ : Library.Class}
    {kind : Library.CallKind} {name : String} {m : Library.Method}
    (h : m ∈ Library.Method.overloads language class_ kind name) : m ∈ Library.Method.all := by
  unfold Library.Method.overloads at h
  rcases List.mem_append.1 h with h | h
  · exact (List.mem_filter.1 h).1
  · split at h
    · exact (List.mem_filter.1 h).1
    · exact absurd h (List.not_mem_nil)

theorem Typing.library (hT : Typing p T) {m : Library.Method} (hm : m ∈ Library.Method.all) :
    T m.ret := by
  have h : ∀ m ∈ Library.Method.all, m.ret ∈ [StaticType.void, .bool, .int, .string] := by decide
  have hret := h m hm
  simp only [List.mem_cons, List.not_mem_nil, or_false] at hret
  rcases hret with h | h | h | h
  · rw [h]; exact hT.void
  · rw [h]; exact hT.bool
  · rw [h]; exact hT.int
  · rw [h]; exact hT.string

theorem mem_of_bestOverload? {α : Type} {params : α → List StaticType} {candidates : List α}
    {args : List StaticType} {c : α} (h : bestOverload? params candidates args = some c) :
    c ∈ candidates := by
  unfold bestOverload? at h
  rcases Option.or_eq_some_iff.1 h with h | ⟨-, h⟩
  · exact List.mem_of_find?_eq_some h
  · exact List.mem_of_find?_eq_some h

section

variable {args : List ExprCode}

theorem walk_choose {α : Type} (params : α → List StaticType) (candidates : List α) (name : String)
    (hargs : ∀ a ∈ args, a.Walks p T) (pos : Source.Position) :
    Walk p T L b (choose params candidates name args pos)
      fun r => ∀ c, r = some c → c ∈ candidates := by
  unfold choose
  refine (Walk.mapM fun a ha => .probe (hargs a ha).value).bind fun types _ => .ite (fun _ => ?_)
    fun _ => ?_
  · refine (Walk.forIn fun a ha => ?_).seq (.pure (by simp))
    exact (hargs a ha).value.discard.seq (.pure trivial)
  · dsimp only
    split
    · rename_i c hc
      refine .pure fun c' hc' => ?_
      cases hc'
      exact (List.mem_filter.1 (mem_of_bestOverload? hc)).1
    · split
      · exact (Walk.report ..).seq (.pure (by simp))
      · split
        · split
          · refine (walk_typeName _).bind fun _ _ => (walk_typeName _).bind fun _ _ => ?_
            exact (Walk.report ..).seq (.pure (by simp))
          · exact .pure (by simp)
        · exact .pure (by simp)

theorem walk_arguments (params : List StaticType) (hargs : ∀ a ∈ args, a.Walks p T) :
    Walk p T L b (arguments params args) fun _ => True := by
  refine Walk.forM fun x hx => ?_
  exact (hargs x.1 (List.of_mem_zip hx).1).value.bind fun _ _ => walk_coerce ..

theorem walk_emitLibraryCall (hT : Typing p T) {m : Library.Method} (hm : m ∈ Library.Method.all) :
    Walk p T L b (emitLibraryCall m) T := by
  have hstep (op : Opcode) (hop : op ∈ [.call, .callvirt, .newobj]) (pops : UInt32) :
      Walk p T L b (do
        let token ← methodToken m
        edit (·.emitCall op token pops (pushes m.ret))
        return m.ret) T :=
    (Walk.mention (.method pops (pushes m.ret) hm hop)).seq (.pure (hT.library hm))
  unfold emitLibraryCall
  by_cases h : m.kind = .instance_
  · simp only [if_pos h]
    exact hstep .callvirt (by decide) _
  · simp only [if_neg h]
    exact hstep .call (by decide) _

theorem walk_libraryCall (hT : Typing p T) {candidates : List Library.Method}
    (hc : ∀ m ∈ candidates, m ∈ Library.Method.all) (owner : StaticType) (name : String)
    (hargs : ∀ a ∈ args, a.Walks p T) (pos : Source.Position) :
    Walk p T L b (libraryCall candidates owner name args pos) T := by
  refine .ite (fun _ => walk_noMember hT ..) fun _ => ?_
  refine (walk_choose _ _ _ hargs _).bind fun r hr => ?_
  cases r with
  | none => exact .pure hT.unknown
  | some m => exact (walk_arguments _ hargs).seq (walk_emitLibraryCall hT (hc m (hr m rfl)))

theorem walk_emitCall (hT : Typing p T) {i : Nat} {m : Method} (hm : m ∈ (p.membersOf i).methods)
    (virtual_ : Bool) : Walk p T L b (emitCall m virtual_) T := by
  refine (Walk.emission (.method ?_ hm)).seq (.pure (hT.ret hm))
  cases virtual_ <;> decide

/-- What a receiver's code has to be. -/
def Receiver.Walks (p : Program) (T : StaticType → Prop) : Receiver → Prop
  | .expr code => code.Walks p T
  | _ => True

theorem walk_programCall (hT : Typing p T) (owner : Nat) (name : String) (receiver : Receiver)
    (hr : receiver.Walks p T) (hargs : ∀ a ∈ args, a.Walks p T) (pos : Source.Position) :
    Walk p T L b (programCall owner name receiver args pos) T := by
  refine Walk.read_bind fun c hc _ _ _ => .ite (fun _ => walk_noMember hT ..) fun _ => ?_
  refine (walk_choose _ _ _ hargs _).bind fun r hm => ?_
  cases r with
  | none => exact .pure hT.unknown
  | some m =>
    have hm : m ∈ (p.membersOf owner).methods := by
      have := hm m rfl
      rw [hc] at this
      exact (List.mem_filter.1 this).1
    have hcall (v : Bool) : Walk p T L b (arguments m.params args >>= fun _ => emitCall m v) T :=
      (walk_arguments _ hargs).seq (walk_emitCall hT hm v)
    dsimp only
    split
    · refine walk_language.bind fun _ _ => .ite (fun _ => walk_refuse hT ..) fun _ => hcall false
    · exact hcall false
    · exact hr.value.discard.seq (hcall _)
    · refine Walk.read_bind fun _ _ _ _ _ => .ite (fun _ => walk_refuse hT ..) fun _ => ?_
      exact (Walk.emission (.loadArg 0)).seq (hcall false)

theorem walk_newLibraryObject (hT : Typing p T) (class_ : Library.Class) {type : StaticType}
    (ht : T type) (hargs : ∀ a ∈ args, a.Walks p T) (pos : Source.Position) :
    Walk p T L b (newLibraryObject class_ type args pos) T := by
  refine walk_language.bind fun _ _ => (walk_choose _ _ _ hargs _).bind fun r hr => ?_
  cases r with
  | none => exact .pure hT.unknown
  | some m =>
    refine (walk_arguments _ hargs).seq ?_
    refine (Walk.mention (.method _ _ (mem_all_of_mem_overloads (hr m rfl)) ?_)).seq (.pure ht)
    decide

theorem walk_newObject (hT : Typing p T) (type : Source.TypeUse) (hargs : ∀ a ∈ args, a.Walks p T)
    (pos : Source.Position) : Walk p T L b (newObject type args pos) T := by
  refine Walk.read_bind fun c hc _ _ _ => (Walk.resolveType type).bind fun t ht => ?_
  split
  · exact .pure hT.unknown
  · rename_i index
    refine .ite (fun _ => (walk_typeName _).bind fun _ _ => walk_refuse hT ..) fun _ => ?_
    split
    · exact .pure hT.unknown
    · rename_i ctor hctor
      have hm : ctor ∈ (p.membersOf index).methods := by
        rw [hc] at hctor
        exact List.mem_of_find?_eq_some hctor
      refine .ite (fun _ => ?_) fun _ => walk_refuse hT ..
      exact (Walk.emission (.method (by decide) hm)).seq (.pure ht)
  · exact walk_newLibraryObject hT _ hT.object hargs _
  · exact walk_newLibraryObject hT _ (hT.lib _) hargs _
  · exact (walk_typeName _).bind fun _ _ => walk_refuse hT ..

end

/-! ## Names and places -/

/-- What a place has to be: one of the program. -/
def Place.Walks (p : Program) (T : StaticType → Prop) : Place → Prop
  | .local_ _ t | .arg _ t => T t
  | .field f receiver => (∃ i, f ∈ (p.membersOf i).fields) ∧ receiver.Walks p T

/-- What the meaning of a name has to be. -/
def Meaning.Walks (p : Program) (T : StaticType → Prop) : Meaning → Prop
  | .place q => q.Walks p T
  | .type t => T t
  | _ => True

theorem mem_of_fieldOf? {i : Nat} {name : String} {f : Field} (h : p.fieldOf? i name = some f) :
    f ∈ (p.membersOf i).fields :=
  List.mem_of_find?_eq_some h

theorem mem_of_findLocal? {language : Language} {scopes : List (List Local)} {name : String}
    {l : Local} (h : findLocal? language scopes name = some l) : ∃ scope ∈ scopes, l ∈ scope := by
  obtain ⟨scope, hscope, hl⟩ := List.exists_of_findSome?_eq_some h
  exact ⟨scope, hscope, List.mem_of_find?_eq_some hl⟩

theorem walks_findParam? {c : Context} {name : String} {place : Place}
    (hparams : ∀ t ∈ c.method.params, T t) (h : c.findParam? name = some place) :
    place.Walks p T := by
  obtain ⟨i, -, h⟩ := Option.bind_eq_some_iff.1 h
  obtain ⟨t, ht, h⟩ := Option.bind_eq_some_iff.1 h
  cases h
  exact hparams t (List.mem_of_getElem? ht)

theorem walks_resolve (hT : Typing p T) {c : Context} {s : State} (h : Sees p T c s)
    (name : String) : (c.resolve s.scopes name).Walks p T := by
  unfold Context.resolve
  split
  · rename_i l hl
    obtain ⟨scope, hscope, hmem⟩ := mem_of_findLocal? hl
    exact h.locals scope hscope l hmem
  · split
    · exact walks_findParam? h.params ‹_›
    · split
      · rename_i hf
        rw [h.program] at hf
        obtain ⟨i, -, hi⟩ := List.exists_of_findSome?_eq_some hf
        obtain ⟨f, hf, heq⟩ := Option.map_eq_some_iff.1 hi
        cases heq
        refine ⟨⟨_, mem_of_fieldOf? hf⟩, ?_⟩
        split <;> trivial
      · split
        · trivial
        · split
          · rename_i ht
            rw [h.program] at ht
            exact hT.found ht
          · trivial

theorem walk_resolveName (hT : Typing p T) (name : String) :
    Walk p T L b (resolveName name) (Meaning.Walks p T) :=
  Walk.look (fun c s => c.resolve s.scopes name) fun _ _ h => walks_resolve hT h name

theorem typing_asType? (hT : Typing p T) {c : Context} {s : State} (h : Sees p T c s)
    {e : Source.Expr} {t : StaticType} (ht : c.asType? s.scopes e = some t) : T t := by
  unfold Context.asType? at ht
  split at ht
  · unfold Context.keywordType? at ht
    split at ht <;> cases ht
    · exact hT.int
    · exact hT.bool
    · exact hT.string
    · exact hT.object
  · rename_i n
    have hmeaning := walks_resolve hT h n
    split at ht
    · rename_i hr
      cases ht
      rw [hr] at hmeaning
      exact hmeaning
    · cases ht
  · split at ht
    · cases ht
    · obtain ⟨name, -, hname⟩ := Option.bind_eq_some_iff.1 ht
      rw [h.program] at hname
      exact hT.found hname
  · cases ht

theorem walk_asType? (hT : Typing p T) (e : Source.Expr) :
    Walk p T L b (asType? e) fun r => ∀ t, r = some t → T t :=
  Walk.look (fun c s => c.asType? s.scopes e) fun _ _ h _ ht => typing_asType? hT h ht

theorem walk_isUnknownName (hT : Typing p T) (e : Source.Expr) :
    Walk p T L b (isUnknownName e) fun _ => True := by
  unfold isUnknownName
  split
  · exact (walk_resolveName hT _).bind fun _ _ => .pure trivial
  · exact .pure trivial

section

variable {place : Place}

theorem Place.Walks.type (hT : Typing p T) (h : place.Walks p T) : T place.type := by
  cases place with
  | local_ | arg => exact h
  | field f r =>
    obtain ⟨⟨i, hf⟩, -⟩ := h
    exact hT.field hf

theorem walk_checkInstance (name : String) (pos : Source.Position) :
    Walk p T L b (place.checkInstance name pos) fun _ => True := by
  unfold Place.checkInstance
  refine .ite (fun _ => ?_) fun _ => .pure trivial
  exact Walk.look_bind (f := fun c _ => c) fun _ => .ite (fun _ => .report ..) fun _ => .pure trivial

theorem walk_loadReceiver (h : place.Walks p T) :
    Walk p T L b place.loadReceiver fun _ => True := by
  unfold Place.loadReceiver
  split
  · exact .emission (.loadArg 0)
  · exact h.2.value.discard
  · exact .pure trivial

theorem walk_markRead (slot : UInt16) : Walk p T L b (markRead slot) fun _ => True :=
  .updateLocal slot _ (fun _ => ⟨rfl, rfl, rfl⟩) fun _ _ => rfl

theorem walk_markAssigned (slot : UInt16) (literal : Bool) (hb : b ≠ .reads) :
    Walk p T L b (markAssigned slot literal) fun _ => True :=
  .updateLocal slot _ (fun _ => ⟨rfl, rfl, rfl⟩) fun h => absurd h hb

theorem walk_load (h : place.Walks p T) : Walk p T L b place.load fun _ => True := by
  cases place with
  | local_ slot t => exact (walk_markRead slot).seq (.emission (.loadLocal slot))
  | arg i t => exact .emission (.loadArg i)
  | field f r =>
    obtain ⟨⟨i, hf⟩, -⟩ := h
    refine .emission (.field ?_ hf)
    split <;> decide

theorem walk_store (h : place.Walks p T) : Walk p T L b place.store fun _ => True := by
  cases place with
  | local_ slot t => exact .emission (.storeLocal slot)
  | arg i t => exact .emission (.storeArg i)
  | field f r =>
    obtain ⟨⟨i, hf⟩, -⟩ := h
    refine .emission (.field ?_ hf)
    split <;> decide

theorem walk_noteAssigned (literal : Bool) (hb : b ≠ .reads) :
    Walk p T L b (place.noteAssigned literal) fun _ => True := by
  cases place with
  | local_ slot t => exact walk_markAssigned slot literal hb
  | arg | field => exact .pure trivial

end

/-! ## Operators -/

theorem walk_emits {ops : List Opcode} (h : ∀ op ∈ ops, op.operandKind = .none)
    (hret : ∀ op ∈ ops, op = .ret → L .ret) : Walk p T L b (ops.forM emit) fun _ => True := by
  refine .forM fun op hop => ?_
  by_cases heq : op = .ret
  · rw [heq]
    exact .ret (hret op hop heq)
  · exact walk_emit (h op hop) heq

theorem walk_badOperands (hT : Typing p T) (op : Source.BinaryOp) (lt rt : StaticType)
    (pos : Source.Position) : Walk p T L b (badOperands op lt rt pos) T :=
  walk_language.bind fun _ _ => (walk_typeName _).bind fun _ _ => (walk_typeName _).bind fun _ _ =>
    walk_refuse hT ..

theorem operandKind_of_unaryCode? {language : Language} {op : Source.UnaryOp} {t : StaticType}
    {ops : List Opcode} (h : unaryCode? language op t = some ops) :
    ∀ op ∈ ops, op.operandKind = .none ∧ op ≠ .ret := by
  unfold unaryCode? at h
  split at h <;> (repeat' split at h) <;> cases h <;> decide

theorem walk_unary (hT : Typing p T) (op : Source.UnaryOp) {operand : ExprCode}
    (h : operand.Walks p T) (pos : Source.Position) : Walk p T L b (unary op operand pos) T := by
  refine h.value.bind fun t ht => .ite (fun _ => .pure hT.unknown) fun _ => ?_
  refine walk_language.bind fun l _ => ?_
  split
  · rename_i hops
    have hops := operandKind_of_unaryCode? hops
    exact (walk_emits (fun o ho => (hops o ho).1) fun o ho h => absurd h (hops o ho).2).seq (.pure ht)
  · exact walk_language.bind fun _ _ => (walk_typeName _).bind fun _ _ => walk_refuse hT ..

theorem operatorCode?_cases {op : Source.BinaryOp} {lt rt : StaticType} {code : OperatorCode}
    (h : operatorCode? op lt rt = some code) :
    (∃ ops result, code = .opcodes ops result ∧
      (∀ op ∈ ops, op.operandKind = .none ∧ op ≠ .ret) ∧ (result = .int ∨ result = .bool)) ∨
    ∃ m ∈ Library.Method.all, code = .call m := by
  have hints {ops : List Opcode} {result : StaticType}
      (h : (if lt = .int ∧ rt = .int then some (OperatorCode.opcodes ops result) else none) =
        some code) : code = .opcodes ops result := by
    split at h <;> cases h
    rfl
  have hbits {op : Opcode}
      (h : (if lt = rt ∧ (lt = .int ∨ lt = .bool) then some (OperatorCode.opcodes [op] lt)
        else none) = some code) : code = .opcodes [op] lt ∧ (lt = .int ∨ lt = .bool) := by
    split at h <;> cases h
    exact ⟨rfl, (‹_ ∧ _›).2⟩
  have hequal {m : Library.Method} {ops : List Opcode}
      (h : (if lt = .string ∧ rt = .string then some (OperatorCode.call m)
        else if lt.comparable rt then some (.opcodes ops .bool) else none) = some code) :
      code = .call m ∨ code = .opcodes ops .bool := by
    repeat' split at h
    all_goals cases h
    · exact .inl rfl
    · exact .inr rfl
  cases op with
  | add | sub | mul | div | intDiv | rem => exact .inl ⟨_, _, hints h, by decide, .inl rfl⟩
  | lt | gt | le | ge => exact .inl ⟨_, _, hints h, by decide, .inr rfl⟩
  | and | or => exact .inl ⟨_, _, (hbits h).1, by decide, (hbits h).2⟩
  | eq | ne =>
    rcases hequal h with h | h
    · exact .inr ⟨_, by decide, h⟩
    · exact .inl ⟨_, _, h, by decide, .inr rfl⟩
  | concat | andAlso | orElse => cases h

section

variable {lhs rhs : ExprCode}

theorem walk_concat (hT : Typing p T) (op : Source.BinaryOp) (lt : StaticType)
    (hr : rhs.Walks p T) (pos : Source.Position) : Walk p T L b (concat op lt rhs pos) T := by
  refine (Walk.probe hr.value).bind fun rt _ => .ite (fun _ => ?_) fun _ => .ite (fun _ => ?_)
    fun _ => .ite (fun _ => ?_) fun _ => ?_
  · exact hr.value.discard.seq (.pure hT.unknown)
  · exact hr.value.discard.seq (walk_badOperands hT ..)
  · exact hr.value.discard.seq (walk_emitLibraryCall hT (by decide))
  · refine (walk_box lt).seq (hr.value.bind fun t _ => (walk_box t).seq ?_)
    exact walk_emitLibraryCall hT (by decide)

theorem walk_concatenates (op : Source.BinaryOp) (lt : StaticType) (hr : rhs.Walks p T) :
    Walk p T L b (concatenates op lt rhs) fun _ => True := by
  unfold concatenates
  split
  · exact .pure trivial
  · refine .ite (fun _ => .pure trivial) fun _ => .ite (fun _ => .pure trivial) fun _ => ?_
    exact (Walk.probe hr.value).bind fun _ _ => .pure trivial
  · exact .pure trivial

theorem walk_applyTo (hT : Typing p T) (op : Source.BinaryOp) (lt : StaticType)
    (hr : rhs.Walks p T) (pos : Source.Position) : Walk p T L b (applyTo op lt rhs pos) T := by
  refine (walk_concatenates op lt hr).bind fun _ _ => .ite (fun _ => walk_concat hT op lt hr pos)
    fun _ => hr.value.bind fun rt _ => .ite (fun _ => .pure hT.unknown) fun _ => ?_
  split
  · rename_i ops result hcode
    obtain ⟨_, _, heq, hops, hresult⟩ | ⟨m, hm, heq⟩ := operatorCode?_cases hcode
    · cases heq
      refine (walk_emits (fun o ho => (hops o ho).1) fun o ho h => absurd h (hops o ho).2).seq
        (.pure ?_)
      rcases hresult with rfl | rfl
      · exact hT.int
      · exact hT.bool
    · cases heq
  · rename_i m hcode
    obtain ⟨_, _, heq, -⟩ | ⟨m, hm, heq⟩ := operatorCode?_cases hcode
    · cases heq
    · cases heq
      exact walk_emitLibraryCall hT hm
  · exact walk_badOperands hT ..

theorem walk_branchOnTruth (w : Bool) {l : Label} (h : L (.label l)) :
    Walk p T L b (branchOnTruth w l) fun _ => True := by
  refine .branch ?_ h
  cases w <;> rfl

theorem walk_jumpOnValue {value : Gen StaticType} (hv : Walk p T L b value T)
    (pos : Source.Position) {l : Label} (w : Bool) (h : L (.label l)) :
    Walk p T L b (jumpOnValue value pos l w) fun _ => True :=
  hv.bind fun _ _ => (walk_coerce ..).seq (walk_branchOnTruth w h)

theorem operandKind_comparisonBranch (op : Source.BinaryOp) (w : Bool) :
    (comparisonBranch op w).operandKind = .branch := by
  cases op <;> cases w <;> rfl

theorem walk_jumpOnComparison (hT : Typing p T) (op : Source.BinaryOp) (hl : lhs.Walks p T)
    (hr : rhs.Walks p T) (pos : Source.Position) {l : Label} (w : Bool) (h : L (.label l)) :
    Walk p T L b (jumpOnComparison op lhs rhs pos l w) fun _ => True := by
  refine hl.value.bind fun lt _ => (Walk.probe hr.value).bind fun rt _ => .ite (fun _ => ?_)
    fun _ => ?_
  · exact hr.value.discard.seq (.branch (operandKind_comparisonBranch op w) h)
  · exact (walk_applyTo hT op lt hr pos).bind fun _ _ => (walk_coerce ..).seq (walk_branchOnTruth w h)

/-! ## Expressions -/

theorem walk_nameValue (hT : Typing p T) (name : String) (pos : Source.Position) :
    Walk p T L b (nameValue name pos) T := by
  refine (walk_resolveName hT name).bind fun meaning hmeaning => ?_
  split
  · refine (walk_checkInstance name pos).seq ((walk_loadReceiver hmeaning).seq ?_)
    exact (walk_load hmeaning).seq (.pure (Place.Walks.type hT hmeaning))
  · refine walk_language.bind fun _ _ => .ite (fun _ => ?_) fun _ => walk_refuse hT ..
    exact walk_programCall hT _ _ .none trivial (by simp) _
  · exact walk_refuse hT ..
  · exact walk_refuse hT ..

theorem walk_staticMember (hT : Typing p T) (t : StaticType) (name : String)
    (pos : Source.Position) : Walk p T L b (staticMember t name pos) T := by
  refine Walk.read_bind fun c hc _ _ _ => ?_
  dsimp only
  split
  · split
    · rename_i f hf
      rw [hc] at hf
      refine .ite (fun _ => ?_) fun _ => walk_refuse hT ..
      refine (Walk.emission (.field (by decide) (mem_of_fieldOf? hf))).seq (.pure ?_)
      exact hT.field (mem_of_fieldOf? hf)
    · refine .ite (fun _ => ?_) fun _ => walk_noMember hT ..
      exact walk_programCall hT _ _ .none trivial (by simp) _
  · exact walk_noMember hT ..

theorem mem_all_of_libraryMember? {language : Language} {class_ : Library.Class} {name : String}
    {m : Library.Method} (h : libraryMember? language class_ name = some m) :
    m ∈ Library.Method.all := by
  unfold libraryMember? at h
  rcases Option.or_eq_some_iff.1 h with h | ⟨-, h⟩
  · exact mem_all_of_mem_overloads (List.mem_of_head? h)
  · split at h
    · exact mem_all_of_mem_overloads (List.mem_of_find?_eq_some h)
    · cases h

theorem walk_instanceMember (hT : Typing p T) {target : ExprCode} (ht : target.Walks p T)
    (t : StaticType) (name : String) (pos : Source.Position) :
    Walk p T L b (instanceMember target t name pos) T := by
  refine Walk.read_bind fun c hc _ _ _ => ?_
  have hlibrary {m : Library.Method}
      (hm : t.class?.bind (libraryMember? c.program.language · name) = some m) :
      Walk p T L b (emitLibraryCall m) T := by
    obtain ⟨class_, -, hm⟩ := Option.bind_eq_some_iff.1 hm
    exact walk_emitLibraryCall hT (mem_all_of_libraryMember? hm)
  dsimp only
  split
  · exact .pure hT.unknown
  · refine .ite (fun _ => ?_) fun _ => ?_
    · exact (walk_emit rfl (by decide)).seq ((walk_emit rfl (by decide)).seq (.pure hT.int))
    · split
      · exact hlibrary ‹_›
      · exact walk_noMember hT ..
  · split
    · rename_i f hf
      rw [hc] at hf
      refine .ite (fun _ => walk_refuse hT ..) fun _ => ?_
      refine (Walk.emission (.field (by decide) (mem_of_fieldOf? hf))).seq (.pure ?_)
      exact hT.field (mem_of_fieldOf? hf)
    · refine .ite (fun _ => ?_) fun _ => walk_noMember hT ..
      exact walk_programCall hT _ _ (.expr target) ht (by simp) _
  · split
    · exact hlibrary ‹_›
    · exact walk_noMember hT ..

theorem walk_refuseUnknownName (hT : Typing p T) (e : Source.Expr) :
    Walk p T L b (refuseUnknownName e) T := by
  unfold refuseUnknownName
  split
  · exact walk_refuse hT ..
  · exact .pure hT.unknown

theorem walk_memberValue (hT : Typing p T) {target : ExprCode} (ht : target.Walks p T)
    (name : String) (pos : Source.Position) : Walk p T L b (memberValue target name pos) T := by
  refine (walk_asType? hT _).bind fun r _ => ?_
  split
  · exact walk_staticMember hT ..
  · refine (walk_isUnknownName hT _).bind fun _ _ => .ite (fun _ => walk_refuseUnknownName hT _)
      fun _ => ht.value.bind fun t _ => walk_instanceMember hT ht ..

theorem walk_element (hT : Typing p T) {t : StaticType} (ht : T t) {index : ExprCode}
    (hi : index.Walks p T) (pos : Source.Position) : Walk p T L b (element t index pos) T := by
  unfold element
  split
  · exact hi.value.discard.seq (.pure hT.unknown)
  · refine .ite (fun _ => ?_) fun _ => (walk_typeName _).bind fun _ _ => walk_refuse hT ..
    refine hi.value.bind fun _ _ => (walk_coerce ..).seq ?_
    exact (walk_emit rfl (by decide)).seq (.pure (hT.element ht))
  · exact (walk_typeName _).bind fun _ _ => walk_refuse hT ..

section

variable {args : List ExprCode}

theorem walk_nameCall (hT : Typing p T) (name : String) (namePos : Source.Position)
    (hargs : ∀ a ∈ args, a.Walks p T) (pos : Source.Position) :
    Walk p T L b (nameCall name namePos args pos) T := by
  refine (walk_resolveName hT name).bind fun meaning hmeaning => ?_
  split
  · exact walk_programCall hT _ _ .none trivial hargs _
  · refine walk_language.bind fun _ _ => ?_
    split
    · exact (walk_nameValue hT ..).bind fun t ht => walk_element hT ht (hargs _ (by simp)) _
    · exact walk_refuse hT ..
  · exact walk_refuse hT ..
  · exact walk_refuse hT ..

theorem walk_memberCall (hT : Typing p T) {target : ExprCode} (ht : target.Walks p T)
    (name : String) (hargs : ∀ a ∈ args, a.Walks p T) (pos : Source.Position) :
    Walk p T L b (memberCall target name args pos) T := by
  refine walk_language.bind fun language _ => (walk_asType? hT _).bind fun r _ => ?_
  have hcall (class_ : Library.Class) (kind : Library.CallKind) (t : StaticType) :
      Walk p T L b (libraryCall (Library.Method.overloads language class_ kind name) t name args
        pos) T :=
    walk_libraryCall hT (fun _ => mem_all_of_mem_overloads) t name hargs pos
  split
  · exact walk_programCall hT _ _ .none trivial hargs _
  · split
    · exact hcall ..
    · exact walk_noMember hT ..
  · refine (walk_isUnknownName hT _).bind fun _ _ => .ite (fun _ => walk_refuseUnknownName hT _)
      fun _ => (Walk.probe ht.value).bind fun t _ => ?_
    split
    · exact walk_programCall hT _ _ (.expr target) ht hargs _
    · exact ht.value
    · split
      · exact ht.value.discard.seq (hcall ..)
      · exact walk_noMember hT ..

theorem walk_valueCall (hT : Typing p T) {callee : ExprCode} (hc : callee.Walks p T)
    (hargs : ∀ a ∈ args, a.Walks p T) (pos : Source.Position) :
    Walk p T L b (valueCall callee args pos) T := by
  refine walk_language.bind fun _ _ => ?_
  split
  · exact hc.value.bind fun t ht => walk_element hT ht (hargs _ (by simp)) _
  · exact walk_refuse hT ..

end

theorem walks_plain {source : Source.Expr} {value : Gen StaticType}
    (h : ∀ {L b}, Walk p T L b value T) : (plain source value).Walks p T where
  value := h
  jump w hl := walk_jumpOnValue h _ w hl

theorem walks_truthCode (hT : Typing p T) (pos : Source.Position) (v : Bool) :
    (truthCode pos v).Walks p T where
  value := (Walk.emission (.loadInt _)).seq (.pure hT.bool)
  jump w hl := by
    refine Walk.look_bind (f := fun c _ => c) fun _ => .ite (fun _ => ?_) fun _ => ?_
    · exact .ite (fun _ => .branch rfl hl) fun _ => .pure trivial
    · exact walk_jumpOnValue ((Walk.emission (.loadInt _)).seq (.pure hT.bool)) _ w hl

theorem walk_thisValue (hT : Typing p T) (pos : Source.Position) :
    Walk p T L b (thisValue pos) T := by
  refine Walk.read_bind fun c _ howner _ _ => .ite (fun _ => walk_refuse hT ..) fun _ => ?_
  exact (Walk.emission (.loadArg 0)).seq (.pure howner)

theorem walks_unaryCode (hT : Typing p T) (source : Source.Expr) (op : Source.UnaryOp)
    {operand : ExprCode} (h : operand.Walks p T) : (unaryCode source op operand).Walks p T where
  value := walk_unary hT op h _
  jump w hl := by
    have hvalue {L : Exit → Prop} {b : Freedom} {l : Label} (hl : L (.label l)) :
        Walk p T L b (jumpOnValue (unary op operand source.pos) source.pos l w) fun _ => True :=
      walk_jumpOnValue (walk_unary hT op h _) _ w hl
    refine .ite (fun _ => ?_) fun _ => hvalue hl
    exact (Walk.probe h.value).bind fun _ _ => .ite (fun _ => h.jump _ hl) fun _ => hvalue hl

theorem walks_binaryCode (hT : Typing p T) (source : Source.Expr) (op : Source.BinaryOp)
    {lhs rhs : ExprCode} (hl : lhs.Walks p T) (hr : rhs.Walks p T) :
    (binaryCode source op lhs rhs).Walks p T := by
  unfold binaryCode
  have hboth (isOr : Bool) : ExprCode.Walks p T
      { source, value := shortCircuit isOr lhs rhs, jump := jumpOnBoth isOr lhs rhs } :=
    { value := .shortCircuit isOr (fun _ _ w h => hl.jump w h) fun _ => hr.value
      jump := fun w h => .jumpOnBoth isOr w (fun _ _ w h => hl.jump w h)
        (fun _ _ w h => hr.jump w h) h }
  split
  · exact hboth false
  · exact hboth true
  · have hvalue {L : Exit → Prop} {b : Freedom} :
        Walk p T L b (lhs.value >>= fun lt => applyTo op lt rhs source.pos) T :=
      hl.value.bind fun lt _ => walk_applyTo hT op lt hr _
    refine ⟨hvalue, fun w h => Walk.look_bind (f := fun c _ => c) fun _ => .ite (fun _ => ?_)
      fun _ => walk_jumpOnValue hvalue _ w h⟩
    exact walk_jumpOnComparison hT op hl hr _ w h

end

mutual

/-- **The code of every expression is a walk**, by recursion on the expression. -/
theorem walks_compile (hT : Typing p T) : ∀ e, (compile e).Walks p T
  | .int pos v => walks_plain ((Walk.emission (.loadInt v)).seq (.pure hT.int))
  | .str pos text => walks_plain ((Walk.mention (.string text)).seq (.pure hT.string))
  | .bool pos v => walks_truthCode hT pos v
  | .null pos => walks_plain ((walk_emit rfl (by decide)).seq (.pure hT.null))
  | .this pos => walks_plain (walk_thisValue hT pos)
  | .name pos n => walks_plain (walk_nameValue hT n pos)
  | .typeKeyword pos t => walks_plain (by
      split
      · exact (walk_typeName _).bind fun _ _ => walk_refuse hT ..
      · exact walk_refuse hT ..)
  | .member pos target n => walks_plain (walk_memberValue hT (walks_compile hT target) n pos)
  | .call pos callee args => by
    have hargs := walks_compileAll hT args
    match callee with
    | .name namePos n => exact walks_plain (walk_nameCall hT n namePos hargs pos)
    | .member memberPos target n =>
      exact walks_plain (walk_memberCall hT (walks_compile hT target) n hargs pos)
    | .int .. | .str .. | .bool .. | .null .. | .this .. | .typeKeyword .. | .call .. | .new ..
    | .index .. | .unary .. | .binary .. =>
      exact walks_plain (walk_valueCall hT (walks_compile hT _) hargs pos)
  | .new pos type args => walks_plain (walk_newObject hT type (walks_compileAll hT args) pos)
  | .index pos target index =>
    walks_plain ((walks_compile hT target).value.bind fun _ ht =>
      walk_element hT ht (walks_compile hT index) pos)
  | .unary pos op operand => walks_unaryCode hT _ op (walks_compile hT operand)
  | .binary pos op lhs rhs =>
    walks_binaryCode hT _ op (walks_compile hT lhs) (walks_compile hT rhs)

theorem walks_compileAll (hT : Typing p T) : ∀ es, ∀ a ∈ compileAll es, a.Walks p T
  | [] => fun a ha => absurd ha List.not_mem_nil
  | e :: rest => fun a ha => by
    rcases List.mem_cons.1 ha with rfl | ha
    · exact walks_compile hT e
    · exact walks_compileAll hT rest a ha

end

theorem walk_evaluate (hT : Typing p T) (e : Source.Expr) : Walk p T L b (evaluate e) T :=
  (walks_compile hT e).value

/-! ## Statements -/

theorem walk_staticTarget (hT : Typing p T) (t : StaticType) (name : String)
    (pos : Source.Position) :
    Walk p T L b (staticTarget t name pos) fun r => ∀ q, r = some q → q.Walks p T := by
  unfold staticTarget
  split
  · refine Walk.read_bind fun c hc _ _ _ => ?_
    split
    · rename_i f hf
      rw [hc] at hf
      refine .ite (fun _ => .pure fun q hq => ?_) fun _ => (Walk.report ..).seq (.pure (by simp))
      cases hq
      exact ⟨⟨_, mem_of_fieldOf? hf⟩, trivial⟩
    · exact (walk_noMember hT ..).discard.seq (.pure (by simp))
  · exact (Walk.report ..).seq (.pure (by simp))

theorem walk_instanceTarget (hT : Typing p T) {receiver : ExprCode} (hr : receiver.Walks p T)
    (name : String) (pos : Source.Position) :
    Walk p T L b (instanceTarget receiver name pos) fun r => ∀ q, r = some q → q.Walks p T := by
  refine (Walk.probe hr.value).bind fun t _ => ?_
  split
  · refine Walk.read_bind fun c hc _ _ _ => ?_
    split
    · rename_i f hf
      rw [hc] at hf
      refine .pure fun q hq => ?_
      cases hq
      refine ⟨⟨_, mem_of_fieldOf? hf⟩, ?_⟩
      split
      · trivial
      · exact hr
    · exact (walk_noMember hT ..).discard.seq (.pure (by simp))
  · exact hr.value.discard.seq (.pure (by simp))
  · exact (Walk.report ..).seq (.pure (by simp))

theorem walk_target (hT : Typing p T) (e : Source.Expr) :
    Walk p T L b (target e) fun r => ∀ q, r = some q → q.Walks p T := by
  unfold target
  split
  · refine (walk_resolveName hT _).bind fun meaning hmeaning => ?_
    split
    · refine (walk_checkInstance ..).seq (.pure fun q hq => ?_)
      cases hq
      exact hmeaning
    · exact (Walk.report ..).seq (.pure (by simp))
    · exact (Walk.report ..).seq (.pure (by simp))
  · refine (walk_asType? hT _).bind fun r _ => ?_
    split
    · exact walk_staticTarget hT ..
    · exact walk_instanceTarget hT (walks_compile hT _) ..
  · exact (Walk.report ..).seq (.pure (by simp))

theorem walk_loadForUpdate {place : Place} (h : place.Walks p T) :
    Walk p T L b (loadForUpdate place) fun _ => True := by
  refine (walk_loadReceiver h).seq ?_
  split
  · exact (walk_emit rfl (by decide)).seq (walk_load h)
  · exact walk_load h

theorem walk_assign (hT : Typing p T) (to_ : Source.Expr) (op : Source.AssignOp)
    (value : Source.Expr) (hb : b ≠ .reads) :
    Walk p T L b (assign to_ op value) fun _ => True := by
  refine (walk_target hT to_).bind fun r hr => ?_
  split
  · exact (walk_evaluate hT value).discard
  · rename_i place
    have hplace := hr place rfl
    split
    · refine (walk_loadReceiver hplace).seq ((walk_evaluate hT value).bind fun _ _ => ?_)
      exact (walk_coerce ..).seq ((walk_noteAssigned _ hb).seq (walk_store hplace))
    · refine (walk_loadForUpdate hplace).seq ?_
      refine (walk_applyTo hT _ _ (walks_compile hT value) _).bind fun _ _ => ?_
      exact (walk_coerce ..).seq ((walk_noteAssigned _ hb).seq (walk_store hplace))

theorem walk_increment (hT : Typing p T) (to_ : Source.Expr) (delta : Int32)
    (hb : b ≠ .reads) : Walk p T L b (increment to_ delta) fun _ => True := by
  refine (walk_target hT to_).bind fun r hr => ?_
  split
  · rename_i place
    have hplace := hr place rfl
    refine .ite (fun _ => ?_) fun _ => (walk_typeName _).bind fun _ _ => .report ..
    refine (walk_loadForUpdate hplace).seq ((Walk.emission (.loadInt 1)).seq ?_)
    refine (walk_emit ?_ ?_).seq ((walk_noteAssigned _ hb).seq (walk_store hplace))
    · split <;> rfl
    · split <;> decide
  · exact .pure trivial

theorem walk_inferredType (hT : Typing p T) (init : Option Source.Expr) (pos : Source.Position) :
    Walk p T L b (inferredType init pos) T := by
  refine Walk.read_bind fun c _ _ _ _ => walk_language.bind fun _ _ => ?_
  split
  · refine .ite (fun _ => ?_) fun _ => walk_refuse hT ..
    refine (Walk.probe (walk_evaluate hT _)).bind fun t ht => ?_
    split
    · exact walk_refuse hT ..
    · exact walk_refuse hT ..
    · exact .pure ht
  · exact .ite (fun _ => .pure hT.object) fun _ => walk_refuse hT ..
  · refine .ite (fun _ => ?_) fun _ => .pure hT.object
    refine (Walk.probe (walk_evaluate hT _)).bind fun t ht => ?_
    split
    · exact .pure hT.object
    · exact .pure hT.object
    · exact .pure hT.object
    · exact .pure ht
  · exact .pure hT.object

theorem walk_localStatement (hT : Typing p T) (name : String) (type : Option Source.TypeUse)
    (init : Option Source.Expr) (pos : Source.Position) :
    Walk p T L .declares (localStatement name type init pos) fun _ => True := by
  unfold localStatement
  rcases type with _ | type
  case' none => refine (walk_inferredType hT init pos).bind fun t ht => ?_
  case' some => refine (Walk.resolveType type).bind fun t ht => ?_
  all_goals
    refine (Walk.declareLocal name pos ht).bind fun r _ => ?_
    split
    · split
      · refine (walk_evaluate hT _).bind fun _ _ => (walk_coerce ..).seq ?_
        exact (Walk.emission (.storeLocal _)).seq (walk_markAssigned _ _ (by decide))
      · exact .pure trivial
    · exact .pure trivial

theorem walk_returnStatement (hT : Typing p T) (value : Option Source.Expr)
    (pos : Source.Position) : Walk p T L .declares (returnStatement value pos) fun _ => True := by
  refine Walk.read_bind fun c _ _ _ hret => ?_
  dsimp only
  split
  · refine .ite (fun _ => (Walk.report ..).seq (walk_evaluate hT _).discard) fun _ => ?_
    exact (walk_evaluate hT _).bind fun _ _ => (walk_coerce ..).seq (.leaveMethod hret)
  · refine .ite (fun _ => .leaveMethod hret) fun _ => ?_
    exact (walk_typeName _).bind fun _ _ => .report ..

theorem walk_throwStatement (hT : Typing p T) (value : Option Source.Expr)
    (pos : Source.Position) : Walk p T L b (throwStatement value pos) fun _ => True := by
  unfold throwStatement
  split
  · refine (walk_evaluate hT _).bind fun t _ => ?_
    split
    · exact walk_emit rfl (by decide)
    · exact (Walk.report ..).seq (walk_emit rfl (by decide))
  · exact Walk.look_bind (f := fun c _ => c) fun _ =>
      .ite (fun _ => walk_emit rfl (by decide)) fun _ => .report ..

theorem statement_try (pos : Source.Position) (body : List Source.Stmt)
    (handler : Option (Source.CatchHead × List Source.Stmt))
    (finally_ : Option (List Source.Stmt)) :
    statement (.try_ pos body handler finally_) = (do
      point pos
      tryStatement (statements body) (handler.map fun h => (h.1, statements h.2))
        (finally_.map statements)) := by
  cases handler with
  | none => cases finally_ <;> rfl
  | some h => obtain ⟨head, body⟩ := h; cases finally_ <;> rfl

mutual

/-- **The code of every statement is a walk**, by recursion on the statement. -/
theorem walk_statement (hT : Typing p T) :
    ∀ s L, Walk p T L .declares (statement s) fun _ => True
  | .local_ pos name type init, _ => (walk_point pos).seq (walk_localStatement hT name type init pos)
  | .assign pos to_ op value, _ => (walk_point pos).seq (walk_assign hT to_ op value (by decide))
  | .increment pos to_ delta, _ => (walk_point pos).seq (walk_increment hT to_ delta (by decide))
  | .expr pos e, _ =>
    (walk_point pos).seq ((walk_evaluate hT e).bind fun _ _ =>
      .ite (fun _ => walk_emit rfl (by decide)) fun _ => .pure trivial)
  | .if_ pos cond then_ none, _ =>
    (walk_point pos).seq (.ifStatement (fun _ _ w hl => (walks_compile hT cond).jump w hl)
      (walk_statements hT then_) (by simp))
  | .if_ pos cond then_ (some else_), _ =>
    (walk_point pos).seq (.ifStatement (fun _ _ w hl => (walks_compile hT cond).jump w hl)
      (walk_statements hT then_) fun g hg => by cases hg; exact walk_statements hT else_)
  | .while_ pos kind cond body none, _ =>
    (walk_point pos).seq (.whileLoop kind (fun e _ _ _ w hl => (walks_compile hT e).jump w hl)
      (walk_statements hT body) (by simp))
  | .while_ pos kind cond body (some step), _ =>
    (walk_point pos).seq (.whileLoop kind (fun e _ _ _ w hl => (walks_compile hT e).jump w hl)
      (walk_statements hT body) fun g hg => by cases hg; exact walk_statement hT step)
  | .doWhile pos body cond until_, _ =>
    (walk_point pos).seq (.doLoop until_ (walk_statements hT body)
      fun _ _ w hl => (walks_compile hT cond).jump w hl)
  | .break_ pos kind, _ => (walk_point pos).seq (.loopJump kind true pos)
  | .continue_ pos kind, _ => (walk_point pos).seq (.loopJump kind false pos)
  | .return_ pos value, _ => (walk_point pos).seq (walk_returnStatement hT value pos)
  | .throw_ pos value, _ => (walk_point pos).seq (walk_throwStatement hT value pos)
  | .try_ pos body handler finally_, _ => by
      rw [statement_try]
      refine (walk_point pos).seq
        (.tryStatement (walk_statements hT body) (fun head g hg => ?_) fun g hg => ?_)
      · match handler, hg with
        | some (_, body), rfl => exact walk_statements hT body
      · match finally_, hg with
        | some body, rfl => exact walk_statements hT body
  | .block _ body, L => .inScope (walk_statements hT body L)

theorem walk_statements (hT : Typing p T) :
    ∀ ss L, Walk p T L .declares (statements ss) fun _ => True
  | [], _ => .pure trivial
  | s :: rest, L => (walk_statement hT s L).seq (walk_statements hT rest L)

end

/-! ## Methods

The end of a declared method binds the label of the common exit, which was opened in the middle of
some statement. So a method is a walk with the common exit behind it. -/

/-- The return at the end of a method, if the end can be reached. -/
def finalReturn (decl : Source.MethodDecl) : Gen Unit := do
  let method := (← read).method
  if ← isReachable then
    point decl.endPos
    if method.ret = .void then blockMark
    else
      report decl.pos (.notAllPathsReturn method.name)
      loadDefault method.ret
    emit .ret

/-- The exit of returns inside protected regions, if there are any. -/
def commonExit : Gen Unit := do
  if let some (label, slot) := (← get).exit then
    mark label
    if let some slot := slot then edit (·.loadLocal slot)
    emit .ret

/-- A declared method up to its common exit. -/
def mainPart (decl : Source.MethodDecl) : Gen Unit := do
  point decl.pos
  blockMark
  inScope (statements decl.body)
  finalReturn decl

theorem declaredBody_eq (decl : Source.MethodDecl) :
    declaredBody decl = mainPart decl >>= fun _ => commonExit := by
  have hend : endOfMethod decl = finalReturn decl >>= fun _ => commonExit := by
    simp only [endOfMethod, finalReturn, bind_assoc]
    congr 1; funext c
    congr 1; funext reachable
    cases reachable with
    | false => simp only [Bool.false_eq_true, if_false, pure_bind]; rfl
    | true =>
      by_cases h : c.method.ret = .void
      · simp only [if_true, h, bind_assoc]; rfl
      · simp only [if_true, if_neg h, bind_assoc]; rfl
  simp only [declaredBody, mainPart, hend, bind_assoc]

theorem walk_finalReturn (decl : Source.MethodDecl) (hL : L .ret) :
    Walk p T L b (finalReturn decl) fun _ => True := by
  refine Walk.read_bind fun c _ _ _ _ => walk_isReachable.bind fun _ _ => .ite (fun _ => ?_)
    fun _ => .pure trivial
  refine (walk_point _).seq ?_
  dsimp only
  split
  · exact walk_blockMark.seq (.ret hL)
  · exact (Walk.report ..).seq ((walk_loadDefault _).seq (.ret hL))

theorem walk_mainPart (hT : Typing p T) (decl : Source.MethodDecl) (hL : L .ret) :
    Walk p T L .declares (mainPart decl) fun _ => True :=
  (walk_point _).seq
    (walk_blockMark.seq ((Walk.inScope (walk_statements hT _ _)).seq (walk_finalReturn decl hL)))

theorem walk_initializeField (hT : Typing p T) {i : Nat} {f : Field}
    (hf : f ∈ (p.membersOf i).fields) : Walk p T L b (initializeField f) fun _ => True := by
  have hstore (init : Source.Expr) {op : Opcode} (hop : op ∈ [.ldfld, .stfld, .ldsfld, .stsfld]) :
      Walk p T L b (do
        coerce (← evaluate init) f.type init.pos
        edit (·.emitToken op f.token)) fun _ => True :=
    (walk_evaluate hT init).bind fun _ _ => (walk_coerce ..).seq (.emission (.field hop hf))
  unfold initializeField
  split
  · refine (walk_point _).seq ?_
    split
    · exact hstore _ (by decide)
    · exact (Walk.emission (.loadArg 0)).seq (hstore _ (by decide))
  · exact .pure trivial

theorem walk_initializeFields (hT : Typing p T) (static_ : Bool) :
    Walk p T L b (initializeFields static_) fun _ => True := by
  refine Walk.read_bind fun c hc _ _ _ => .forM fun f hf => ?_
  rw [hc] at hf
  exact walk_initializeField hT (List.mem_filter.1 hf).1

theorem walk_ctorBody (hT : Typing p T) (hL : L .ret) : Walk p T L b ctorBody fun _ => True := by
  have hbase : Walk p T L b (do
      edit (·.loadArg 0)
      let token ← methodToken .objectCtor
      edit (·.emitCall .call token 1 0)) fun _ => True :=
    (Walk.emission (.loadArg 0)).seq (.mention (.method 1 0 (by decide) (by decide)))
  have hend : Walk p T L b (blockMark >>= fun _ => emit .ret) fun _ => True :=
    walk_blockMark.seq (.ret hL)
  refine walk_language.bind fun l _ => ?_
  cases l with
  | csharp => exact (walk_initializeFields hT false).seq (hbase.seq hend)
  | visualBasic => exact hbase.seq ((walk_initializeFields hT false).seq hend)

theorem walk_cctorBody (hT : Typing p T) (hL : L .ret) : Walk p T L b cctorBody fun _ => True :=
  (walk_initializeFields hT true).seq (.ret hL)

end CilScope.Lowering
