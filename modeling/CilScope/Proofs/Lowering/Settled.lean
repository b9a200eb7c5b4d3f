import CilScope.Proofs.Lowering.Frame

/-!
# The type of an expression is settled

The lowering asks for the type of an expression by compiling it on a draft of its own, muted. What makes
this an answer is that the type depends on nothing but where the walk is and on the names, slots and types
of the locals in scope. `Settled` says so of a step, `settled_evaluate` shows it of every expression, and
`probe_evaluate` is what probing yields.
-/

namespace CilScope

namespace Source

mutual

/-- The names that stand in an expression by themselves. -/
def Expr.names : Expr → List String
  | .name _ n => [n]
  | .member _ target _ => target.names
  | .call _ callee args => callee.names ++ Expr.namesAll args
  | .new _ _ args => Expr.namesAll args
  | .index _ target i => target.names ++ i.names
  | .unary _ _ operand => operand.names
  | .binary _ _ lhs rhs => lhs.names ++ rhs.names
  | .int .. | .str .. | .bool .. | .null _ | .this _ | .typeKeyword .. => []

/-- The names that stand in some expressions. -/
def Expr.namesAll : List Expr → List String
  | [] => []
  | e :: rest => e.names ++ Expr.namesAll rest

end

end Source

namespace Lowering

open Source (Expr)

/-- The local that a name means, as far as the view shows it. -/
theorem view_findLocal? (language : Language) (scopes : List (List Local)) (name : String) :
    (findLocal? language scopes name).map Local.view =
      (scopes.map (·.map Local.view)).findSome? (·.find? (language.sameName ·.1 name)) := by
  induction scopes with
  | nil => rfl
  | cons scope scopes ih =>
    rw [findLocal?, List.map_cons, List.findSome?_cons, List.findSome?_cons, List.find?_map]
    have hpred : (fun v => language.sameName v.1 name) ∘ Local.view =
        fun l : Local => language.sameName l.name name := rfl
    rw [hpred]
    cases scope.find? fun l => language.sameName l.name name with
    | none => exact ih
    | some l => rfl

/-- What a name means depends on what the view shows of the locals. -/
theorem resolve_eq (c : Context) {s s' : State} (h : s'.view = s.view) (name : String) :
    c.resolve s'.scopes name = c.resolve s.scopes name := by
  have hlocal : (findLocal? c.program.language s'.scopes name).map Local.view =
      (findLocal? c.program.language s.scopes name).map Local.view := by
    rw [view_findLocal?, view_findLocal?]
    exact congrArg (List.findSome? _) h
  unfold Context.resolve
  cases hl : findLocal? c.program.language s.scopes name with
  | none =>
    rw [hl, Option.map_none, Option.map_eq_none_iff] at hlocal
    rw [hlocal]
  | some l =>
    rw [hl, Option.map_some] at hlocal
    obtain ⟨l', hl', hview⟩ := Option.map_eq_some_iff.1 hlocal
    rw [hl']
    simp only [Local.view, Prod.mk.injEq] at hview
    have hplace : Place.local_ l'.slot l'.type = .local_ l.slot l.type := by rw [hview.2.1, hview.2.2]
    exact congrArg Meaning.place hplace

/-- The names in `N` mean the same where the locals are those of `s` and where they are those of `s'`. -/
def SameMeaning (N : String → Prop) (c : Context) (s s' : State) : Prop :=
  ∀ n, N n → c.resolve s'.scopes n = c.resolve s.scopes n

/-- The result of the step depends on the locals by what the names in `N` mean. It does not depend on the
draft, on the log, on the references, or on whether the step is muted, and the step changes nothing that it
does depend on. -/
structure SettledBy (p : Program) (N : String → Prop) {α : Type} (g : Gen α) : Prop where
  same : ∀ (c : Context) (m : Bool) (s s' : State), c.program = p → SameMeaning N c s s' →
    (g { c with muted := m } s').1 = (g c s).1
  view : ∀ c s, c.program = p → (g c s).2.view = s.view

variable {p : Program} {N : String → Prop}

namespace SettledBy

variable {α β : Type} {g g' : Gen α} {k : α → Gen β} {Q : α → Prop}

/-- A step, and another one for each result that the first one can have. -/
theorem bind_of (hg : SettledBy p N g) (hQ : ∀ c s, c.program = p → Q (g c s).1)
    (hk : ∀ a, Q a → SettledBy p N (k a)) : SettledBy p N (g >>= k) where
  same c m s s' hp hs := by
    rw [apply_bind, apply_bind, hg.same c m s s' hp hs]
    refine (hk _ (hQ c s hp)).same c m _ _ hp fun n hn => ?_
    rw [resolve_eq c (hg.view { c with muted := m } s' hp), resolve_eq c (hg.view c s hp), hs n hn]
  view c s hp := ((hk _ (hQ c s hp)).view c _ hp).trans (hg.view c s hp)

theorem bind (hg : SettledBy p N g) (hk : ∀ a, SettledBy p N (k a)) : SettledBy p N (g >>= k) :=
  hg.bind_of (Q := fun _ => True) (fun _ _ _ => trivial) fun a _ => hk a

/-- A step whose result is known to have `Q`. -/
theorem walk_bind (hg : SettledBy p N g) (hQ : Walk p (fun _ => True) (fun _ => False) .assigns g Q)
    (hk : ∀ a, Q a → SettledBy p N (k a)) : SettledBy p N (g >>= k) :=
  hg.bind_of (fun c s hp => (hQ.quiet (typing_any p) nofun c s (hp ▸ sees_any c s)).2) hk

theorem seq {g : Gen Unit} {k : Gen β} (hg : SettledBy p N g) (hk : SettledBy p N k) :
    SettledBy p N (g >>= fun _ => k) :=
  hg.bind fun _ => hk

theorem look {f : Context → State → α}
    (h : ∀ (c : Context) m s s', SameMeaning N c s s' → f { c with muted := m } s' = f c s) :
    SettledBy p N fun c s => (f c s, s) :=
  ⟨fun c m s s' _ => h c m s s', fun _ _ _ => rfl⟩

theorem pure {a : α} : SettledBy p N (Pure.pure a) := look (f := fun _ _ => a) fun _ _ _ _ _ => rfl

/-- A look at what of the context is the same if it is muted. -/
theorem read_bind {k : Context → Gen β} (hk : ∀ (c : Context) m, k { c with muted := m } = k c)
    (h : ∀ c, c.program = p → SettledBy p N (k c)) : SettledBy p N (read >>= k) where
  same c m s s' hp hs := by
    show (k { c with muted := m } { c with muted := m } s').1 = (k c c s).1
    rw [hk]
    exact (h c hp).same c m s s' hp hs
  view c s hp := (h c hp).view c s hp

/-- A walk whose result is always the same. -/
theorem const {a : α} (hg : Walk p (fun _ => True) (fun _ => False) .assigns g Q)
    (h : ∀ c s, (g c s).1 = a) : SettledBy p N g where
  same c _ s s' _ _ := (h _ s').trans (h c s).symm
  view c s hp := (hg.quiet (typing_any p) nofun c s (hp ▸ sees_any c s)).1.view

theorem step {g : Gen Unit} {Q : Unit → Prop}
    (hg : Walk p (fun _ => True) (fun _ => False) .assigns g Q) : SettledBy p N g :=
  const (a := ()) hg fun _ _ => rfl

theorem ite {c : Prop} [Decidable c] (hg : SettledBy p N g) (hg' : SettledBy p N g') :
    SettledBy p N (if c then g else g') := by
  split
  · exact hg
  · exact hg'

theorem probe (hg : SettledBy p N g) : SettledBy p N (probe g) where
  same c _ s s' hp hs :=
    hg.same { c with muted := true } true { s with draft := {} } { s' with draft := {} } hp hs
  view c s hp := hg.view { c with muted := true } { s with draft := {} } hp

theorem mapM {α : Type} {xs : List α} {f : α → Gen β} (h : ∀ x ∈ xs, SettledBy p N (f x)) :
    SettledBy p N (xs.mapM f) := by
  induction xs with
  | nil => exact pure
  | cons x xs ih =>
    rw [List.mapM_cons]
    refine (h x (List.mem_cons_self ..)).bind fun _ => ?_
    exact (ih fun y hy => h y (List.mem_cons_of_mem _ hy)).bind fun _ => pure

end SettledBy

/-- The code of an expression is made of walks, and its type is settled by names that stand in it. -/
structure ExprCode.Settles (p : Program) (N : String → Prop) (code : ExprCode) : Prop where
  walks : code.Walks p fun _ => True
  value : SettledBy p N code.value
  names : ∀ n ∈ code.source.names, N n

/-! ## Small steps -/

theorem settled_language : SettledBy p N language :=
  .look (f := fun c _ => c.program.language) fun _ _ _ _ _ => rfl

theorem settled_typeName (t : StaticType) : SettledBy p N (typeName t) :=
  .look (f := fun c _ => c.program.typeName t) fun _ _ _ _ _ => rfl

theorem settled_refuse (pos : Source.Position) (cause : Cause) : SettledBy p N (refuse pos cause) :=
  .const (walk_refuse (typing_any p) pos cause) fun _ _ => rfl

theorem settled_noMember (t : StaticType) (name : String) (pos : Source.Position) :
    SettledBy p N (noMember t name pos) := by
  refine .const (a := .unknown) (walk_noMember (typing_any p) t name pos) fun c s => ?_
  unfold noMember
  split <;> rfl

/-! ## Names -/

theorem settled_resolveName {name : String} (h : N name) : SettledBy p N (resolveName name) :=
  .look (f := fun c s => c.resolve s.scopes name) fun _ _ _ _ hs => hs name h

theorem mem_names_of_rootName? : ∀ {e : Expr} {n : String}, Context.rootName? e = some n → n ∈ e.names
  | .name .., _, h => by
    cases h
    exact List.mem_singleton_self _
  | .member _ target _, _, h => mem_names_of_rootName? (e := target) h
  | .int .., _, h | .str .., _, h | .bool .., _, h | .null _, _, h | .this _, _, h
  | .typeKeyword .., _, h | .call .., _, h | .new .., _, h | .index .., _, h | .unary .., _, h
  | .binary .., _, h => by cases h

theorem asType?_eq {c : Context} {s s' : State} (h : SameMeaning N c s s') {e : Expr}
    (he : ∀ n ∈ e.names, N n) : c.asType? s'.scopes e = c.asType? s.scopes e := by
  cases e with
  | name pos n => rw [Context.asType?, Context.asType?, h n (he n (List.mem_singleton_self _))]
  | member pos target n =>
    rw [Context.asType?, Context.asType?]
    cases hroot : Context.rootName? target with
    | none => rfl
    | some root =>
      rw [Option.map_some, Option.map_some, h root (he root (mem_names_of_rootName? hroot))]
  | int | str | bool | null | this | typeKeyword | call | new | index | unary | binary => rfl

theorem settled_asType? {e : Expr} (he : ∀ n ∈ e.names, N n) : SettledBy p N (asType? e) :=
  .look (f := fun c s => c.asType? s.scopes e) fun _ _ _ _ hs => asType?_eq hs he

theorem settled_isUnknownName {e : Expr} (he : ∀ n ∈ e.names, N n) :
    SettledBy p N (isUnknownName e) := by
  unfold isUnknownName
  split
  · exact (settled_resolveName (he _ (List.mem_singleton_self _))).bind fun _ => .pure
  · exact .pure

/-! ## Calls -/

/-- The type that a written type means does not depend on what was reported before. -/
theorem resolve_run_eq (i : Nat) (pos : Source.Position) (log log' : Log) :
    ∀ t : Source.TypeName, ((p.resolve i pos t).run log').1 = ((p.resolve i pos t).run log).1
  | .void | .int | .bool | .string | .object => rfl
  | .array e => by
    have he := resolve_run_eq i pos log log' e
    simp only [Outline.resolve, StateT.run_bind]
    generalize (p.resolve i pos e).run log = r at he ⊢
    generalize (p.resolve i pos e).run log' = r' at he ⊢
    obtain ⟨t, log₁⟩ := r
    obtain ⟨t', log₁'⟩ := r'
    cases (show t' = t from he)
    cases t <;> rfl
  | .named name => by
    simp only [Outline.resolve]
    cases p.lookup? i name <;> rfl

theorem settled_resolveType (t : Source.TypeUse) : SettledBy p N (resolveType t) where
  same c m s s' hp _ := by
    rw [resolveType_apply, resolveType_apply]
    exact resolve_run_eq _ _ _ _ _
  view c s hp := by
    rw [resolveType_apply]
    dsimp only
    split <;> rfl

theorem settled_emitLibraryCall {m : Library.Method} (hm : m ∈ Library.Method.all) :
    SettledBy p N (emitLibraryCall m) := by
  refine .const (a := m.ret) (walk_emitLibraryCall (typing_any p) hm) fun c s => ?_
  unfold emitLibraryCall
  by_cases h : m.kind = .instance_
  · simp only [if_pos h]
    rfl
  · simp only [if_neg h]
    rfl

theorem settled_emitCall {i : Nat} {m : Method} (hm : m ∈ (p.membersOf i).methods) (virtual_ : Bool) :
    SettledBy p N (emitCall m virtual_) :=
  .const (walk_emitCall (typing_any p) hm virtual_) fun _ _ => rfl

section

variable {args : List ExprCode}

theorem walks (hargs : ∀ a ∈ args, a.Settles p N) : ∀ a ∈ args, a.Walks p fun _ => True :=
  fun a ha => (hargs a ha).walks

theorem settled_choose {α : Type} (params : α → List StaticType) (candidates : List α) (name : String)
    (hargs : ∀ a ∈ args, a.Settles p N) (pos : Source.Position) :
    SettledBy p N (choose params candidates name args pos) := by
  unfold choose
  refine (SettledBy.mapM fun a ha => (hargs a ha).value.probe).bind fun types => .ite ?_ ?_
  · refine SettledBy.seq (.step (Walk.forIn fun a ha => ?_)) .pure
    exact (hargs a ha).walks.value.discard.seq (.pure trivial)
  · dsimp only
    split
    · exact .pure
    · split
      · exact SettledBy.seq (.step (.report ..)) .pure
      · split
        · split
          · refine SettledBy.bind (settled_typeName _) fun _ => (settled_typeName _).bind fun _ => ?_
            exact SettledBy.seq (.step (.report ..)) .pure
          · exact .pure
        · exact .pure

theorem settled_arguments (params : List StaticType) (hargs : ∀ a ∈ args, a.Settles p N) :
    SettledBy p N (arguments params args) :=
  .step (walk_arguments params (walks hargs))

theorem settled_libraryCall {candidates : List Library.Method}
    (hc : ∀ m ∈ candidates, m ∈ Library.Method.all) (owner : StaticType) (name : String)
    (hargs : ∀ a ∈ args, a.Settles p N) (pos : Source.Position) :
    SettledBy p N (libraryCall candidates owner name args pos) := by
  refine .ite (settled_noMember ..) ?_
  refine (settled_choose _ _ _ hargs _).walk_bind (walk_choose _ _ _ (walks hargs) _) fun r hr => ?_
  cases r with
  | none => exact .pure
  | some m => exact (settled_arguments _ hargs).seq (settled_emitLibraryCall (hc m (hr m rfl)))

/-- What a receiver's code has to be. -/
def Receiver.Settles (p : Program) (N : String → Prop) : Receiver → Prop
  | .expr code => code.Settles p N
  | _ => True

theorem settled_programCall (owner : Nat) (name : String) (receiver : Receiver)
    (hr : receiver.Settles p N) (hargs : ∀ a ∈ args, a.Settles p N) (pos : Source.Position) :
    SettledBy p N (programCall owner name receiver args pos) := by
  refine SettledBy.read_bind (fun _ _ => rfl) fun c hc => .ite (settled_noMember ..) ?_
  refine (settled_choose _ _ _ hargs _).walk_bind (walk_choose _ _ _ (walks hargs) _) fun r hm => ?_
  cases r with
  | none => exact .pure
  | some m =>
    have hm : m ∈ (p.membersOf owner).methods := by
      have := hm m rfl
      rw [hc] at this
      exact (List.mem_filter.1 this).1
    have hcall (v : Bool) : SettledBy p N (arguments m.params args >>= fun _ => emitCall m v) :=
      (settled_arguments _ hargs).seq (settled_emitCall hm v)
    dsimp only
    split
    · exact settled_language.bind fun _ => .ite (settled_refuse ..) (hcall false)
    · exact hcall false
    · exact SettledBy.seq (.step hr.walks.value.discard) (hcall _)
    · refine SettledBy.read_bind (fun _ _ => rfl) fun _ _ => .ite (settled_refuse ..) ?_
      exact SettledBy.seq (.step (.emission (.loadArg 0))) (hcall false)

theorem settled_newLibraryObject (class_ : Library.Class) (type : StaticType)
    (hargs : ∀ a ∈ args, a.Settles p N) (pos : Source.Position) :
    SettledBy p N (newLibraryObject class_ type args pos) := by
  refine settled_language.bind fun _ => ?_
  refine (settled_choose _ _ _ hargs _).walk_bind (walk_choose _ _ _ (walks hargs) _) fun r hr => ?_
  cases r with
  | none => exact .pure
  | some m =>
    refine (settled_arguments _ hargs).seq (.const (a := type) (Q := fun _ => True) ?_ fun _ _ => rfl)
    have hm := mem_all_of_mem_overloads (hr m rfl)
    exact (Walk.mention (.method _ _ hm (by decide))).seq (.pure trivial)

theorem settled_newObject (type : Source.TypeUse) (hargs : ∀ a ∈ args, a.Settles p N)
    (pos : Source.Position) : SettledBy p N (newObject type args pos) := by
  refine SettledBy.read_bind (fun _ _ => rfl) fun c hc => (settled_resolveType type).bind fun t => ?_
  split
  · exact .pure
  · rename_i index
    refine .ite ((settled_typeName _).bind fun _ => settled_refuse ..) ?_
    split
    · exact .pure
    · rename_i ctor hctor
      have hm : ctor ∈ (p.membersOf index).methods := by
        rw [hc] at hctor
        exact List.mem_of_find?_eq_some hctor
      refine .ite (SettledBy.seq (.step (.emission (.method ?_ hm))) .pure) (settled_refuse ..)
      decide
  · exact settled_newLibraryObject _ _ hargs _
  · exact settled_newLibraryObject _ _ hargs _
  · exact (settled_typeName _).bind fun _ => settled_refuse ..

end

/-! ## Operators -/

section

variable {lhs rhs : ExprCode}

theorem settled_emits {ops : List Opcode} (h : ∀ op ∈ ops, op.operandKind = .none ∧ op ≠ .ret) :
    SettledBy p N (ops.forM emit) :=
  .step (walk_emits (fun o ho => (h o ho).1) fun o ho hret => absurd hret (h o ho).2)

theorem settled_badOperands (op : Source.BinaryOp) (lt rt : StaticType) (pos : Source.Position) :
    SettledBy p N (badOperands op lt rt pos) :=
  settled_language.bind fun _ => (settled_typeName _).bind fun _ => (settled_typeName _).bind fun _ =>
    settled_refuse ..

theorem settled_unary (op : Source.UnaryOp) {operand : ExprCode} (h : operand.Settles p N)
    (pos : Source.Position) : SettledBy p N (unary op operand pos) := by
  refine h.value.bind fun t => .ite .pure (settled_language.bind fun l => ?_)
  split
  · exact SettledBy.seq (settled_emits (operandKind_of_unaryCode? ‹_›)) .pure
  · exact settled_language.bind fun _ => (settled_typeName _).bind fun _ => settled_refuse ..

theorem settled_box (t : StaticType) : SettledBy p N (box t) := .step (walk_box t)

theorem settled_coerce (source target : StaticType) (pos : Source.Position) :
    SettledBy p N (coerce source target pos) :=
  .step (walk_coerce source target pos)

theorem settled_concat (op : Source.BinaryOp) (lt : StaticType) (hr : rhs.Settles p N)
    (pos : Source.Position) : SettledBy p N (concat op lt rhs pos) := by
  have hdiscard : SettledBy p N (discard rhs.value) := .step hr.walks.value.discard
  refine hr.value.probe.bind fun rt => .ite (hdiscard.seq .pure) (.ite ?_ (.ite ?_ ?_))
  · exact hdiscard.seq (settled_badOperands ..)
  · exact hdiscard.seq (settled_emitLibraryCall (by decide))
  · refine (settled_box lt).seq (hr.value.bind fun t => (settled_box t).seq ?_)
    exact settled_emitLibraryCall (by decide)

theorem settled_concatenates (op : Source.BinaryOp) (lt : StaticType) (hr : rhs.Settles p N) :
    SettledBy p N (concatenates op lt rhs) := by
  unfold concatenates
  split
  · exact .pure
  · exact .ite .pure (.ite .pure (hr.value.probe.bind fun _ => .pure))
  · exact .pure

theorem settled_applyTo (op : Source.BinaryOp) (lt : StaticType) (hr : rhs.Settles p N)
    (pos : Source.Position) : SettledBy p N (applyTo op lt rhs pos) := by
  refine (settled_concatenates op lt hr).bind fun _ => .ite (settled_concat op lt hr pos) ?_
  refine hr.value.bind fun rt => .ite .pure ?_
  split
  · rename_i ops result hcode
    obtain ⟨_, _, heq, hops, -⟩ | ⟨m, hm, heq⟩ := operatorCode?_cases hcode
    · cases heq
      exact (settled_emits hops).seq .pure
    · cases heq
  · rename_i m hcode
    obtain ⟨_, _, heq, -⟩ | ⟨m, hm, heq⟩ := operatorCode?_cases hcode
    · cases heq
    · cases heq
      exact settled_emitLibraryCall hm
  · exact settled_badOperands ..

end

/-! ## Expressions -/

theorem source_compile (e : Expr) : (compile e).source = e := by
  cases e with
  | call pos callee args => cases callee <;> rfl
  | binary pos op lhs rhs => cases op <;> rfl
  | _ => rfl

theorem settled_nameValue {name : String} (h : N name) (pos : Source.Position) :
    SettledBy p N (nameValue name pos) := by
  refine (settled_resolveName h).walk_bind (walk_resolveName (typing_any p) name) fun meaning h => ?_
  split
  · refine SettledBy.seq (.step (walk_checkInstance name pos)) ?_
    exact SettledBy.seq (.step (walk_loadReceiver h)) (SettledBy.seq (.step (walk_load h)) .pure)
  · refine settled_language.bind fun _ => .ite ?_ (settled_refuse ..)
    exact settled_programCall _ _ .none trivial (by simp) _
  · exact settled_refuse ..
  · exact settled_refuse ..

theorem settled_staticMember (t : StaticType) (name : String) (pos : Source.Position) :
    SettledBy p N (staticMember t name pos) := by
  refine SettledBy.read_bind (fun _ _ => rfl) fun c hc => ?_
  dsimp only
  split
  · split
    · rename_i f hf
      rw [hc] at hf
      refine .ite ?_ (settled_refuse ..)
      exact SettledBy.seq (.step (.emission (.field (by decide) (mem_of_fieldOf? hf)))) .pure
    · refine .ite ?_ (settled_noMember ..)
      exact settled_programCall _ _ .none trivial (by simp) _
  · exact settled_noMember ..

theorem settled_instanceMember {target : ExprCode} (ht : target.Settles p N) (t : StaticType)
    (name : String) (pos : Source.Position) : SettledBy p N (instanceMember target t name pos) := by
  refine SettledBy.read_bind (fun _ _ => rfl) fun c hc => ?_
  have hlibrary {m : Library.Method}
      (hm : t.class?.bind (libraryMember? c.program.language · name) = some m) :
      SettledBy p N (emitLibraryCall m) := by
    obtain ⟨class_, -, hm⟩ := Option.bind_eq_some_iff.1 hm
    exact settled_emitLibraryCall (mem_all_of_libraryMember? hm)
  dsimp only
  split
  · exact .pure
  · refine .ite ?_ ?_
    · refine SettledBy.seq (.step (walk_emit rfl (by decide))) ?_
      exact SettledBy.seq (.step (walk_emit rfl (by decide))) .pure
    · split
      · exact hlibrary ‹_›
      · exact settled_noMember ..
  · split
    · rename_i f hf
      rw [hc] at hf
      refine .ite (settled_refuse ..) ?_
      exact SettledBy.seq (.step (.emission (.field (by decide) (mem_of_fieldOf? hf)))) .pure
    · refine .ite ?_ (settled_noMember ..)
      exact settled_programCall _ _ (.expr target) ht (by simp) _
  · split
    · exact hlibrary ‹_›
    · exact settled_noMember ..

theorem settled_refuseUnknownName (e : Expr) : SettledBy p N (refuseUnknownName e) := by
  unfold refuseUnknownName
  split
  · exact settled_refuse ..
  · exact .pure

theorem settled_memberValue {target : ExprCode} (ht : target.Settles p N) (name : String)
    (pos : Source.Position) : SettledBy p N (memberValue target name pos) := by
  refine (settled_asType? ht.names).bind fun r => ?_
  split
  · exact settled_staticMember ..
  · refine (settled_isUnknownName ht.names).bind fun _ => .ite (settled_refuseUnknownName _) ?_
    exact ht.value.bind fun t => settled_instanceMember ht ..

theorem settled_element (t : StaticType) {index : ExprCode} (hi : index.Settles p N)
    (pos : Source.Position) : SettledBy p N (element t index pos) := by
  unfold element
  split
  · exact SettledBy.seq (.step hi.walks.value.discard) .pure
  · refine .ite ?_ ((settled_typeName _).bind fun _ => settled_refuse ..)
    refine hi.value.bind fun _ => (settled_coerce ..).seq ?_
    exact SettledBy.seq (.step (walk_emit rfl (by decide))) .pure
  · exact (settled_typeName _).bind fun _ => settled_refuse ..

section

variable {args : List ExprCode}

theorem settled_nameCall {name : String} (h : N name) (namePos : Source.Position)
    (hargs : ∀ a ∈ args, a.Settles p N) (pos : Source.Position) : SettledBy p N (nameCall name namePos args pos) := by
  refine (settled_resolveName h).bind fun meaning => ?_
  split
  · exact settled_programCall _ _ .none trivial hargs _
  · refine settled_language.bind fun _ => ?_
    split
    · exact (settled_nameValue h _).bind fun t => settled_element t (hargs _ (by simp)) _
    · exact settled_refuse ..
  · exact settled_refuse ..
  · exact settled_refuse ..

theorem settled_memberCall {target : ExprCode} (ht : target.Settles p N) (name : String)
    (hargs : ∀ a ∈ args, a.Settles p N) (pos : Source.Position) :
    SettledBy p N (memberCall target name args pos) := by
  refine settled_language.bind fun language => (settled_asType? ht.names).bind fun r => ?_
  have hcall (class_ : Library.Class) (kind : Library.CallKind) (t : StaticType) :
      SettledBy p N (libraryCall (Library.Method.overloads language class_ kind name) t name args pos) :=
    settled_libraryCall (fun _ => mem_all_of_mem_overloads) t name hargs pos
  split
  · exact settled_programCall _ _ .none trivial hargs _
  · split
    · exact hcall ..
    · exact settled_noMember ..
  · refine (settled_isUnknownName ht.names).bind fun _ => .ite (settled_refuseUnknownName _) ?_
    refine ht.value.probe.bind fun t => ?_
    split
    · exact settled_programCall _ _ (.expr target) ht hargs _
    · exact ht.value
    · split
      · exact SettledBy.seq (.step ht.walks.value.discard) (hcall ..)
      · exact settled_noMember ..

theorem settled_valueCall {callee : ExprCode} (hc : callee.Settles p N)
    (hargs : ∀ a ∈ args, a.Settles p N) (pos : Source.Position) : SettledBy p N (valueCall callee args pos) := by
  refine settled_language.bind fun _ => ?_
  split
  · exact hc.value.bind fun t => settled_element t (hargs _ (by simp)) _
  · exact settled_refuse ..

end

theorem settled_thisValue (pos : Source.Position) : SettledBy p N (thisValue pos) := by
  refine SettledBy.read_bind (fun _ _ => rfl) fun _ _ => .ite (settled_refuse ..) ?_
  exact SettledBy.seq (.step (.emission (.loadArg 0))) .pure

theorem settled_shortCircuit (isOr : Bool) {lhs rhs : ExprCode} (hl : lhs.Settles p N)
    (hr : rhs.Settles p N) : SettledBy p N (shortCircuit isOr lhs rhs) :=
  .const (a := .bool) (.shortCircuit isOr (fun _ _ w h => hl.walks.jump w h) fun _ => hr.walks.value)
    fun _ _ => rfl

theorem settled_binaryCode (source : Expr) (op : Source.BinaryOp) {lhs rhs : ExprCode}
    (hl : lhs.Settles p N) (hr : rhs.Settles p N) : SettledBy p N (binaryCode source op lhs rhs).value := by
  unfold binaryCode
  split
  · exact settled_shortCircuit false hl hr
  · exact settled_shortCircuit true hl hr
  · exact hl.value.bind fun lt => settled_applyTo _ lt hr _

theorem SettledBy.settles {e : Expr} (h : SettledBy p N (evaluate e)) (he : ∀ n ∈ e.names, N n) :
    (compile e).Settles p N :=
  ⟨walks_compile (typing_any p) e, h, by rwa [source_compile]⟩

mutual

/-- **The type of every expression is settled by the names that stand in it**, by recursion on the
expression. -/
theorem settledBy_evaluate : ∀ e, (∀ n ∈ e.names, N n) → SettledBy p N (evaluate e)
  | .int pos v, _ => SettledBy.seq (.step (.emission (.loadInt v))) .pure
  | .str pos text, _ => SettledBy.seq (.step (.mention (.string text))) .pure
  | .bool pos v, _ => SettledBy.seq (.step (.emission (.loadInt _))) .pure
  | .null pos, _ => SettledBy.seq (.step (walk_emit rfl (by decide))) .pure
  | .this pos, _ => settled_thisValue pos
  | .name pos n, he => settled_nameValue (he n (List.mem_singleton_self _)) pos
  | .typeKeyword pos t, _ => by
    rw [evaluate, compile]
    dsimp only [plain]
    split
    · exact (settled_typeName _).bind fun _ => settled_refuse ..
    · exact settled_refuse ..
  | .member pos target n, he => settled_memberValue ((settledBy_evaluate target he).settles he) n pos
  | .call pos callee args, he => by
    rw [Expr.names, List.forall_mem_append] at he
    obtain ⟨hcallee, hargs⟩ := he
    replace hargs := settles_compileAll args hargs
    cases callee with
    | name namePos n => exact settled_nameCall (hcallee n (List.mem_singleton_self _)) namePos hargs pos
    | member memberPos target n =>
      exact settled_memberCall ((settledBy_evaluate target hcallee).settles hcallee) n hargs pos
    | _ => exact settled_valueCall ((settledBy_evaluate _ hcallee).settles hcallee) hargs pos
  | .new pos type args, he => settled_newObject type (settles_compileAll args he) pos
  | .index pos target index, he => by
    rw [Expr.names, List.forall_mem_append] at he
    refine (settledBy_evaluate target he.1).bind fun t => ?_
    exact settled_element t ((settledBy_evaluate index he.2).settles he.2) pos
  | .unary pos op operand, he => settled_unary op ((settledBy_evaluate operand he).settles he) _
  | .binary pos op lhs rhs, he => by
    rw [Expr.names, List.forall_mem_append] at he
    exact settled_binaryCode _ op ((settledBy_evaluate lhs he.1).settles he.1)
      ((settledBy_evaluate rhs he.2).settles he.2)

theorem settles_compileAll : ∀ es, (∀ n ∈ Expr.namesAll es, N n) →
    ∀ a ∈ compileAll es, a.Settles p N
  | [], _ => fun a ha => absurd ha List.not_mem_nil
  | e :: rest, he => fun a ha => by
    rw [Expr.namesAll, List.forall_mem_append] at he
    rcases List.mem_cons.1 ha with rfl | ha
    · exact (settledBy_evaluate e he.1).settles he.1
    · exact settles_compileAll rest he.2 a ha

end

/-- The result of the step depends on the locals by their names, slots and types. It does not depend on the
draft, on the log, on the references, or on whether the step is muted, and the step changes nothing that it
does depend on. -/
structure Settled (p : Program) {α : Type} (g : Gen α) : Prop where
  same : ∀ (c : Context) (m : Bool) (s s' : State), c.program = p → s'.view = s.view →
    (g { c with muted := m } s').1 = (g c s).1
  view : ∀ c s, c.program = p → (g c s).2.view = s.view

namespace Settled

variable {α : Type} {g : Gen α}

theorem probe (hg : Settled p g) : Settled p (probe g) where
  same c _ s s' hp hs :=
    hg.same { c with muted := true } true { s with draft := {} } { s' with draft := {} } hp hs
  view c s hp := hg.view { c with muted := true } { s with draft := {} } hp

/-- What probing yields is what the step yields. -/
theorem probe_eq (hg : Settled p g) {c : Context} (hp : c.program = p) (s : State) :
    (Lowering.probe g c s).1 = (g c s).1 :=
  hg.same c true s { s with draft := {} } hp rfl

end Settled

/-- **The type of every expression is settled.** -/
theorem settled_evaluate (e : Expr) : Settled p (evaluate e) where
  same c m s s' hp hs :=
    (settledBy_evaluate (N := fun _ => True) e fun _ _ => trivial).same c m s s' hp fun n _ =>
      resolve_eq c hs n
  view := (settledBy_evaluate (N := fun _ => True) e fun _ _ => trivial).view

/-- **Probing gives the type that the expression has.** -/
theorem probe_evaluate (e : Expr) (c : Context) (s : State) :
    (probe (evaluate e) c s).1 = (evaluate e c s).1 :=
  (settled_evaluate e).probe_eq rfl s

/-- Probing an expression reports nothing. -/
theorem log_probe_evaluate (e : Expr) (c : Context) (s : State) :
    (probe (evaluate e) c s).2.log = s.log :=
  ((walks_compile (typing_any c.program) e).value (L := fun _ => False) (b := .reads) |>.mute nofun
    { c with muted := true } { s with draft := {} } rfl rfl).1

end Lowering

end CilScope
