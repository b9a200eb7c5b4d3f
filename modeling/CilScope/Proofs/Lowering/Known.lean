import CilScope.Proofs.Lowering.Vouched

/-!
# The types of expressions are known

An expression that has been reported as wrong has the type `unknown`, and then nothing more is said of it.
`known_of_evaluate` says that this is the only way to such a type: where the types of all declarations are
known, an expression either has a known type or has left an error in the log.
-/

namespace CilScope.Lowering

open Source (Expr)

variable {c : Context} {N : String → Prop} {s₀ : State}

/-! ## Names, members and elements -/

section

variable (hclear : Clear c N s₀)

include hclear

theorem vouches_resolveName {name : String} (hname : N name) :
    Vouches c s₀ (resolveName name) Meaning.IsKnown := by
  refine .of_walk (L := fun _ => False) (walk_resolveName (typing_any _) name) fun s hs _ => ?_
  have hmeaning := hclear.names name hname
  rwa [← resolve_eq c hs] at hmeaning

theorem vouches_asType? {e : Expr} (he : ∀ n ∈ e.names, N n) :
    Vouches c s₀ (asType? e) fun r => ∀ t, r = some t → t.IsKnown := by
  refine .of_walk (L := fun _ => False) (walk_asType? (typing_any _) e) fun s hs _ t ht => ?_
  change c.asType? s.scopes e = some t at ht
  cases e with
  | typeKeyword pos keyword => cases keyword <;> cases ht <;> trivial
  | name pos n =>
    have hmeaning := hclear.names n (he n (List.mem_singleton_self _))
    rw [← resolve_eq c hs] at hmeaning
    rw [Context.asType?] at ht
    cases hr : c.resolve s.scopes n with
    | type t =>
      rw [hr] at ht hmeaning
      cases ht
      exact hmeaning
    | place | methods | nothing => rw [hr] at ht; cases ht
  | member pos target n =>
    rw [Context.asType?] at ht
    split at ht
    · cases ht
    · obtain ⟨name, -, hname⟩ := Option.bind_eq_some_iff.1 ht
      exact Program.known_of_lookup? hname
  | int | str | bool | null | this | call | new | index | unary | binary => cases ht

theorem vouches_nameValue {name : String} (hname : N name) (pos : Source.Position) :
    Vouches c s₀ (nameValue name pos) StaticType.IsKnown := by
  have hmuted := hclear.muted
  have hwalk := walk_resolveName (L := fun _ => False) (b := .assigns) (typing_any c.program) name
  refine (vouches_resolveName hclear hname).walk_bind hwalk fun meaning hmeaning => ?_
  split
  · refine Vouches.walk_seq (walk_checkInstance name pos) ?_
    refine Vouches.walk_seq (walk_loadReceiver hmeaning) ?_
    exact Vouches.walk_seq (walk_load hmeaning) (.pure id)
  · refine .language_bind (.ite (fun _ => ?_) fun _ => vouches_refuse hmuted pos fun _ => rfl)
    exact (vouches_programCall hclear vouches_nil _ name .none trivial pos).imp fun _ h _ => h
  · exact vouches_refuse hmuted pos fun _ => rfl
  · exact vouches_refuse hmuted pos fun _ => rfl

theorem vouches_staticMember (t : StaticType) (name : String) (pos : Source.Position) :
    Vouches c s₀ (staticMember t name pos) fun r => t.IsKnown → r.IsKnown := by
  have hmuted := hclear.muted
  have hnone (t : StaticType) : Vouches c s₀ (noMember t name pos) fun r => t.IsKnown → r.IsKnown :=
    (vouches_noMember hmuted t name pos).imp fun _ h ht => absurd h ht.ne
  refine .read_bind ?_
  split
  · dsimp only
    split
    · rename_i f hf
      refine .ite (fun _ => ?_) fun _ => vouches_refuse hmuted pos fun _ => rfl
      refine Vouches.walk_seq (.emission (.field (by decide) (mem_of_fieldOf? hf))) ?_
      exact .pure fun _ => hclear.program.field _ _ (mem_of_fieldOf? hf)
    · refine .ite (fun _ => ?_) fun _ => hnone _
      exact (vouches_programCall hclear vouches_nil _ name .none trivial pos).imp fun _ h _ => h
  · exact hnone t

theorem vouches_instanceMember (target : Expr) (t : StaticType) (name : String)
    (pos : Source.Position) :
    Vouches c s₀ (instanceMember (compile target) t name pos) fun r => t.IsKnown → r.IsKnown := by
  have hmuted := hclear.muted
  have hnone (t : StaticType) : Vouches c s₀ (noMember t name pos) fun r => t.IsKnown → r.IsKnown :=
    (vouches_noMember hmuted t name pos).imp fun _ h ht => absurd h ht.ne
  have hlibrary {m : Library.Method} {t : StaticType}
      (hm : t.class?.bind (libraryMember? c.program.language · name) = some m) :
      Vouches c s₀ (emitLibraryCall m) fun r => t.IsKnown → r.IsKnown := by
    obtain ⟨class_, -, hm⟩ := Option.bind_eq_some_iff.1 hm
    exact (vouches_emitLibraryCall (mem_all_of_libraryMember? hm)).imp fun _ h _ => h
  refine .read_bind ?_
  dsimp only
  split
  · exact .pure id
  · refine .ite (fun _ => ?_) fun _ => ?_
    · refine Vouches.walk_seq (walk_emit rfl (by decide)) ?_
      exact Vouches.walk_seq (walk_emit rfl (by decide)) (.pure fun _ => trivial)
    · split
      · exact hlibrary ‹_›
      · exact hnone _
  · split
    · rename_i f hf
      refine .ite (fun _ => vouches_refuse hmuted pos fun _ => rfl) fun _ => ?_
      refine Vouches.walk_seq (.emission (.field (by decide) (mem_of_fieldOf? hf))) ?_
      exact .pure fun _ => hclear.program.field _ _ (mem_of_fieldOf? hf)
    · refine .ite (fun _ => ?_) fun _ => hnone _
      exact (vouches_programCall hclear vouches_nil _ name (.expr (compile target))
        (walks_compile (typing_any _) target) pos).imp fun _ h _ => h
  · split
    · exact hlibrary ‹_›
    · exact hnone _

/-- A name that means nothing is reported. -/
theorem vouches_unknownName {Q : StaticType → Prop} {e : Expr} (he : ∀ n ∈ e.names, N n)
    {g : Gen StaticType} (hg : Vouches c s₀ g Q) :
    Vouches c s₀ (do if ← isUnknownName e then refuseUnknownName e else g) Q := by
  cases e with
  | name pos n =>
    have hwalk := walk_isUnknownName (L := fun _ => False) (b := .assigns) (typing_any c.program)
      (.name pos n)
    refine (Vouches.walk hwalk).bind_any fun _ => ?_
    exact .ite (fun _ => vouches_refuse hclear.muted pos fun _ => rfl) fun _ => hg
  | int | str | bool | null | this | typeKeyword | member | call | new | index | unary | binary => exact hg

theorem vouches_memberValue (target : Expr) (htarget : ∀ n ∈ target.names, N n)
    (h : Vouches c s₀ (evaluate target) StaticType.IsKnown) (name : String) (pos : Source.Position) :
    Vouches c s₀ (memberValue (compile target) name pos) StaticType.IsKnown := by
  unfold memberValue
  rw [source_compile]
  refine (vouches_asType? hclear htarget).bind fun r => ?_
  cases r with
  | some t => exact (vouches_staticMember hclear t name pos).imp fun _ hr ht => hr (ht t rfl)
  | none =>
    refine Vouches.imp (Q := StaticType.IsKnown) ?_ fun _ h _ => h
    refine vouches_unknownName hclear htarget (Vouches.bind (g := evaluate target) h fun t => ?_)
    exact vouches_instanceMember hclear target t name pos

theorem vouches_element (t : StaticType) {index : Expr}
    (h : Vouches c s₀ (evaluate index) StaticType.IsKnown) (pos : Source.Position) :
    Vouches c s₀ (element t (compile index) pos) fun r => t.IsKnown → r.IsKnown := by
  have hmuted := hclear.muted
  unfold element
  split
  · exact (Vouches.discard (g := evaluate index) h).seq (.pure id)
  · refine .ite (fun _ => ?_) fun _ => .typeName_bind _ fun _ => vouches_refuse hmuted pos fun _ => rfl
    refine Vouches.bind (g := evaluate index) h fun s => ?_
    refine Vouches.walk_seq (walk_coerce ..) ?_
    exact Vouches.walk_seq (walk_emit rfl (by decide)) (.pure fun _ ht => ht)
  · exact .typeName_bind _ fun _ => vouches_refuse hmuted pos fun _ => rfl

/-! ### Calls -/

section

variable {es : List Expr} (hes : ∀ e ∈ es, Vouches c s₀ (evaluate e) StaticType.IsKnown)

include hes

theorem vouches_nameCall {name : String} (hname : N name) (namePos pos : Source.Position) :
    Vouches c s₀ (nameCall name namePos (compileAll es) pos) StaticType.IsKnown := by
  have hmuted := hclear.muted
  refine (vouches_resolveName hclear hname).bind_any fun meaning => ?_
  split
  · exact vouches_programCall hclear hes _ name .none trivial pos
  · refine .language_bind ?_
    cases c.program.language with
    | csharp => exact vouches_refuse hmuted namePos fun _ => rfl
    | visualBasic =>
      cases es with
      | nil => exact vouches_refuse hmuted namePos fun _ => rfl
      | cons e rest =>
        cases rest with
        | cons => exact vouches_refuse hmuted namePos fun _ => rfl
        | nil =>
          refine (vouches_nameValue hclear hname namePos).bind fun t => ?_
          exact vouches_element hclear t (hes e (List.mem_singleton_self _)) pos
  · exact vouches_refuse hmuted namePos fun _ => rfl
  · exact vouches_refuse hmuted namePos fun _ => rfl

theorem vouches_memberCall (target : Expr) (htarget : ∀ n ∈ target.names, N n)
    (h : Vouches c s₀ (evaluate target) StaticType.IsKnown) (name : String) (pos : Source.Position) :
    Vouches c s₀ (memberCall (compile target) name (compileAll es) pos) StaticType.IsKnown := by
  have hmuted := hclear.muted
  have hlibrary (class_ : Library.Class) (kind : Library.CallKind) {t : StaticType} (ht : t ≠ .unknown) :
      Vouches c s₀ (libraryCall (Library.Method.overloads c.program.language class_ kind name) t name
        (compileAll es) pos) StaticType.IsKnown :=
    vouches_libraryCall hclear hes (fun _ => mem_all_of_mem_overloads) ht name pos
  unfold memberCall
  rw [source_compile]
  refine .language_bind ((vouches_asType? hclear htarget).bind fun r => ?_)
  cases r with
  | some t =>
    refine Vouches.imp (Q := fun r => t.IsKnown → r.IsKnown) ?_ fun _ hr ht => hr (ht t rfl)
    cases t with
    | class_ index =>
      exact (vouches_programCall hclear hes index name .none trivial pos).imp fun _ h _ => h
    | string | object | int | bool | lib => exact (hlibrary _ .static (by simp)).imp fun _ h _ => h
    | void | null | array | unknown =>
      exact (vouches_noMember hmuted _ name pos).imp fun _ h ht => absurd h (StaticType.IsKnown.ne ht)
  | none =>
    refine Vouches.imp (Q := StaticType.IsKnown) ?_ fun _ h _ => h
    refine vouches_unknownName hclear htarget ((vouches_probe target).bind_any fun t => ?_)
    cases t with
    | class_ index =>
      exact vouches_programCall hclear hes index name (.expr (compile target))
        (walks_compile (typing_any _) target) pos
    | unknown => exact h
    | string | object | int | bool | lib =>
      exact (Vouches.discard (g := evaluate target) h).seq (hlibrary _ .instance_ (by simp))
    | void | null | array => exact vouches_noMember_of_ne hmuted (by simp) name pos

theorem vouches_valueCall {callee : Expr}
    (h : Vouches c s₀ (evaluate callee) StaticType.IsKnown) (pos : Source.Position) :
    Vouches c s₀ (valueCall (compile callee) (compileAll es) pos) StaticType.IsKnown := by
  have hmuted := hclear.muted
  refine .language_bind ?_
  cases c.program.language with
  | csharp => exact vouches_refuse hmuted _ fun _ => rfl
  | visualBasic =>
    cases es with
    | nil => exact vouches_refuse hmuted _ fun _ => rfl
    | cons e rest =>
      cases rest with
      | cons => exact vouches_refuse hmuted _ fun _ => rfl
      | nil =>
        refine Vouches.bind (g := evaluate callee) h fun t => ?_
        exact vouches_element hclear t (hes e (List.mem_singleton_self _)) pos

end

/-! ### Expressions -/

theorem vouches_thisValue (pos : Source.Position) :
    Vouches c s₀ (thisValue pos) StaticType.IsKnown := by
  refine .read_bind (.ite (fun _ => vouches_refuse hclear.muted pos fun _ => rfl) fun _ => ?_)
  exact Vouches.walk_seq (.emission (.loadArg 0)) (.pure trivial)

theorem vouches_binaryCode (source : Expr) (op : Source.BinaryOp) {lhs rhs : Expr}
    (hl : Vouches c s₀ (evaluate lhs) StaticType.IsKnown)
    (hr : Vouches c s₀ (evaluate rhs) StaticType.IsKnown) :
    Vouches c s₀ (binaryCode source op (compile lhs) (compile rhs)).value StaticType.IsKnown := by
  have hboth (isOr : Bool) :
      Vouches c s₀ (shortCircuit isOr (compile lhs) (compile rhs)) StaticType.IsKnown :=
    .of_walk (L := fun _ => False) (.shortCircuit isOr
      (fun _ _ w h => (walks_compile (typing_any _) lhs).jump w h)
      fun _ => (walks_compile (typing_any _) rhs).value) fun _ _ _ => trivial
  unfold binaryCode
  split
  · exact hboth false
  · exact hboth true
  · exact Vouches.bind (g := evaluate lhs) hl fun lt => vouches_applyTo hclear hr _ lt _

end

mutual

/-- If there is no error in the end, the type of the expression is known, by recursion on the
expression. -/
theorem vouches_evaluate (hclear : Clear c N s₀) :
    ∀ e, (∀ n ∈ e.names, N n) → Vouches c s₀ (evaluate e) StaticType.IsKnown
  | .int pos v, _ => Vouches.walk_seq (.emission (.loadInt v)) (.pure trivial)
  | .str pos text, _ => Vouches.walk_seq (.mention (.string text)) (.pure trivial)
  | .bool pos v, _ => Vouches.walk_seq (.emission (.loadInt _)) (.pure trivial)
  | .null pos, _ => Vouches.walk_seq (walk_emit rfl (by decide)) (.pure trivial)
  | .this pos, _ => vouches_thisValue hclear pos
  | .name pos n, he => vouches_nameValue hclear (he n (List.mem_singleton_self _)) pos
  | .typeKeyword pos t, _ => by
    rw [evaluate, compile]
    dsimp only [plain]
    split
    · exact .typeName_bind _ fun _ => vouches_refuse hclear.muted pos fun _ => rfl
    · exact vouches_refuse hclear.muted pos fun _ => rfl
  | .member pos target n, he => vouches_memberValue hclear target he (vouches_evaluate hclear target he) n pos
  | .call pos callee args, he => by
    rw [Expr.names, List.forall_mem_append] at he
    obtain ⟨hcallee, hargs⟩ := he
    replace hargs := vouches_evaluateAll hclear args hargs
    cases callee with
    | name namePos n =>
      exact vouches_nameCall hclear hargs (hcallee n (List.mem_singleton_self _)) namePos pos
    | member memberPos target n =>
      exact vouches_memberCall hclear hargs target hcallee (vouches_evaluate hclear target hcallee) n pos
    | _ => exact vouches_valueCall hclear hargs (vouches_evaluate hclear _ hcallee) pos
  | .new pos type args, he => vouches_newObject hclear (vouches_evaluateAll hclear args he) type pos
  | .index pos target i, he => by
    rw [Expr.names, List.forall_mem_append] at he
    refine Vouches.bind (g := evaluate target) (vouches_evaluate hclear target he.1) fun t => ?_
    exact vouches_element hclear t (vouches_evaluate hclear i he.2) pos
  | .unary pos op operand, he => vouches_unary hclear op (vouches_evaluate hclear operand he) pos
  | .binary pos op lhs rhs, he => by
    rw [Expr.names, List.forall_mem_append] at he
    exact vouches_binaryCode hclear _ op (vouches_evaluate hclear lhs he.1) (vouches_evaluate hclear rhs he.2)

theorem vouches_evaluateAll (hclear : Clear c N s₀) : ∀ es, (∀ n ∈ Expr.namesAll es, N n) →
    ∀ e ∈ es, Vouches c s₀ (evaluate e) StaticType.IsKnown
  | [], _ => vouches_nil
  | e :: rest, he => by
    rw [Expr.namesAll, List.forall_mem_append] at he
    exact List.forall_mem_cons.2 ⟨vouches_evaluate hclear e he.1, vouches_evaluateAll hclear rest he.2⟩

end

/-- **The type of an expression is known, or there is an error in the log**, where the types are known of
the members of the program and of what the names in the expression mean. -/
theorem known_of_evaluate (hprogram : c.program.Known) (hconstructs : c.program.Constructs)
    (hmuted : c.muted = false) {e : Expr} {s : State}
    (hnames : ∀ n ∈ e.names, (c.resolve s.scopes n).IsKnown) :
    (evaluate e c s).1.IsKnown ∨ (evaluate e c s).2.log.hasErrors = true := by
  have hclear : Clear c (· ∈ e.names) s := ⟨hprogram, hconstructs, hmuted, hnames⟩
  cases hnone : (evaluate e c s).2.log.hasErrors with
  | true => exact .inr rfl
  | false => exact .inl ((vouches_evaluate hclear e (fun _ h => h) s rfl).2 hnone).2

end CilScope.Lowering
