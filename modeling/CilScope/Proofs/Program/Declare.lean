import CilScope.Program.Declare
import CilScope.Proofs.Lowering.Frame

/-!
# Declared programs

What `Program.declare` gives whatever is written in the log on the way: every type has its members,
fields and methods have the rows that they are counted with (`Program.methodRows`, `Program.fieldRows`),
and no declaration has a type that the program does not have.
-/

namespace CilScope

/-- The classes of the program in a type are in the first `n` rows, behind the placeholder. -/
def StaticType.Within (n : Nat) : StaticType → Prop
  | .class_ i => 0 < i ∧ i < n
  | .array e => e.Within n
  | _ => True

namespace Program

open Source

/-! ## Declaring, step by step -/

/-- Reports a problem if there is one. -/
def note (isProblem : Bool) (pos : Position) (cause : Cause) : StateM Log Unit :=
  if isProblem then modify (·.report pos cause) else pure ()

section

variable (o : Outline) (index : Nat) (d : TypeDecl)

theorem declareFields_cons (before : List Field) (f : FieldDecl) (rest : List FieldDecl) :
    declareFields o index d before (f :: rest) = (do
      note (before.any (o.sameName ·.name f.name)) f.pos (.duplicateMember d.name f.name)
      note (d.kind = .staticClass ∧ !f.isStatic) f.pos (.instanceMemberInStaticClass f.name)
      let type ← o.resolve index f.type.pos f.type.name
      let field : Field :=
        { decl := f, type, isStatic := f.isStatic || d.kind = .module_
          visibility := visibilityOf (f.access.getD .private_) }
      declareFields o index d (before ++ [field]) rest) := by
  rw [declareFields]
  simp only [note, decide_eq_true_eq]
  split <;> split <;> rfl

theorem declareMethods_cons (before : List Method) (m : MethodDecl) (rest : List MethodDecl) :
    declareMethods o index d before (m :: rest) = (do
      note (d.kind = .staticClass ∧ !m.isStatic) m.pos (.instanceMemberInStaticClass m.name)
      let ret ← o.resolve index m.ret.pos m.ret.name
      let params ← m.params.mapM fun p => o.resolve index p.type.pos p.type.name
      note (before.any fun b => o.sameName b.name m.name && b.params = params) m.pos
        (.duplicateMember d.name m.name)
      let method : Method :=
        { name := m.name, ret, params, paramNames := m.params.map (·.name)
          isStatic := m.isStatic || d.kind = .module_
          visibility := visibilityOf (m.access.getD (defaultMethodAccess o.language))
          origin := .declared m }
      declareMethods o index d (before ++ [method]) rest) := by
  have hjoin {α : Type} (c : Bool) (pos : Position) (cause : Cause) (k : StateM Log α) :
      (note c pos cause >>= fun _ => k) =
        if c = true then (modify (·.report pos cause) : StateM Log Unit) >>= fun _ => k else k := by
    cases c <;> rfl
  rw [declareMethods]
  simp only [hjoin, decide_eq_true_eq]

end

theorem declareType_mk (enclosing : Option Nat) (namespace_ name : String) (kind : TypeKind)
    (access : Option Access) (fields : List FieldDecl) (methods : List MethodDecl)
    (nested : List TypeDecl) (pos : Position) (o : Outline) :
    declareType enclosing ⟨namespace_, name, kind, access, fields, methods, nested, pos⟩ o = (do
      note (o.types.any fun t => t.enclosing = enclosing && o.sameName t.namespace_ namespace_ &&
        o.sameName t.name name) pos (.duplicateMember (containerName o namespace_ enclosing) name)
      let visibility := visibilityOf (access.getD (defaultTypeAccess o.language enclosing))
      declareTypes (some o.types.size) nested { o with
        types := o.types.push { namespace_, name, kind, visibility, enclosing } }) := by
  rw [declareType]
  unfold note
  split <;> rfl

/-! ## Results that do not depend on the log -/

/-- The result has `Q`, whatever the log is. -/
def Yields {α : Type} (g : StateM Log α) (Q : α → Prop) : Prop := ∀ log, Q (g.run log).1

namespace Yields

variable {α β : Type} {Q : α → Prop} {R : β → Prop}

theorem pure {a : α} (h : Q a) : Yields (Pure.pure a) Q := fun _ => h

theorem bind {g : StateM Log α} {k : α → StateM Log β} (hg : Yields g Q)
    (hk : ∀ a, Q a → Yields (k a) R) : Yields (g >>= k) R :=
  fun log => hk _ (hg log) (g.run log).2

theorem seq {g : StateM Log Unit} {k : StateM Log β} (hk : Yields k R) :
    Yields (g >>= fun _ => k) R :=
  bind (Q := fun _ => True) (fun _ => trivial) fun _ _ => hk

theorem mapM {xs : List α} {f : α → StateM Log β} (h : ∀ x ∈ xs, Yields (f x) R) :
    Yields (xs.mapM f) fun ys => ∀ y ∈ ys, R y := by
  induction xs with
  | nil => exact pure (by simp)
  | cons x xs ih =>
    rw [List.mapM_cons]
    refine bind (h x (List.mem_cons_self ..)) fun y hy => ?_
    refine bind (ih fun x' hx' => h x' (List.mem_cons_of_mem _ hx')) fun ys hys => ?_
    exact pure (List.forall_mem_cons.2 ⟨hy, hys⟩)

end Yields

/-! ## Types -/

/-- A type that can be found is one of the program or of the framework. -/
theorem within_of_lookup? {o : Outline} {i : Nat} {name : String} {t : StaticType}
    (h : o.lookup? i name = some t) : t.Within o.types.size := by
  have hrows {q : Nat → Bool} {j : Nat} (hj : o.rows.find? q = some j) :
      0 < j ∧ j < o.types.size := by
    have hmem := List.mem_of_find?_eq_some hj
    rw [Outline.rows, List.range_eq_range', List.drop_range', List.mem_range'_1] at hmem
    omega
  have hfind {j : Nat} (hj : o.find? i name = some j) : 0 < j ∧ j < o.types.size := by
    unfold Outline.find? at hj
    split at hj
    · exact hrows hj
    · rcases Option.or_eq_some_iff.1 hj with hj | ⟨-, hj⟩
      · obtain ⟨outer, -, hj⟩ := List.exists_of_findSome?_eq_some hj
        exact hrows hj
      · exact hrows hj
  unfold Outline.lookup? at h
  split at h
  · cases h
    exact hfind ‹_›
  · obtain ⟨c, -, rfl⟩ := Option.map_eq_some_iff.1 h
    cases c <;> trivial

/-- All types of the members are of the program or of the framework. -/
structure WithinMembers (n : Nat) (m : Members) : Prop where
  field : ∀ f ∈ m.fields, f.type.Within n
  ret : ∀ x ∈ m.methods, x.ret.Within n
  params : ∀ x ∈ m.methods, ∀ t ∈ x.params, t.Within n

theorem typing_within {p : Program} (h : ∀ i, WithinMembers p.types.size (p.membersOf i)) :
    Lowering.Typing p (StaticType.Within p.types.size) where
  void := trivial
  bool := trivial
  int := trivial
  string := trivial
  object := trivial
  null := trivial
  unknown := trivial
  lib := fun _ => trivial
  element := id
  array := id
  found := within_of_lookup?
  field := fun hf => (h _).field _ hf
  ret := fun hm => (h _).ret _ hm

theorem yields_resolve (o : Outline) (i : Nat) (pos : Position) (t : TypeName) :
    Yields (o.resolve i pos t) (StaticType.Within o.types.size) := by
  -- a type is looked up without regard to members, so there may be none
  have hnone : ∀ i, WithinMembers o.types.size (({ o with members := #[] } : Program).membersOf i) :=
    fun i => ⟨fun _ h => (List.not_mem_nil h).elim, fun _ h => (List.not_mem_nil h).elim,
      fun _ h => (List.not_mem_nil h).elim⟩
  exact fun log => (Lowering.resolve_spec (typing_within (p := { o with members := #[] }) hnone) i pos log
    t).1

section

variable (o : Outline) (index : Nat) (d : TypeDecl)

theorem yields_declareFields (fs : List FieldDecl) (before : List Field)
    (h : ∀ f ∈ before, f.type.Within o.types.size) :
    Yields (declareFields o index d before fs) fun fields =>
      ∀ f ∈ fields, f.type.Within o.types.size := by
  induction fs generalizing before with
  | nil => exact .pure h
  | cons f fs ih =>
    rw [declareFields_cons]
    refine .seq (.seq ((yields_resolve o _ _ _).bind fun type htype => ih _ ?_))
    simpa only [List.forall_mem_append, List.forall_mem_singleton] using ⟨h, htype⟩

theorem yields_declareMethods (ms : List MethodDecl) (before : List Method)
    (h : ∀ m ∈ before, m.ret.Within o.types.size ∧ ∀ t ∈ m.params, t.Within o.types.size) :
    Yields (declareMethods o index d before ms) fun methods =>
      ∀ m ∈ methods, m.ret.Within o.types.size ∧ ∀ t ∈ m.params, t.Within o.types.size := by
  induction ms generalizing before with
  | nil => exact .pure h
  | cons m ms ih =>
    rw [declareMethods_cons]
    refine .seq ((yields_resolve o _ _ _).bind fun ret hret => ?_)
    refine (Yields.mapM fun p _ => yields_resolve o _ _ _).bind fun params hparams => .seq (ih _ ?_)
    simpa only [List.forall_mem_append, List.forall_mem_singleton] using ⟨h, hret, hparams⟩

theorem yields_declareMembers :
    Yields (declareMembers o index d) (WithinMembers o.types.size) := by
  refine (yields_declareFields o index d _ _ (by simp)).bind fun fields hfields => ?_
  refine (yields_declareMethods o index d _ _ (by simp)).bind fun methods hmethods => .pure ?_
  have hall : ∀ m ∈ methods ++ [.ctor] ++ [.cctor],
      m.ret.Within o.types.size ∧ ∀ t ∈ m.params, t.Within o.types.size := by
    simp only [List.forall_mem_append, List.forall_mem_singleton]
    exact ⟨⟨hmethods, trivial, fun _ h => (List.not_mem_nil h).elim⟩, trivial,
      fun _ h => (List.not_mem_nil h).elim⟩
  have hsub : ∀ m ∈ (if (fields.any fun f => f.isStatic && f.decl.init.isSome) = true then
      (if d.kind = .class_ then methods ++ [Method.ctor] else methods) ++ [Method.cctor]
      else if d.kind = .class_ then methods ++ [Method.ctor] else methods),
      m ∈ methods ++ [.ctor] ++ [.cctor] := by
    intro m hm
    split at hm <;> split at hm <;> simp only [List.mem_append] at hm ⊢ <;> tauto
  exact ⟨hfields, fun m hm => (hall m (hsub m hm)).1, fun m hm => (hall m (hsub m hm)).2⟩

theorem yields_declareAllMembers (ds : List TypeDecl) (index : Nat) :
    Yields (declareAllMembers o index ds) fun members =>
      members.length = ds.length ∧ ∀ m ∈ members, WithinMembers o.types.size m := by
  induction ds generalizing index with
  | nil => exact .pure ⟨rfl, by simp⟩
  | cons d ds ih =>
    refine (yields_declareMembers o index d).bind fun m hm => ?_
    refine (ih (index + 1)).bind fun ms hms => .pure ⟨?_, ?_⟩
    · rw [List.length_cons, List.length_cons, hms.1]
    · exact List.forall_mem_cons.2 ⟨hm, hms.2⟩

end

mutual

/-- A head for the type and for each of those nested in it. -/
theorem yields_declareType (enclosing : Option Nat) :
    ∀ (d : TypeDecl) (o : Outline), Yields (declareType enclosing d o) fun o' =>
      o'.types.size = o.types.size + (flatten d).length
  | ⟨namespace_, name, kind, access, fields, methods, nested, pos⟩, o => by
    rw [declareType_mk, flatten]
    refine .seq fun log => ?_
    rw [yields_declareTypes (some o.types.size) nested _ log, Array.size_push, List.length_cons]
    omega

theorem yields_declareTypes (enclosing : Option Nat) :
    ∀ (ds : List TypeDecl) (o : Outline), Yields (declareTypes enclosing ds o) fun o' =>
      o'.types.size = o.types.size + (flattenAll ds).length
  | [], o => by rw [declareTypes, flattenAll]; exact .pure rfl
  | d :: rest, o => by
    rw [declareTypes, flattenAll]
    refine (yields_declareType enclosing d o).bind fun o' ho' log => ?_
    rw [yields_declareTypes enclosing rest o' log, ho', List.length_append]
    omega

end

/-- A type is nested in one that was declared before it, and not in the placeholder. -/
def Enclosed (types : Array TypeHead) : Prop :=
  ∀ (i : Nat) head, types[i]? = some head → ∀ outer ∈ head.enclosing, 0 < outer ∧ outer < i

theorem enclosed_empty : Enclosed #[] :=
  fun i _ hi => by simp at hi

theorem Enclosed.push {types : Array TypeHead} (h : Enclosed types) {head : TypeHead}
    (hhead : ∀ outer ∈ head.enclosing, 0 < outer ∧ outer < types.size) : Enclosed (types.push head) := by
  intro i t ht
  rw [Array.getElem?_push] at ht
  split at ht
  · rename_i hi
    cases ht
    exact hi ▸ hhead
  · exact h i t ht

mutual

theorem enclosed_declareType (enclosing : Option Nat) : ∀ (d : TypeDecl) (o : Outline),
    (∀ outer ∈ enclosing, 0 < outer ∧ outer < o.types.size) → 0 < o.types.size → Enclosed o.types →
      Yields (declareType enclosing d o) fun o' => o.types.size ≤ o'.types.size ∧ Enclosed o'.types
  | ⟨namespace_, name, kind, access, fields, methods, nested, pos⟩, o, henclosing, hpos, h => by
    rw [declareType_mk]
    refine .seq fun log => ?_
    let head : TypeHead :=
      { namespace_, name, kind, enclosing
        visibility := visibilityOf (access.getD (defaultTypeAccess o.language enclosing)) }
    have hsize : (o.types.push head).size = o.types.size + 1 := Array.size_push ..
    have hinside : ∀ outer ∈ some o.types.size, 0 < outer ∧ outer < (o.types.push head).size := by
      rintro _ ⟨⟩
      exact ⟨hpos, hsize ▸ Nat.lt_succ_self _⟩
    obtain ⟨hle, hall⟩ := enclosed_declareTypes (some o.types.size) nested
      { o with types := o.types.push head } hinside (hsize ▸ Nat.succ_pos _) (h.push henclosing) log
    exact ⟨Nat.le_trans (hsize ▸ Nat.le_succ _) hle, hall⟩

theorem enclosed_declareTypes (enclosing : Option Nat) : ∀ (ds : List TypeDecl) (o : Outline),
    (∀ outer ∈ enclosing, 0 < outer ∧ outer < o.types.size) → 0 < o.types.size → Enclosed o.types →
      Yields (declareTypes enclosing ds o) fun o' => o.types.size ≤ o'.types.size ∧ Enclosed o'.types
  | [], o, _, _, h => by
    rw [declareTypes]
    exact .pure ⟨Nat.le_refl _, h⟩
  | d :: rest, o, henclosing, hpos, h => by
    rw [declareTypes]
    refine (enclosed_declareType enclosing d o henclosing hpos h).bind fun o' ho' log => ?_
    obtain ⟨hle, hall⟩ := enclosed_declareTypes enclosing rest o'
      (fun outer houter => (henclosing outer houter).imp id fun hlt => Nat.lt_of_lt_of_le hlt ho'.1)
      (Nat.lt_of_lt_of_le hpos ho'.1) ho'.2 log
    exact ⟨Nat.le_trans ho'.1 hle, hall⟩

end

/-- **Types are declared behind the types around them.** -/
theorem enclosed_of_declare {language : Language} {unit : CompilationUnit} {log log' : Log}
    {p : Program} (h : (declare language unit).run log = (p, log')) : Enclosed p.types := by
  have hyields : Yields (declare language unit) fun p => Enclosed p.types := by
    -- the placeholder is not nested
    have hstart : Enclosed #[.placeholder] := enclosed_empty.push nofun
    let outline : Outline :=
      { language, imports := unit.imports.map (·.namespace_), types := #[.placeholder] }
    refine (enclosed_declareTypes none unit.types outline nofun Nat.one_pos hstart).bind fun o ho => ?_
    exact Yields.bind (Q := fun _ => True) (fun _ => trivial) fun ms _ => .pure ho.2
  have := hyields log
  rwa [h] at this

/-! ## Rows -/

/-- The methods of a program in the order of their rows, each with the row of its type. -/
def methodRows (ms : List Members) : List (Nat × Method) :=
  ms.zipIdx.flatMap fun (m, i) => m.methods.map (i, ·)

/-- The fields of a program in the order of their rows, each with the row of its type. -/
def fieldRows (ms : List Members) : List (Nat × Field) :=
  ms.zipIdx.flatMap fun (m, i) => m.fields.map (i, ·)

theorem map_row_numberRows (ms : List Members) (fieldRow methodRow k : Nat) :
    ((numberRows fieldRow methodRow ms).zipIdx k |>.flatMap fun (m, i) =>
        m.fields.map (i, ·)).map (·.2.row) =
      List.range' fieldRow ((ms.map (·.fields.length)).sum) ∧
    ((numberRows fieldRow methodRow ms).zipIdx k |>.flatMap fun (m, i) =>
        m.methods.map (i, ·)).map (·.2.row) =
      List.range' methodRow ((ms.map (·.methods.length)).sum) := by
  have hcount {α : Type} (xs : List α) (first : Nat) (number : Nat → α → α) (row : α → Nat)
      (h : ∀ i x, row (number i x) = first + i) :
      (xs.mapIdx number).map row = List.range' first xs.length :=
    List.ext_getElem (by simp) fun i _ _ => by simp [h]
  induction ms generalizing fieldRow methodRow k with
  | nil => exact ⟨rfl, rfl⟩
  | cons m ms ih =>
    obtain ⟨hfields, hmethods⟩ := ih (fieldRow + m.fields.length) (methodRow + m.methods.length) (k + 1)
    rw [numberRows]
    simp only [List.zipIdx_cons, List.flatMap_cons, List.map_append, List.map_map, List.map_cons,
      List.sum_cons, ← List.range'_append_1]
    refine ⟨?_, ?_⟩
    · rw [hfields]
      congr 1
      exact hcount m.fields fieldRow _ _ fun _ _ => rfl
    · rw [hmethods]
      congr 1
      exact hcount m.methods methodRow _ _ fun _ _ => rfl

theorem length_numberRows (ms : List Members) (fieldRow methodRow : Nat) :
    (numberRows fieldRow methodRow ms).length = ms.length := by
  induction ms generalizing fieldRow methodRow with
  | nil => rfl
  | cons m ms ih => rw [numberRows, List.length_cons, List.length_cons, ih]

theorem forall_mem_mapIdx {α : Type} {xs : List α} {number : Nat → α → α} {P : α → Prop}
    (h : ∀ x ∈ xs, P x) (hP : ∀ i x, P x → P (number i x)) : ∀ y ∈ xs.mapIdx number, P y := by
  intro y hy
  obtain ⟨i, hi, rfl⟩ := List.mem_mapIdx.1 hy
  exact hP i _ (h _ (List.getElem_mem hi))

theorem within_numberRows {n : Nat} {ms : List Members} (h : ∀ m ∈ ms, WithinMembers n m)
    (fieldRow methodRow : Nat) : ∀ m ∈ numberRows fieldRow methodRow ms, WithinMembers n m := by
  induction ms generalizing fieldRow methodRow with
  | nil => exact fun m hm => absurd hm List.not_mem_nil
  | cons m ms ih =>
    obtain ⟨hm, hms⟩ := List.forall_mem_cons.1 h
    rw [numberRows]
    exact List.forall_mem_cons.2 ⟨⟨forall_mem_mapIdx hm.field fun _ _ h => h,
      forall_mem_mapIdx hm.ret fun _ _ h => h, forall_mem_mapIdx hm.params fun _ _ h => h⟩, ih hms _ _⟩

/-- What is known of a declared program. -/
structure Declared (p : Program) : Prop where
  size : p.members.size = p.types.size
  placeholder : p.members.toList.head? = some {}
  within : ∀ i, WithinMembers p.types.size (p.membersOf i)
  fieldRows : (fieldRows p.members.toList).map (·.2.row) =
    List.range (fieldRows p.members.toList).length
  methodRows : (methodRows p.members.toList).map (·.2.row) =
    List.range (methodRows p.members.toList).length

theorem membersOf_cases (p : Program) (i : Nat) :
    p.members.toList[i]? = some (p.membersOf i) ∨ p.membersOf i = {} := by
  rw [Array.getElem?_toList, membersOf]
  cases p.members[i]? with
  | none => exact .inr rfl
  | some m => exact .inl rfl

/-- **Declaring gives every type its members and every member its row.** -/
theorem declared_of_declare {language : Language} {unit : CompilationUnit} {log log' : Log}
    {p : Program} (h : (declare language unit).run log = (p, log')) : p.Declared := by
  have hyields : Yields (declare language unit) Declared := by
    refine (yields_declareTypes none unit.types _).bind fun o ho => ?_
    refine (yields_declareAllMembers o (flattenAll unit.types) 1).bind fun ms hms => .pure ?_
    have hwithin : ∀ m ∈ numberRows 0 0 ({} :: ms), WithinMembers o.types.size m := by
      refine within_numberRows (List.forall_mem_cons.2 ⟨⟨?_, ?_, ?_⟩, hms.2⟩) 0 0 <;>
        exact fun _ h => (List.not_mem_nil h).elim
    have hrows := map_row_numberRows ({} :: ms) 0 0 0
    have hrange {α : Type} {xs : List α} {row : α → Nat} {n : Nat}
        (h : xs.map row = List.range' 0 n) : xs.map row = List.range xs.length := by
      have hlength := congrArg List.length h
      rw [List.length_map, List.length_range'] at hlength
      rw [h, hlength, List.range_eq_range']
    refine ⟨?_, rfl, fun i => ?_, hrange hrows.1, hrange hrows.2⟩
    · simp only [List.size_toArray, length_numberRows, List.length_cons, hms.1, ho]
      exact Nat.add_comm ..
    · rcases membersOf_cases { o with members := (numberRows 0 0 ({} :: ms)).toArray } i with hi | hi
      · exact hwithin _ (List.mem_of_getElem? hi)
      · rw [hi]
        exact ⟨fun _ h => (List.not_mem_nil h).elim, fun _ h => (List.not_mem_nil h).elim,
          fun _ h => (List.not_mem_nil h).elim⟩
  have := hyields log
  rwa [h] at this

section

variable {p : Program} {i : Nat}

/-- What has the rows of its members is found by row. -/
theorem getElem?_of_map_row {α : Type} {xs : List α} {row : α → Nat}
    (h : xs.map row = List.range xs.length) {x : α} (hx : x ∈ xs) : xs[row x]? = some x := by
  obtain ⟨j, hj⟩ := List.mem_iff_getElem?.1 hx
  have hrow : (xs.map row)[j]? = some (row x) := by rw [List.getElem?_map, hj, Option.map_some]
  rw [h, List.getElem?_range (List.getElem?_eq_some_iff.1 hj).1] at hrow
  rw [← Option.some.inj hrow, hj]

/-- **The method in the row of a method is that method.** -/
theorem Declared.getElem?_methodRows (h : p.Declared) {m : Method}
    (hm : m ∈ (p.membersOf i).methods) :
    (Program.methodRows p.members.toList)[m.row]? = some (i, m) := by
  refine getElem?_of_map_row h.methodRows (x := (i, m)) (List.mem_flatMap.2 ⟨(p.membersOf i, i), ?_, ?_⟩)
  · rcases p.membersOf_cases i with hi | hi
    · exact List.mem_zipIdx_iff_getElem?.2 hi
    · rw [hi] at hm
      exact (List.not_mem_nil hm).elim
  · exact List.mem_map_of_mem hm

/-- **The field in the row of a field is that field.** -/
theorem Declared.getElem?_fieldRows (h : p.Declared) {f : Field}
    (hf : f ∈ (p.membersOf i).fields) :
    (Program.fieldRows p.members.toList)[f.row]? = some (i, f) := by
  refine getElem?_of_map_row h.fieldRows (x := (i, f)) (List.mem_flatMap.2 ⟨(p.membersOf i, i), ?_, ?_⟩)
  · rcases p.membersOf_cases i with hi | hi
    · exact List.mem_zipIdx_iff_getElem?.2 hi
    · rw [hi] at hf
      exact (List.not_mem_nil hf).elim
  · exact List.mem_map_of_mem hf

end

end Program

end CilScope
