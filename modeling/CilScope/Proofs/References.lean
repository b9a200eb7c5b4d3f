import CilScope.Opcode
import CilScope.References
import Mathlib

/-!
# References keep their places

A token is a place in the order of first use, and the lists of what is referred to only grow at their
ends. So the token of something that is referred to stays the same, however much is referred to behind
it: `References.Grows` has one lemma for every kind of token. `References.Closed` says that the rows of
the tables name nothing that is not itself in a table; then the rows stay the same as well,
`References.Grows.rows`.
-/

namespace CilScope

/-! ## Tokens and rows -/

/-- A place of a module where a token can stand. -/
inductive Use
  | operand (op : Opcode)
  /-- The type of the exceptions that a handler catches. -/
  | caught
  | signature
  | base
  /-- The constructor of an attribute. -/
  | attr
  /-- The assembly of a class. -/
  | scope
  /-- The class of a method. -/
  | parent

namespace Token

theorem toNat_raw_ofRow (table : Table) (i : Nat) :
    (ofRow table i).raw.toNat = table.tag.toNat * 0x1000000 + (i + 1) % 0x1000000 := by
  have htag := table.tag.toNat_lt
  have hrow := Nat.mod_lt (i + 1) (show 0 < 0x1000000 by decide)
  exact UInt32.toNat_ofNat_of_lt' (by rw [UInt32.size]; omega)

@[simp] theorem table?_ofRow (table : Table) (i : Nat) : (ofRow table i).table? = some table := by
  have htag : (ofRow table i).tag = table.tag := by
    rw [tag, toNat_raw_ofRow, Nat.add_comm, Nat.add_mul_div_right _ _ (by decide),
      Nat.div_eq_of_lt (Nat.mod_lt _ (by decide)), Nat.zero_add, UInt8.ofNat_toNat]
  rw [table?, htag]
  cases table <;> rfl

theorem row?_ofRow (table : Table) {i : Nat} (h : i < 2 ^ 24 - 1) : (ofRow table i).row? = some i := by
  have hrow : (ofRow table i).raw.toNat % 0x1000000 = i + 1 := by
    rw [toNat_raw_ofRow]
    omega
  rw [row?, hrow]

end Token

/-- The row that a token of a table points at. -/
def Metadata.rowAt? {α : Type} (table : Table) (rows : List α) (t : Token) : Option α :=
  if t.table? = some table then t.row?.bind (rows[·]?) else none

theorem Metadata.rowAt?_ofRow {α : Type} (table : Table) {rows : List α} {i : Nat} {x : α}
    (hshort : rows.length < 2 ^ 24 - 1) (h : rows[i]? = some x) :
    rowAt? table rows (.ofRow table i) = some x := by
  have hi := (List.getElem?_eq_some_iff.1 h).1
  rw [rowAt?, if_pos (Token.table?_ofRow table i), Token.row?_ofRow table (by omega),
    Option.bind_some, h]

theorem Metadata.rowAt?_eq_some {α : Type} {table : Table} {rows : List α} {t : Token} {x : α}
    (h : rowAt? table rows t = some x) :
    t.table? = some table ∧ t.row?.bind (rows[·]?) = some x := by
  unfold rowAt? at h
  split at h
  · exact ⟨‹_›, h⟩
  · cases h

/-- The token of what is in a list leads to its row. -/
theorem Metadata.rowAt?_idxOf {α β : Type} [DecidableEq α] (table : Table) {xs : List α}
    {row : α → β} {x : α} (hshort : (xs.map row).length < 2 ^ 24 - 1) (hx : x ∈ xs) :
    rowAt? table (xs.map row) (.ofRow table (xs.idxOf x)) = some (row x) := by
  refine rowAt?_ofRow table hshort ?_
  rw [List.getElem?_map, List.getElem?_idxOf hx, Option.map_some]

/-! ## Lists that only grow -/

section

variable {α : Type} [DecidableEq α]

theorem mem_intern {xs : List α} {x y : α} : y ∈ intern xs x ↔ y ∈ xs ∨ y = x := by
  unfold intern
  split
  · exact ⟨.inl, fun h => h.elim id fun h => h ▸ ‹x ∈ xs›⟩
  · rw [List.mem_append, List.mem_singleton]

theorem prefix_intern (xs : List α) (x : α) : xs <+: intern xs x := by
  unfold intern
  split
  · exact List.prefix_refl xs
  · exact List.prefix_append xs [x]

theorem idxOf_of_prefix {xs ys : List α} (h : xs <+: ys) {x : α} (hx : x ∈ xs) :
    ys.idxOf x = xs.idxOf x := by
  obtain ⟨zs, rfl⟩ := h
  exact List.idxOf_append_of_mem hx

end

namespace References

/-- Everything of `r` is in `r'`, in the same places. -/
structure Grows (r r' : References) : Prop where
  core : r'.core = r.core
  assemblies : r.assemblies <+: r'.assemblies
  classes : r.classes <+: r'.classes
  methods : r.methods <+: r'.methods
  strings : r.strings <+: r'.strings

/-- The classes of a type are referred to. -/
def Covers (r : References) : StaticType → Prop
  | .lib c => c ∈ r.classes
  | .array element => r.Covers element
  | _ => True

/-- The rows of the tables name nothing that is not itself in a table. -/
structure Closed (r : References) : Prop where
  assembly : ∀ c ∈ r.classes, c.assembly ∈ r.assemblies
  parent : ∀ m ∈ r.methods, m.class_ ∈ r.classes
  known : ∀ m ∈ r.methods, m ∈ Library.Method.all

namespace Grows

variable {r r' r'' : References}

theorem refl (r : References) : r.Grows r :=
  ⟨rfl, List.prefix_refl _, List.prefix_refl _, List.prefix_refl _, List.prefix_refl _⟩

theorem trans (h : r.Grows r') (h' : r'.Grows r'') : r.Grows r'' where
  core := h'.core.trans h.core
  assemblies := h.assemblies.trans h'.assemblies
  classes := h.classes.trans h'.classes
  methods := h.methods.trans h'.methods
  strings := h.strings.trans h'.strings

theorem assemblyToken (h : r.Grows r') {a : Library.Assembly} (ha : a ∈ r.assemblies) :
    r'.assemblyToken a = r.assemblyToken a := by
  rw [References.assemblyToken, idxOf_of_prefix h.assemblies ha, References.assemblyToken]

theorem classToken (h : r.Grows r') {c : Library.Class} (hc : c ∈ r.classes) :
    r'.classToken c = r.classToken c := by
  rw [References.classToken, idxOf_of_prefix h.classes hc, References.classToken]

theorem methodToken (h : r.Grows r') {m : Library.Method} (hm : m ∈ r.methods) :
    r'.methodToken m = r.methodToken m := by
  rw [References.methodToken, idxOf_of_prefix h.methods hm, References.methodToken]

theorem stringToken (h : r.Grows r') {s : String} (hs : s ∈ r.strings) :
    r'.stringToken s = r.stringToken s := by
  rw [References.stringToken, idxOf_of_prefix h.strings hs, References.stringToken]

theorem covers (h : r.Grows r') : ∀ {t : StaticType}, r.Covers t → r'.Covers t
  | .lib _, ht => h.classes.subset ht
  | .array e, ht => h.covers (t := e) ht
  | .void, _ | .bool, _ | .int, _ | .string, _ | .object, _ | .null, _ | .class_ _, _
  | .unknown, _ => trivial

theorem signature (h : r.Grows r') (user : Nat → TypeSig) :
    ∀ {t : StaticType}, r.Covers t → r'.signature user t = r.signature user t
  | .lib _, ht => congrArg TypeSig.class_ (h.classToken ht)
  | .array e, ht => congrArg TypeSig.array (h.signature user (t := e) ht)
  | .void, _ | .bool, _ | .int, _ | .string, _ | .object, _ | .null, _ | .class_ _, _
  | .unknown, _ => rfl

theorem typeSig (h : r.Grows r') {t : StaticType} : r.Covers t → r'.typeSig t = r.typeSig t :=
  h.signature _

end Grows

/-! ## Referring to something -/

variable (r : References)

theorem grows_useAssembly (a : Library.Assembly) : r.Grows (r.useAssembly a) :=
  { Grows.refl r with assemblies := prefix_intern _ _ }

theorem grows_useClass (c : Library.Class) : r.Grows (r.useClass c) :=
  { r.grows_useAssembly c.assembly with classes := prefix_intern _ _ }

theorem grows_useType (t : StaticType) : r.Grows (r.useType t) := by
  induction t with
  | lib c => exact r.grows_useClass c
  | array e ih => exact ih
  | void | bool | int | string | object | null | class_ | unknown => exact .refl r

theorem grows_foldl_useType (ts : List StaticType) : r.Grows (ts.foldl useType r) := by
  induction ts generalizing r with
  | nil => exact .refl r
  | cons t ts ih => exact (r.grows_useType t).trans (ih _)

theorem grows_useMethod (m : Library.Method) : r.Grows (r.useMethod m) := by
  have h := ((r.grows_useClass m.class_).trans (grows_foldl_useType _ m.params)).trans
    (grows_useType _ m.ret)
  exact { h with methods := h.methods.trans (prefix_intern _ _) }

theorem grows_useString (s : String) : r.Grows (r.useString s) :=
  { Grows.refl r with strings := prefix_intern _ _ }

theorem covers_useType : ∀ t : StaticType, (r.useType t).Covers t
  | .lib _ => mem_intern.2 (.inr rfl)
  | .array e => covers_useType e
  | .void | .bool | .int | .string | .object | .null | .class_ _ | .unknown => trivial

theorem covers_foldl_useType {ts : List StaticType} {t : StaticType} (h : t ∈ ts) :
    (ts.foldl useType r).Covers t := by
  induction ts generalizing r with
  | nil => cases h
  | cons t' ts ih =>
    rcases List.mem_cons.1 h with rfl | h
    · exact (grows_foldl_useType _ ts).covers (r.covers_useType t)
    · exact ih _ h

theorem mem_useClass (c : Library.Class) : c ∈ (r.useClass c).classes := mem_intern.2 (.inr rfl)

theorem mem_useMethod (m : Library.Method) : m ∈ (r.useMethod m).methods := mem_intern.2 (.inr rfl)

theorem mem_useString (s : String) : s ∈ (r.useString s).strings := mem_intern.2 (.inr rfl)

namespace Closed

variable {r}

theorem useAssembly (h : r.Closed) (a : Library.Assembly) : (r.useAssembly a).Closed :=
  { h with assembly := fun c hc => mem_intern.2 (.inl (h.assembly c hc)) }

theorem useClass (h : r.Closed) (c : Library.Class) : (r.useClass c).Closed where
  assembly := by
    intro c' hc'
    rcases mem_intern.1 hc' with hc' | rfl
    · exact mem_intern.2 (.inl (h.assembly c' hc'))
    · exact mem_intern.2 (.inr rfl)
  parent := fun m hm => mem_intern.2 (.inl (h.parent m hm))
  known := h.known

theorem useType (h : r.Closed) (t : StaticType) : (r.useType t).Closed := by
  induction t with
  | lib c => exact h.useClass c
  | array e ih => exact ih
  | void | bool | int | string | object | null | class_ | unknown => exact h

theorem foldl_useType (h : r.Closed) (ts : List StaticType) : (ts.foldl References.useType r).Closed := by
  induction ts generalizing r with
  | nil => exact h
  | cons t ts ih => exact ih (h.useType t)

theorem useMethod (h : r.Closed) {m : Library.Method} (hm : m ∈ Library.Method.all) :
    (r.useMethod m).Closed := by
  have hsig := ((h.useClass m.class_).foldl_useType m.params).useType m.ret
  have hgrows := (grows_foldl_useType (r.useClass m.class_) m.params).trans
    (grows_useType _ m.ret)
  have hclass := hgrows.classes.subset (r.mem_useClass m.class_)
  refine ⟨hsig.assembly, fun m' hm' => ?_, fun m' hm' => ?_⟩
  · rcases mem_intern.1 hm' with hm' | rfl
    · exact hsig.parent m' hm'
    · exact hclass
  · rcases mem_intern.1 hm' with hm' | rfl
    · exact hsig.known m' hm'
    · exact hm

theorem useString (h : r.Closed) (s : String) : (r.useString s).Closed :=
  ⟨h.assembly, h.parent, h.known⟩

end Closed

theorem closed_start (core : Version) : (start core).Closed :=
  ⟨fun _ h => (List.not_mem_nil h).elim, fun _ h => (List.not_mem_nil h).elim,
    fun _ h => (List.not_mem_nil h).elim⟩

/-! ## The methods of the framework -/

/-- **A constructor is found by its class and its parameters**, and no other is found there. -/
theorem ctor?_eq_some_iff {class_ : Library.Class} {params : List StaticType} {m : Library.Method} :
    Library.Method.ctor? class_ params = some m ↔
      m ∈ Library.Method.all ∧ m.kind = .ctor ∧ m.class_ = class_ ∧ m.params = params := by
  have hfound : ∀ m ∈ Library.Method.all, m.kind = .ctor →
      Library.Method.ctor? m.class_ m.params = some m := by decide
  constructor
  · intro h
    obtain ⟨⟨hclass, hkind⟩, hparams⟩ := by simpa using List.find?_some h
    exact ⟨List.mem_of_find?_eq_some h, hkind, hclass, hparams⟩
  · rintro ⟨hm, hkind, rfl, rfl⟩
    exact hfound m hm hkind

/-- The constructors that compiled modules refer to without being asked are in the table: a search for
them finds them. -/
theorem ctor?_of_named {m : Library.Method} (hm : m ∈ [Library.Method.objectCtor,
      .compilationRelaxationsCtor, .runtimeCompatibilityCtor, .standardModuleCtor]) :
    Library.Method.ctor? m.class_ m.params = some m :=
  have hnamed : ∀ m ∈ [Library.Method.objectCtor, .compilationRelaxationsCtor,
      .runtimeCompatibilityCtor, .standardModuleCtor], m ∈ Library.Method.all ∧ m.kind = .ctor := by
    decide
  ctor?_eq_some_iff.2 ⟨(hnamed m hm).1, (hnamed m hm).2, rfl, rfl⟩

/-- The methods of the framework have simple types only. -/
theorem simple_of_mem_all : ∀ m ∈ Library.Method.all, ∀ t ∈ m.ret :: m.params,
    t ∈ [StaticType.void, .bool, .int, .string, .object] := by
  decide

theorem covers_of_mem_all {m : Library.Method} (hm : m ∈ Library.Method.all) {t : StaticType}
    (ht : t ∈ m.ret :: m.params) : r.Covers t := by
  have hsimple := simple_of_mem_all m hm t ht
  simp only [List.mem_cons, List.not_mem_nil, or_false] at hsimple
  rcases hsimple with rfl | rfl | rfl | rfl | rfl <;> exact trivial

/-- No class of a program stands in the signature of a method of the framework. -/
theorem signature_of_mem_all (user : Nat → TypeSig) {m : Library.Method} (hm : m ∈ Library.Method.all)
    {t : StaticType} (ht : t ∈ m.ret :: m.params) : r.signature user t = r.typeSig t := by
  have hsimple := simple_of_mem_all m hm t ht
  simp only [List.mem_cons, List.not_mem_nil, or_false] at hsimple
  rcases hsimple with rfl | rfl | rfl | rfl | rfl <;> rfl

/-! ## The rows of the tables -/

/-- The row of a method. -/
def memberRef (r : References) (m : Library.Method) : MemberRef where
  parent := r.classToken m.class_
  name := m.name
  sig :=
    { hasThis := m.hasThis
      ret := r.signature (fun _ => .object) m.ret
      params := m.params.map (r.signature fun _ => .object) }

/-- The rows of every table of `r` are in the table of `r'`, in the same places. -/
structure RowsGrow (r r' : References) : Prop where
  assemblyRefs : r.assemblyRefs <+: r'.assemblyRefs
  typeRefs : r.typeRefs <+: r'.typeRefs
  memberRefs : r.memberRefs <+: r'.memberRefs
  strings : r.strings <+: r'.strings

namespace Grows

variable {r r' : References}

theorem assemblyRefs (h : r.Grows r') : r.assemblyRefs <+: r'.assemblyRefs := by
  rw [References.assemblyRefs, References.assemblyRefs, h.core]
  exact h.assemblies.map _

theorem typeRefs (h : r.Grows r') (hr : r.Closed) : r.typeRefs <+: r'.typeRefs := by
  have hrows : r.typeRefs = r.classes.map fun c =>
      { scope := r'.assemblyToken c.assembly, namespace_ := c.namespace_, name := c.name } :=
    List.map_congr_left fun c hc => by rw [h.assemblyToken (hr.assembly c hc)]
  rw [hrows]
  exact h.classes.map _

/-- The row of a method stays if its class and the classes of its signature are referred to. -/
theorem memberRef (h : r.Grows r') {m : Library.Method} (hclass : m.class_ ∈ r.classes)
    (hcovers : ∀ t ∈ m.ret :: m.params, r.Covers t) : r'.memberRef m = r.memberRef m := by
  have hsig : ∀ t ∈ m.ret :: m.params,
      r'.signature (fun _ => .object) t = r.signature (fun _ => .object) t :=
    fun t ht => h.signature _ (hcovers t ht)
  rw [References.memberRef, References.memberRef, h.classToken hclass, hsig m.ret List.mem_cons_self,
    List.map_congr_left fun t ht => hsig t (List.mem_cons_of_mem _ ht)]

theorem memberRefs (h : r.Grows r') (hr : r.Closed) : r.memberRefs <+: r'.memberRefs := by
  have hrows : r.methods.map r'.memberRef = r.memberRefs :=
    List.map_congr_left fun m hm =>
      h.memberRef (hr.parent m hm) fun _ ht => r.covers_of_mem_all (hr.known m hm) ht
  rw [← hrows]
  exact h.methods.map _

/-- **Rows that name only what is in a table stay as they are.** -/
theorem rows (h : r.Grows r') (hr : r.Closed) : r.RowsGrow r' :=
  ⟨h.assemblyRefs, h.typeRefs hr, h.memberRefs hr, h.strings⟩

end Grows

end References

end CilScope
