import CilScope.Proofs.Listing.Names
import CilScope.Proofs.References
import Mathlib

/-!
# What is asked of the references

A lowering asks for tokens in any order, and every request may add rows to several tables: a method
brings its class, the assembly of that and the classes of its signature. `References.Held` says that a
request has been met before; it stays so as the tables grow, and what is held is described by its row
(`describes_of_held`), gets the same answer again and adds nothing (`refer_of_held`). With the
invariant of all requests, `References.Sound`, this is `run_spec`: the tables are consistent after any
sequence of requests, and every answer that was ever given is right in them.
-/

namespace CilScope

open Metadata

namespace References

/-- Something that is asked of the references. -/
inductive Request
  | assembly (a : Library.Assembly)
  | class_ (c : Library.Class)
  /-- A method, by its number in the framework. -/
  | method (id : Fin Library.Method.all.length)
  | string (s : String)
  /-- The signature of a type; `user` gives that of a class of the program. -/
  | sig (t : StaticType) (user : Nat → TypeSig)

/-- What is given back. -/
inductive Answer
  | token (t : Token)
  | sig (s : TypeSig)
  deriving DecidableEq

/-- The tables once a request is met. -/
def refer (r : References) : Request → References
  | .assembly a => r.useAssembly a
  | .class_ c => r.useClass c
  | .method id => r.useMethod Library.Method.all[id]
  | .string s => r.useString s
  | .sig t _ => r.useType t

/-- What the tables answer. -/
def answer (r : References) : Request → Answer
  | .assembly a => .token (r.assemblyToken a)
  | .class_ c => .token (r.classToken c)
  | .method id => .token (r.methodToken Library.Method.all[id])
  | .string s => .token (r.stringToken s)
  | .sig t user => .sig (r.signature user t)

/-- Meets a request: the answer, and the tables behind it. -/
def ask (r : References) (q : Request) : Answer × References :=
  let r := r.refer q
  (r.answer q, r)

/-- Meets requests one after the other. -/
def run (r : References) (requests : List Request) : References :=
  requests.foldl (fun r q => (r.ask q).2) r

/-! ## What rows tell -/

/-- The token leads to the row of an assembly. -/
def LeadsToAssembly (r : References) (t : Token) (a : Library.Assembly) : Prop :=
  rowAt? .assemblyRef r.assemblyRefs t = some ⟨a.name, a.version r.core, some a.publicKeyToken⟩

/-- The token leads to the row of a class, and that to its assembly. -/
def LeadsToClass (r : References) (t : Token) (c : Library.Class) : Prop :=
  ∃ scope, rowAt? .typeRef r.typeRefs t = some ⟨scope, c.namespace_, c.name⟩ ∧
    r.LeadsToAssembly scope c.assembly

/-- The signature is that of a type: the classes of the framework by tokens that lead to them, the
classes of the program as `user` gives them. -/
inductive Spells (r : References) (user : Nat → TypeSig) : TypeSig → StaticType → Prop
  | void : r.Spells user .void .void
  | bool : r.Spells user .bool .bool
  | int : r.Spells user .int32 .int
  | string : r.Spells user .string .string
  | object : r.Spells user .object .object
  | null : r.Spells user .object .null
  | unknown : r.Spells user .object .unknown
  | lib {t : Token} {c : Library.Class} (h : r.LeadsToClass t c) : r.Spells user (.class_ t) (.lib c)
  | class_ (index : Nat) : r.Spells user (user index) (.class_ index)
  | array {sig : TypeSig} {t : StaticType} (h : r.Spells user sig t) :
      r.Spells user (.array sig) (.array t)

/-- The token leads to the row of a method, and that to its class and the types of its signature. -/
def LeadsToMethod (r : References) (t : Token) (m : Library.Method) : Prop :=
  ∃ row, rowAt? .memberRef r.memberRefs t = some row ∧ row.name = m.name ∧
    r.LeadsToClass row.parent m.class_ ∧ row.sig.hasThis = m.hasThis ∧
    List.Forall₂ (r.Spells fun _ => .object) row.sig.types (m.ret :: m.params)

/-- The answer is right in the tables: it leads to what was asked for. -/
def Describes (r : References) : Request → Answer → Prop
  | .assembly a, .token t => r.LeadsToAssembly t a
  | .class_ c, .token t => r.LeadsToClass t c
  | .method id, .token t => r.LeadsToMethod t Library.Method.all[id]
  | .string s, .token t => rowAt? .userString r.strings t = some s
  | .sig t user, .sig s => r.Spells user s t
  | _, _ => False

/-- No table has a row twice, and every token in a row leads to a row. -/
structure Consistent (r : References) : Prop where
  assemblyRefs : r.assemblyRefs.Nodup
  typeRefs : r.typeRefs.Nodup
  memberRefs : r.memberRefs.Nodup
  strings : r.strings.Nodup
  scope : ∀ row ∈ r.typeRefs, ∃ a, r.LeadsToAssembly row.scope a
  parent : ∀ row ∈ r.memberRefs, ∃ c, r.LeadsToClass row.parent c
  signature : ∀ row ∈ r.memberRefs, ∀ sig ∈ row.sig.types, ∀ t, sig.token? = some t →
    ∃ c, r.LeadsToClass t c

/-! ## The invariant of requests -/

theorem nodup_intern {α : Type} [DecidableEq α] {xs : List α} (h : xs.Nodup) (x : α) :
    (intern xs x).Nodup := by
  unfold intern
  split
  · exact h
  · exact h.append (List.nodup_singleton x) (List.disjoint_singleton.2 ‹x ∉ xs›)

theorem intern_of_mem {α : Type} [DecidableEq α] {xs : List α} {x : α} (h : x ∈ xs) :
    intern xs x = xs :=
  if_pos h

/-- Everything is referred to once. -/
structure Distinct (r : References) : Prop where
  assemblies : r.assemblies.Nodup
  classes : r.classes.Nodup
  methods : r.methods.Nodup
  strings : r.strings.Nodup

namespace Distinct

variable {r : References}

theorem useAssembly (h : r.Distinct) (a : Library.Assembly) : (r.useAssembly a).Distinct :=
  { h with assemblies := nodup_intern h.assemblies a }

theorem useClass (h : r.Distinct) (c : Library.Class) : (r.useClass c).Distinct :=
  { h.useAssembly c.assembly with classes := nodup_intern h.classes c }

theorem useType (h : r.Distinct) (t : StaticType) : (r.useType t).Distinct := by
  induction t with
  | lib c => exact h.useClass c
  | array e ih => exact ih
  | void | bool | int | string | object | null | class_ | unknown => exact h

theorem foldl_useType (h : r.Distinct) (ts : List StaticType) :
    (ts.foldl References.useType r).Distinct := by
  induction ts generalizing r with
  | nil => exact h
  | cons t ts ih => exact ih (h.useType t)

theorem useMethod (h : r.Distinct) (m : Library.Method) : (r.useMethod m).Distinct :=
  have hsig := ((h.useClass m.class_).foldl_useType m.params).useType m.ret
  { hsig with methods := nodup_intern hsig.methods m }

theorem useString (h : r.Distinct) (s : String) : (r.useString s).Distinct :=
  { h with strings := nodup_intern h.strings s }

end Distinct

/-- What every request keeps. -/
structure Sound (r : References) : Prop extends r.Closed, r.Distinct

variable {r r' : References}

theorem sound_start (core : Version) : (start core).Sound :=
  { closed_start core with
    assemblies := List.nodup_singleton _
    classes := List.nodup_nil
    methods := List.nodup_nil
    strings := List.nodup_nil }

theorem sound_refer (h : r.Sound) (q : Request) : (r.refer q).Sound := by
  cases q with
  | assembly a => exact ⟨h.toClosed.useAssembly a, h.toDistinct.useAssembly a⟩
  | class_ c => exact ⟨h.toClosed.useClass c, h.toDistinct.useClass c⟩
  | method id =>
    exact ⟨h.toClosed.useMethod (List.getElem_mem id.isLt), h.toDistinct.useMethod _⟩
  | string s => exact ⟨h.toClosed.useString s, h.toDistinct.useString s⟩
  | sig t user => exact ⟨h.toClosed.useType t, h.toDistinct.useType t⟩

theorem grows_refer (r : References) (q : Request) : r.Grows (r.refer q) := by
  cases q with
  | assembly a => exact r.grows_useAssembly a
  | class_ c => exact r.grows_useClass c
  | method id => exact r.grows_useMethod _
  | string s => exact r.grows_useString s
  | sig t user => exact r.grows_useType t

theorem sound_run (h : r.Sound) (requests : List Request) : (r.run requests).Sound := by
  induction requests generalizing r with
  | nil => exact h
  | cons q requests ih => exact ih (sound_refer h q)

theorem grows_run (r : References) (requests : List Request) : r.Grows (r.run requests) := by
  induction requests generalizing r with
  | nil => exact .refl r
  | cons q requests ih => exact (r.grows_refer q).trans (ih _)

/-! ## What has been asked for -/

/-- What is asked for has been referred to. -/
def Held (r : References) : Request → Prop
  | .assembly a => a ∈ r.assemblies
  | .class_ c => c ∈ r.classes
  | .method id => Library.Method.all[id] ∈ r.methods
  | .string s => s ∈ r.strings
  | .sig t _ => r.Covers t

theorem held_refer (r : References) (q : Request) : (r.refer q).Held q := by
  cases q with
  | assembly a => exact mem_intern.2 (.inr rfl)
  | class_ c => exact r.mem_useClass c
  | method id => exact r.mem_useMethod _
  | string s => exact r.mem_useString s
  | sig t user => exact r.covers_useType t

theorem Grows.held (h : r.Grows r') {q : Request} (hq : r.Held q) : r'.Held q := by
  cases q with
  | assembly a => exact h.assemblies.subset hq
  | class_ c => exact h.classes.subset hq
  | method id => exact h.methods.subset hq
  | string s => exact h.strings.subset hq
  | sig t user => exact h.covers hq

theorem Grows.answer (h : r.Grows r') {q : Request} (hq : r.Held q) : r'.answer q = r.answer q := by
  cases q with
  | assembly a => exact congrArg Answer.token (h.assemblyToken hq)
  | class_ c => exact congrArg Answer.token (h.classToken hq)
  | method id => exact congrArg Answer.token (h.methodToken hq)
  | string s => exact congrArg Answer.token (h.stringToken hq)
  | sig t user => exact congrArg Answer.sig (h.signature user hq)

theorem useAssembly_of_mem {a : Library.Assembly} (ha : a ∈ r.assemblies) : r.useAssembly a = r :=
  congrArg (fun xs => { r with assemblies := xs }) (intern_of_mem ha)

theorem useClass_of_mem (h : r.Sound) {c : Library.Class} (hc : c ∈ r.classes) :
    r.useClass c = r := by
  unfold useClass
  rw [useAssembly_of_mem (h.assembly c hc)]
  exact congrArg (fun xs => { r with classes := xs }) (intern_of_mem hc)

theorem useType_of_covers (h : r.Sound) : ∀ {t : StaticType}, r.Covers t → r.useType t = r
  | .lib _, ht => useClass_of_mem h ht
  | .array e, ht => useType_of_covers (t := e) h ht
  | .void, _ | .bool, _ | .int, _ | .string, _ | .object, _ | .null, _ | .class_ _, _
  | .unknown, _ => rfl

theorem foldl_useType_of_covers (h : r.Sound) {ts : List StaticType} (hts : ∀ t ∈ ts, r.Covers t) :
    ts.foldl useType r = r := by
  induction ts with
  | nil => rfl
  | cons t ts ih =>
    obtain ⟨ht, hts⟩ := List.forall_mem_cons.1 hts
    rw [List.foldl_cons, useType_of_covers h ht, ih hts]

theorem useMethod_of_mem (h : r.Sound) {m : Library.Method} (hm : m ∈ r.methods) :
    r.useMethod m = r := by
  obtain ⟨hret, hparams⟩ := List.forall_mem_cons.1 fun _ => r.covers_of_mem_all (h.known m hm)
  unfold useMethod
  rw [useClass_of_mem h (h.parent m hm), foldl_useType_of_covers h hparams, useType_of_covers h hret]
  exact congrArg (fun xs => { r with methods := xs }) (intern_of_mem hm)

/-- Asking again adds nothing. -/
theorem refer_of_held (h : r.Sound) {q : Request} (hq : r.Held q) : r.refer q = r := by
  cases q with
  | assembly a => exact useAssembly_of_mem hq
  | class_ c => exact useClass_of_mem h hq
  | method id => exact useMethod_of_mem h hq
  | string s => exact congrArg (fun xs => { r with strings := xs }) (intern_of_mem hq)
  | sig t user => exact useType_of_covers h hq

theorem ask_of_held (h : r.Sound) {q : Request} (hq : r.Held q) : r.ask q = (r.answer q, r) := by
  rw [ask, refer_of_held h hq]

/-! ## Answers are right -/

/-- Tables so short that the rows have all their numbers. Only the strings have no bound of their own. -/
def Short (r : References) : Prop := r.strings.length < 2 ^ 24 - 1

theorem mem_allClasses (c : Library.Class) : c ∈ Library.Class.all := by cases c <;> decide

theorem length_map_lt {α β : Type} {xs all : List α} (row : α → β) {n : Nat} (h : xs.Nodup)
    (hsub : xs ⊆ all) (hall : all.length < n) : (xs.map row).length < n := by
  rw [List.length_map]
  exact (List.subperm_of_subset h hsub).length_le.trans_lt hall

theorem length_assemblyRefs_lt (h : r.Sound) : r.assemblyRefs.length < 2 ^ 24 - 1 := by
  have hsub : r.assemblies ⊆ [.core, .visualBasic] := fun a _ => by cases a <;> simp
  exact length_map_lt _ h.assemblies hsub (by decide)

theorem length_typeRefs_lt (h : r.Sound) : r.typeRefs.length < 2 ^ 24 - 1 :=
  length_map_lt _ h.classes (fun c _ => mem_allClasses c) (by decide)

theorem length_memberRefs_lt (h : r.Sound) : r.memberRefs.length < 2 ^ 24 - 1 :=
  length_map_lt _ h.methods h.known (by decide)

theorem leadsToAssembly (h : r.Sound) {a : Library.Assembly} (ha : a ∈ r.assemblies) :
    r.LeadsToAssembly (r.assemblyToken a) a :=
  rowAt?_idxOf .assemblyRef (length_assemblyRefs_lt h) ha

theorem leadsToClass (h : r.Sound) {c : Library.Class} (hc : c ∈ r.classes) :
    r.LeadsToClass (r.classToken c) c :=
  ⟨_, rowAt?_idxOf .typeRef (length_typeRefs_lt h) hc, leadsToAssembly h (h.assembly c hc)⟩

theorem spells (h : r.Sound) (user : Nat → TypeSig) :
    ∀ {t : StaticType}, r.Covers t → r.Spells user (r.signature user t) t
  | .lib _, ht => .lib (leadsToClass h ht)
  | .class_ index, _ => .class_ index
  | .array e, ht => .array (spells (t := e) h user ht)
  | .void, _ => .void
  | .bool, _ => .bool
  | .int, _ => .int
  | .string, _ => .string
  | .object, _ => .object
  | .null, _ => .null
  | .unknown, _ => .unknown

theorem leadsToMethod (h : r.Sound) {m : Library.Method} (hm : m ∈ r.methods) :
    r.LeadsToMethod (r.methodToken m) m := by
  refine ⟨_, rowAt?_idxOf .memberRef (length_memberRefs_lt h) hm, rfl,
    leadsToClass h (h.parent m hm), rfl, ?_⟩
  refine (List.forall₂_map_left_iff (f := r.signature _) (l := m.ret :: m.params)).2 ?_
  exact List.forall₂_same.2 fun t ht => spells h _ (r.covers_of_mem_all (h.known m hm) ht)

/-- **What has been asked for is described by the row it is answered with.** -/
theorem describes_of_held (h : r.Sound) (hshort : r.Short) {q : Request} (hq : r.Held q) :
    r.Describes q (r.answer q) := by
  cases q with
  | assembly a => exact leadsToAssembly h hq
  | class_ c => exact leadsToClass h hq
  | method id => exact leadsToMethod h hq
  | string s => exact rowAt?_ofRow .userString hshort (List.getElem?_idxOf hq)
  | sig t user => exact spells h user hq

/-! ## The tables are consistent -/

theorem name_assembly_injective : Function.Injective Library.Assembly.name := by
  intro a b h
  cases a <;> cases b <;> first | rfl | exact absurd h (by decide)

theorem name_class_injective : Function.Injective Library.Class.name := fun c c' h =>
  List.inj_on_of_nodup_map (by decide : (Library.Class.all.map Library.Class.name).Nodup)
    (mem_allClasses c) (mem_allClasses c') h

/-- What a row tells of a method. -/
def rowKey (m : Library.Method) : Library.Class × String × Bool × List StaticType :=
  (m.class_, m.name, m.hasThis, m.ret :: m.params)

theorem nodup_rowKeys : (Library.Method.all.map rowKey).Nodup := by decide

/-- The simple type that has a signature. -/
def plain : TypeSig → StaticType
  | .void => .void
  | .bool => .bool
  | .int32 => .int
  | .string => .string
  | .object | .class_ _ | .array _ => .object

theorem map_plain_signature (r : References) (user : Nat → TypeSig) {m : Library.Method}
    (hm : m ∈ Library.Method.all) :
    ((m.ret :: m.params).map (r.signature user)).map plain = m.ret :: m.params := by
  rw [List.map_map]
  refine (List.map_congr_left fun t ht => ?_).trans (List.map_id _)
  have hsimple := simple_of_mem_all m hm t ht
  simp only [List.mem_cons, List.not_mem_nil, or_false] at hsimple
  rcases hsimple with rfl | rfl | rfl | rfl | rfl <;> rfl

theorem classToken_inj (h : r.Sound) {c c' : Library.Class} (hc : c ∈ r.classes)
    (hc' : c' ∈ r.classes) (heq : r.classToken c = r.classToken c') : c = c' := by
  have hshort := length_typeRefs_lt h
  rw [typeRefs, List.length_map] at hshort
  have hlt {x : Library.Class} (hx : x ∈ r.classes) : r.classes.idxOf x < 2 ^ 24 - 1 :=
    (List.idxOf_lt_length_of_mem hx).trans hshort
  have hrow := congrArg Token.row? heq
  rw [classToken, classToken, Token.row?_ofRow _ (hlt hc), Token.row?_ofRow _ (hlt hc')] at hrow
  exact (List.idxOf_inj hc).1 (Option.some.inj hrow)

/-- Methods with equal rows are the same method. -/
theorem eq_of_memberRef_eq (h : r.Sound) {m m' : Library.Method} (hm : m ∈ r.methods)
    (hm' : m' ∈ r.methods) (hparent : r.classToken m.class_ = r.classToken m'.class_)
    (hname : m.name = m'.name) (hthis : m.hasThis = m'.hasThis) (user : Nat → TypeSig)
    (htypes : (m.ret :: m.params).map (r.signature user) =
      (m'.ret :: m'.params).map (r.signature user)) : m = m' := by
  have hclass := classToken_inj h (h.parent m hm) (h.parent m' hm') hparent
  have htypes := congrArg (List.map plain) htypes
  rw [map_plain_signature r user (h.known m hm), map_plain_signature r user (h.known m' hm')] at htypes
  refine List.inj_on_of_nodup_map nodup_rowKeys (h.known m hm) (h.known m' hm') ?_
  rw [rowKey, rowKey, hclass, hname, hthis, htypes]

theorem nodup_memberRefs (h : r.Sound) : r.memberRefs.Nodup := by
  refine h.methods.map_on fun m hm m' hm' heq => ?_
  obtain ⟨hparent, hname, hsig⟩ := MemberRef.mk.inj heq
  obtain ⟨hthis, hret, hparams⟩ := MethodSig.mk.inj hsig
  exact eq_of_memberRef_eq h hm hm' hparent hname hthis _ (congrArg₂ List.cons hret hparams)

/-- The class that a signature names has a row. -/
theorem leadsToClass_of_token? (h : r.Sound) {t : StaticType} (hcovers : r.Covers t) {token : Token}
    (htoken : (r.signature (fun _ => .object) t).token? = some token) :
    ∃ c, r.LeadsToClass token c := by
  induction t with
  | lib c => exact ⟨c, Option.some.inj htoken ▸ leadsToClass h hcovers⟩
  | array element ih => exact ih hcovers htoken
  | void | bool | int | string | object | null | class_ | unknown => cases htoken

theorem consistent (h : r.Sound) : r.Consistent where
  assemblyRefs := h.assemblies.map fun a b hab => name_assembly_injective (congrArg AssemblyRef.name hab)
  typeRefs := h.classes.map fun c c' hcc => name_class_injective (congrArg TypeRef.name hcc)
  memberRefs := nodup_memberRefs h
  strings := h.strings
  scope := by
    intro row hrow
    obtain ⟨c, hc, rfl⟩ := List.mem_map.1 hrow
    exact ⟨c.assembly, leadsToAssembly h (h.assembly c hc)⟩
  parent := by
    intro row hrow
    obtain ⟨m, hm, rfl⟩ := List.mem_map.1 hrow
    exact ⟨m.class_, leadsToClass h (h.parent m hm)⟩
  signature := by
    intro row hrow sig hsig token htoken
    obtain ⟨m, hm, rfl⟩ := List.mem_map.1 hrow
    obtain ⟨t, ht, rfl⟩ := List.mem_map.1
      (show sig ∈ (m.ret :: m.params).map (r.signature fun _ => .object) from hsig)
    exact leadsToClass_of_token? h (r.covers_of_mem_all (h.known m hm) ht) htoken

/-- **References stay right.** After any requests the tables are consistent. Every answer that was given
on the way leads to rows that were there and have not changed since, these describe what was asked for,
and asking for it again gives the same answer and adds nothing. -/
theorem answers_stay_right (core : Version) (requests : List Request)
    (hshort : ((start core).run requests).Short) :
    ((start core).run requests).Consistent ∧
      ∀ before q behind, requests = before ++ q :: behind →
        let asked := ((start core).run before).ask q
        asked.2.RowsGrow ((start core).run requests) ∧
          ((start core).run requests).Describes q asked.1 ∧
          ((start core).run requests).ask q = (asked.1, (start core).run requests) := by
  have hsound := sound_run (sound_start core) requests
  refine ⟨consistent hsound, ?_⟩
  rintro before q behind rfl
  intro asked
  have hlast : (start core).run (before ++ q :: behind) = asked.2.run behind := by
    rw [run, List.foldl_append]
    rfl
  have hasked : asked.2.Sound := sound_refer (sound_run (sound_start core) before) q
  have hgrows := asked.2.grows_run behind
  rw [← hlast] at hgrows
  have hheld := hgrows.held (held_refer ((start core).run before) q)
  have hanswer : ((start core).run (before ++ q :: behind)).answer q = asked.1 :=
    hgrows.answer (held_refer ((start core).run before) q)
  refine ⟨hgrows.rows hasked.toClosed, ?_, ?_⟩
  · rw [← hanswer]
    exact describes_of_held hsound hshort hheld
  · rw [ask_of_held hsound hheld, hanswer]

/-- The requests of a program that throws an exception with a message. -/
def throwing : List Request :=
  [.method ⟨26, by decide⟩, .string "empty", .class_ .standardModule,
    .sig (.array (.lib .exception)) fun index => .class_ (.ofRow .typeDef index),
    .method ⟨26, by decide⟩]

/-- The message keeps its row, and the class that the constructor brought is the one in the signature. -/
theorem answers_stay_right_throwing :
    ((start { major := 2 }).run throwing).Short ∧ ((start { major := 2 }).run throwing).Consistent ∧
      ((start { major := 2 }).run throwing).ask (.string "empty") =
        (.token (.ofRow .userString 0), (start { major := 2 }).run throwing) ∧
      ((start { major := 2 }).run throwing).Describes
        (.sig (.array (.lib .exception)) fun index => .class_ (.ofRow .typeDef index))
        (.sig (.array (.class_ (.ofRow .typeRef 0)))) := by
  have hshort : ((start { major := 2 }).run throwing).Short := by
    unfold Short
    decide
  obtain ⟨hconsistent, hanswers⟩ := answers_stay_right { major := 2 } throwing hshort
  have hstring := hanswers (throwing.take 1) (.string "empty") (throwing.drop 2) rfl
  have hsig := hanswers (throwing.take 3) _ (throwing.drop 4) rfl
  exact ⟨hshort, hconsistent, hstring.2.2, hsig.2.1⟩

end References

end CilScope
