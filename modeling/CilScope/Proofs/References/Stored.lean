import CilScope.Proofs.References.Requests
import Mathlib

/-!
# References with stored rows

`References` keeps what is referred to; the rows of the tables and the tokens are views of that. A
`Store` keeps the rows themselves, each made from the tokens that there are at that time, and beside
every table the tokens it has given out. A request looks there first and makes a row only if it finds
nothing (`Store.keep`). `Store.Holds` relates the two, every part of a request keeps it
(`Store.Meets`), and so they cannot be told apart: after any requests a store has the rows of the views,
and whatever is asked next gets the same answer (`Store.run_exact`).
-/

namespace CilScope

open Metadata

namespace References

/-- The rows of a table with the tokens of what they are for. -/
structure Shelf (κ ρ : Type) where
  rows : List ρ := []
  tokens : List (κ × Token) := []

/-- The tables with their rows. -/
structure Store where
  /-- The version of the core library. -/
  core : Version
  assemblies : Shelf Library.Assembly AssemblyRef := {}
  classes : Shelf Library.Class TypeRef := {}
  methods : Shelf (Fin Library.Method.all.length) MemberRef := {}
  strings : Shelf String String := {}

namespace Shelf

variable {κ ρ : Type} [DecidableEq κ]

/-- The token that was given out for `key`. -/
def token? (s : Shelf κ ρ) (key : κ) : Option Token := s.tokens.lookup key

/-- Appends a row for `key`. -/
def add (s : Shelf κ ρ) (table : Table) (key : κ) (row : ρ) : Token × Shelf κ ρ :=
  let token := .ofRow table s.rows.length
  (token, { rows := s.rows ++ [row], tokens := (key, token) :: s.tokens })

end Shelf

/-- One of the tables of a store. -/
structure Column (κ ρ : Type) where
  table : Table
  shelf : Store → Shelf κ ρ
  put : Store → Shelf κ ρ → Store

namespace Store

/-- The assemblies. -/
def assemblyColumn : Column Library.Assembly AssemblyRef :=
  ⟨.assemblyRef, assemblies, fun s assemblies => { s with assemblies }⟩

/-- The classes. -/
def classColumn : Column Library.Class TypeRef :=
  ⟨.typeRef, classes, fun s classes => { s with classes }⟩

/-- The methods, by their numbers in the framework. -/
def methodColumn : Column (Fin Library.Method.all.length) MemberRef :=
  ⟨.memberRef, methods, fun s methods => { s with methods }⟩

/-- The strings. -/
def stringColumn : Column String String :=
  ⟨.userString, strings, fun s strings => { s with strings }⟩

/-- The token of `key`. A row that is not yet there is made first, which may add rows to other
tables. -/
def keep {κ ρ : Type} [DecidableEq κ] (column : Column κ ρ) (key : κ) (make : StateM Store ρ) :
    StateM Store Token := do
  match (column.shelf (← get)).token? key with
  | some token => return token
  | none =>
    let row ← make
    let store ← get
    let (token, shelf) := (column.shelf store).add column.table key row
    set (column.put store shelf)
    return token

/-- The row of an assembly. -/
def assemblyRow (a : Library.Assembly) : StateM Store AssemblyRef := do
  return {
    name := a.name, version := a.version (← get).core, publicKeyToken := some a.publicKeyToken }

/-- The token of an assembly. -/
def assembly (a : Library.Assembly) : StateM Store Token :=
  keep assemblyColumn a (assemblyRow a)

/-- The row of a class, behind that of its assembly. -/
def classRow (c : Library.Class) : StateM Store TypeRef := do
  let scope ← assembly c.assembly
  return { scope, namespace_ := c.namespace_, name := c.name }

/-- The token of a class. -/
def class_ (c : Library.Class) : StateM Store Token := keep classColumn c (classRow c)

/-- The signature of a type; `user` gives that of a class of the program. -/
def sig (user : Nat → TypeSig) : StaticType → StateM Store TypeSig
  | .void => return .void
  | .bool => return .bool
  | .int => return .int32
  | .string => return .string
  | .object | .null | .unknown => return .object
  | .lib c => return .class_ (← class_ c)
  | .class_ index => return user index
  | .array element => return .array (← sig user element)

/-- The row of a method, behind those of its class and of the classes of its signature. -/
def methodRow (m : Library.Method) : StateM Store MemberRef := do
  let parent ← class_ m.class_
  let params ← m.params.mapM (sig fun _ => .object)
  let ret ← sig (fun _ => .object) m.ret
  return { parent, name := m.name, sig := { hasThis := m.hasThis, ret, params } }

/-- The token of a method. -/
def method (id : Fin Library.Method.all.length) : StateM Store Token :=
  keep methodColumn id (methodRow (Library.Method.all.get id))

/-- The token of a string. -/
def string (text : String) : StateM Store Token := keep stringColumn text (return text)

/-- Meets a request. -/
def ask : Request → StateM Store Answer
  | .assembly a => return .token (← assembly a)
  | .class_ c => return .token (← class_ c)
  | .method id => return .token (← method id)
  | .string text => return .token (← string text)
  | .sig t user => return .sig (← sig user t)

/-- Meets requests one after the other. -/
def run (s : Store) (requests : List Request) : Store :=
  requests.foldl (fun s q => ((ask q).run s).2) s

/-- The core library is referred to first. -/
def start (core : Version) : Store := ((assembly .core).run { core }).2

end Store

/-! ## Shelves -/

namespace Shelf

variable {κ ρ α : Type} [DecidableEq κ] [DecidableEq α]

/-- The shelf has the rows `rows`, one for each of `xs`, and has given out the tokens of these; `name`
tells which of them a key stands for. -/
structure Holds (s : Shelf κ ρ) (table : Table) (name : κ → α) (xs : List α) (rows : List ρ) :
    Prop where
  eq_rows : s.rows = rows
  length : rows.length = xs.length
  token? : ∀ key, s.token? key =
    if name key ∈ xs then some (.ofRow table (xs.idxOf (name key))) else none

variable {s : Shelf κ ρ} {table : Table} {name : κ → α} {xs : List α} {rows : List ρ}

theorem holds_nil (table : Table) (name : κ → α) : ({} : Shelf κ ρ).Holds table name [] [] :=
  ⟨rfl, rfl, fun _ => rfl⟩

theorem Holds.congr (h : s.Holds table name xs rows) {rows' : List ρ} (heq : rows' = rows) :
    s.Holds table name xs rows' :=
  heq ▸ h

/-- A token that was given out is that of something there is a row for. -/
theorem Holds.of_some (h : s.Holds table name xs rows) {key : κ} {token : Token}
    (htoken : s.token? key = some token) :
    name key ∈ xs ∧ token = .ofRow table (xs.idxOf (name key)) := by
  rw [h.token?] at htoken
  split at htoken
  · exact ⟨‹_›, (Option.some.inj htoken).symm⟩
  · cases htoken

theorem Holds.of_none (h : s.Holds table name xs rows) {key : κ} (htoken : s.token? key = none) :
    name key ∉ xs := by
  intro hmem
  rw [h.token?, if_pos hmem] at htoken
  cases htoken

/-- A row for something new comes last, and its token is given out. -/
theorem Holds.add (h : s.Holds table name xs rows) (hname : Function.Injective name) {key : κ}
    (hkey : name key ∉ xs) (row : ρ) :
    (s.add table key row).1 = .ofRow table ((intern xs (name key)).idxOf (name key)) ∧
      (s.add table key row).2.Holds table name (intern xs (name key)) (rows ++ [row]) := by
  have hlast : (intern xs (name key)).idxOf (name key) = s.rows.length := by
    rw [intern, if_neg hkey, List.idxOf_append_of_notMem hkey, List.idxOf_cons_self, Nat.add_zero,
      h.eq_rows, h.length]
  refine ⟨by rw [hlast, Shelf.add], by rw [Shelf.add, h.eq_rows], ?_, fun key' => ?_⟩
  · rw [intern, if_neg hkey, List.length_append, List.length_append, h.length]
    rfl
  · rw [Shelf.token?, Shelf.add, List.lookup_cons]
    by_cases heq : key' = key
    · subst heq
      rw [beq_self_eq_true, if_pos (mem_intern.2 (.inr rfl)), hlast]
    · have hne : name key' ≠ name key := fun hn => heq (hname hn)
      rw [beq_eq_false_iff_ne.2 heq, ← Shelf.token?, h.token?]
      by_cases hmem : name key' ∈ xs
      · rw [if_pos hmem, if_pos (mem_intern.2 (.inl hmem)),
          idxOf_of_prefix (prefix_intern xs (name key)) hmem]
      · rw [if_neg hmem, if_neg fun hin => (mem_intern.1 hin).elim hmem hne]

end Shelf

/-! ## Views that stay -/

namespace Grows

variable {r r' : References}

theorem typeRefs_eq (h : r.Grows r') (hr : r.Closed) (hclasses : r'.classes = r.classes) :
    r'.typeRefs = r.typeRefs := by
  refine ((h.typeRefs hr).eq_of_length ?_).symm
  rw [References.typeRefs, References.typeRefs, List.length_map, List.length_map, hclasses]

theorem memberRefs_eq (h : r.Grows r') (hr : r.Closed) (hmethods : r'.methods = r.methods) :
    r'.memberRefs = r.memberRefs := by
  refine ((h.memberRefs hr).eq_of_length ?_).symm
  rw [References.memberRefs, References.memberRefs, List.length_map, List.length_map, hmethods]

end Grows

section

variable (r : References) (m : Library.Method)

/-- Refers to the class of a method and to the classes of its signature. -/
def useSignature : References := (m.params.foldl useType (r.useClass m.class_)).useType m.ret

theorem assemblyRefs_useAssembly {a : Library.Assembly} (h : a ∉ r.assemblies) :
    (r.useAssembly a).assemblyRefs =
      r.assemblyRefs ++ [⟨a.name, a.version r.core, some a.publicKeyToken⟩] := by
  have hassemblies : (r.useAssembly a).assemblies = r.assemblies ++ [a] := if_neg h
  rw [assemblyRefs, hassemblies, List.map_append]
  rfl

theorem typeRefs_useClass {c : Library.Class} (h : c ∉ r.classes) :
    (r.useClass c).typeRefs =
      (r.useAssembly c.assembly).typeRefs ++
        [⟨(r.useAssembly c.assembly).assemblyToken c.assembly, c.namespace_, c.name⟩] := by
  have hclasses : (r.useClass c).classes = r.classes ++ [c] := if_neg h
  rw [typeRefs, hclasses, List.map_append]
  rfl

theorem methods_useType (t : StaticType) : (r.useType t).methods = r.methods := by
  induction t with
  | array element ih => exact ih
  | lib | void | bool | int | string | object | null | class_ | unknown => rfl

theorem methods_foldl_useType (ts : List StaticType) :
    (ts.foldl useType r).methods = r.methods := by
  induction ts generalizing r with
  | nil => rfl
  | cons t ts ih => exact (ih _).trans (r.methods_useType t)

theorem methods_useSignature : (r.useSignature m).methods = r.methods :=
  (methods_useType _ m.ret).trans (methods_foldl_useType _ m.params)

theorem methods_useMethod : (r.useMethod m).methods = intern r.methods m :=
  congrArg (intern · m) (r.methods_useSignature m)

theorem mem_classes_useSignature : m.class_ ∈ (r.useSignature m).classes :=
  ((grows_foldl_useType _ m.params).trans (grows_useType _ m.ret)).classes.subset
    (r.mem_useClass m.class_)

theorem covers_useSignature {t : StaticType} (h : t ∈ m.ret :: m.params) :
    (r.useSignature m).Covers t := by
  rcases List.mem_cons.1 h with rfl | h
  · exact covers_useType _ m.ret
  · exact (grows_useType _ m.ret).covers (covers_foldl_useType _ h)

theorem memberRefs_useMethod {m : Library.Method} (hr : (r.useSignature m).Sound) (h : m ∉ r.methods) :
    (r.useMethod m).memberRefs =
      (r.useSignature m).memberRefs ++ [(r.useSignature m).memberRef m] := by
  have hmethods : (r.useMethod m).methods = (r.useSignature m).methods ++ [m] :=
    if_neg (r.methods_useSignature m ▸ h)
  have hgrows : (r.useSignature m).Grows (r.useMethod m) :=
    { Grows.refl (r.useSignature m) with methods := prefix_intern _ _ }
  have hold : (r.useSignature m).methods.map (r.useMethod m).memberRef = (r.useSignature m).memberRefs :=
    List.map_congr_left fun m' hm' =>
      hgrows.memberRef (hr.parent m' hm') fun _ ht => covers_of_mem_all _ (hr.known m' hm') ht
  have hlast : (r.useMethod m).memberRef m = (r.useSignature m).memberRef m :=
    hgrows.memberRef (r.mem_classes_useSignature m) fun _ ht => r.covers_useSignature m ht
  have hrows : (r.useMethod m).memberRefs = (r.useMethod m).methods.map (r.useMethod m).memberRef := rfl
  rw [hrows, hmethods, List.map_append, hold, List.map_singleton, hlast]

end

namespace Store

/-! ## A store and its views -/

/-- The store has the rows of `r` and has given out the tokens of what `r` refers to. -/
structure Holds (s : Store) (r : References) : Prop extends r.Sound where
  core : s.core = r.core
  assemblyRefs : s.assemblies.Holds .assemblyRef (fun a => a) r.assemblies r.assemblyRefs
  typeRefs : s.classes.Holds .typeRef (fun c => c) r.classes r.typeRefs
  memberRefs : s.methods.Holds .memberRef Library.Method.all.get r.methods r.memberRefs
  userStrings : s.strings.Holds .userString (fun text => text) r.strings r.strings

/-- The part does to a store what `use` does to its views, and gives what these then tell. -/
def Meets {α : Type} (part : StateM Store α) (use : References → References)
    (tell : References → α) : Prop :=
  ∀ s r, Holds s r → (part.run s).1 = tell (use r) ∧ (part.run s).2.Holds (use r)

variable {α : Type}

theorem meets_pure (a : α) : Meets (pure a) (fun r => r) fun _ => a := fun _ _ h => ⟨rfl, h⟩

theorem Meets.map {β : Type} {part : StateM Store α} {use : References → References}
    {tell : References → α} (h : Meets part use tell) (f : α → β) :
    Meets (do return f (← part)) use fun r => f (tell r) :=
  fun s r hs => ⟨congrArg f (h s r hs).1, (h s r hs).2⟩

section

variable {κ ρ : Type} [DecidableEq κ] [DecidableEq α]

theorem run_keep (column : Column κ ρ) (key : κ) (make : StateM Store ρ) (s : Store) :
    (keep column key make).run s =
      match (column.shelf s).token? key with
      | some token => (token, s)
      | none =>
        let added := (column.shelf (make.run s).2).add column.table key (make.run s).1
        (added.1, column.put (make.run s).2 added.2) := by
  rw [keep, StateT.run_bind, StateT.run_get, pure_bind]
  cases (column.shelf s).token? key <;> rfl

/-- The column has the rows that are `rows` in the views, one for each of `xs`; `name` tells which of
these a key stands for. -/
structure Follows (column : Column κ ρ) (name : κ → α) (xs : References → List α)
    (rows : References → List ρ) : Prop where
  injective : Function.Injective name
  holds : ∀ s r, Holds s r → (column.shelf s).Holds column.table name (xs r) (rows r)

/-- A part that keeps its answers; `first` is what making the row refers to. -/
theorem meets_keep {column : Column κ ρ} {name : κ → α} {xs : References → List α}
    {rows : References → List ρ} (hfollows : Follows column name xs rows) {key : κ}
    {make : StateM Store ρ} {first use : References → References} {row : References → ρ}
    (hmake : Meets make first row) (hfirst : ∀ r, xs (first r) = xs r)
    (hxs : ∀ r, xs (use r) = intern (xs r) (name key))
    (hold : ∀ r, r.Sound → name key ∈ xs r → use r = r)
    (hnew : ∀ s r shelf, Holds s (first r) → r.Sound → name key ∉ xs r →
      shelf.Holds column.table name (xs (use r)) (rows (first r) ++ [row (first r)]) →
      (column.put s shelf).Holds (use r)) :
    Meets (keep column key make) use fun r => .ofRow column.table ((xs r).idxOf (name key)) := by
  intro s r h
  have hshelf := hfollows.holds s r h
  cases htoken : (column.shelf s).token? key with
  | some token =>
    obtain ⟨hmem, rfl⟩ := hshelf.of_some htoken
    rw [run_keep, htoken, hold r h.toSound hmem]
    exact ⟨rfl, h⟩
  | none =>
    have hmem := hshelf.of_none htoken
    obtain ⟨hrow, hmade⟩ := hmake s r h
    have hadd := (hfollows.holds _ _ hmade).add hfollows.injective (by rwa [hfirst])
      (row (first r))
    rw [hfirst, ← hxs] at hadd
    rw [run_keep, htoken, hrow]
    exact ⟨hadd.1, hnew _ _ _ hmade h.toSound hmem hadd.2⟩

end

/-! ## Every request keeps the relation -/

theorem follows_assemblyColumn :
    Follows assemblyColumn (fun a => a) References.assemblies References.assemblyRefs :=
  ⟨Function.injective_id, fun _ _ h => h.assemblyRefs⟩

theorem meets_assemblyRow (a : Library.Assembly) :
    Meets (assemblyRow a) (fun r => r) fun r => ⟨a.name, a.version r.core, some a.publicKeyToken⟩ :=
  fun _ _ h => ⟨congrArg (AssemblyRef.mk a.name · _) (congrArg a.version h.core), h⟩

theorem meets_assembly (a : Library.Assembly) :
    Meets (assembly a) (·.useAssembly a) (·.assemblyToken a) := by
  refine meets_keep follows_assemblyColumn (meets_assemblyRow a) (fun _ => rfl) (fun _ => rfl)
    (fun r _ hmem => useAssembly_of_mem hmem) ?_
  intro s r shelf h hr hmem hshelf
  have hgrows := r.grows_useAssembly a
  exact
    { sound_refer hr (.assembly a) with
      core := h.core
      assemblyRefs := hshelf.congr (r.assemblyRefs_useAssembly hmem)
      typeRefs := h.typeRefs.congr (hgrows.typeRefs_eq hr.toClosed rfl)
      memberRefs := h.memberRefs.congr (hgrows.memberRefs_eq hr.toClosed rfl)
      userStrings := h.userStrings }

theorem follows_classColumn :
    Follows classColumn (fun c => c) References.classes References.typeRefs :=
  ⟨Function.injective_id, fun _ _ h => h.typeRefs⟩

theorem meets_classRow (c : Library.Class) :
    Meets (classRow c) (·.useAssembly c.assembly)
      fun r => ⟨r.assemblyToken c.assembly, c.namespace_, c.name⟩ :=
  (meets_assembly c.assembly).map fun scope => TypeRef.mk scope c.namespace_ c.name

theorem meets_class (c : Library.Class) : Meets (class_ c) (·.useClass c) (·.classToken c) := by
  refine meets_keep follows_classColumn (meets_classRow c) (fun _ => rfl) (fun _ => rfl)
    (fun r hr hmem => useClass_of_mem hr hmem) ?_
  intro s r shelf h hr hmem hshelf
  have hgrows : (r.useAssembly c.assembly).Grows (r.useClass c) :=
    { Grows.refl (r.useAssembly c.assembly) with classes := prefix_intern _ _ }
  exact
    { sound_refer hr (.class_ c) with
      core := h.core
      assemblyRefs := h.assemblyRefs
      typeRefs := hshelf.congr (r.typeRefs_useClass hmem)
      memberRefs := h.memberRefs.congr (hgrows.memberRefs_eq h.toClosed rfl)
      userStrings := h.userStrings }

theorem meets_sig (user : Nat → TypeSig) :
    ∀ t : StaticType, Meets (sig user t) (·.useType t) (·.signature user t)
  | .lib c => (meets_class c).map TypeSig.class_
  | .array element => (meets_sig user element).map TypeSig.array
  | .void | .bool | .int | .string | .object | .null | .unknown | .class_ _ => meets_pure _

theorem meets_sigs (user : Nat → TypeSig) (ts : List StaticType) :
    Meets (ts.mapM (sig user)) (ts.foldl useType ·) (ts.map <| ·.signature user) := by
  induction ts with
  | nil => exact meets_pure []
  | cons t ts ih =>
    intro s r h
    obtain ⟨hfirst, hs⟩ := meets_sig user t s r h
    obtain ⟨hrest, hs'⟩ := ih _ _ hs
    have hgrows := grows_foldl_useType (r.useType t) ts
    have hkept : (ts.foldl useType (r.useType t)).signature user t = (r.useType t).signature user t :=
      hgrows.signature user (r.covers_useType t)
    rw [List.mapM_cons]
    exact ⟨congrArg₂ List.cons (hfirst.trans hkept.symm) hrest, hs'⟩

theorem meets_methodRow (m : Library.Method) :
    Meets (methodRow m) (·.useSignature m) (·.memberRef m) := by
  intro s r h
  obtain ⟨hparent, h⟩ := meets_class m.class_ s r h
  obtain ⟨hparams, h⟩ := meets_sigs (fun _ => .object) m.params _ _ h
  obtain ⟨hret, h⟩ := meets_sig (fun _ => .object) m.ret _ _ h
  refine ⟨?_, h⟩
  -- the tokens of the class and of the parameters are given out before those of the result
  have hbehind := grows_useType (m.params.foldl useType (r.useClass m.class_)) m.ret
  have hclass : (r.useSignature m).classToken m.class_ = (r.useClass m.class_).classToken m.class_ :=
    ((grows_foldl_useType _ m.params).trans hbehind).classToken (r.mem_useClass m.class_)
  have hsigs : m.params.map ((r.useSignature m).signature fun _ => .object) =
      m.params.map ((m.params.foldl useType (r.useClass m.class_)).signature fun _ => .object) :=
    List.map_congr_left fun t ht => hbehind.signature _ (covers_foldl_useType _ ht)
  change _ = (r.useSignature m).memberRef m
  rw [References.memberRef, hclass, hsigs]
  exact congr (congrArg₂ (fun parent params ret => MemberRef.mk parent m.name ⟨m.hasThis, ret, params⟩)
    hparent hparams) hret

theorem follows_methodColumn :
    Follows methodColumn Library.Method.all.get References.methods References.memberRefs :=
  ⟨nodup_rowKeys.of_map.injective_get, fun _ _ h => h.memberRefs⟩

theorem meets_method (id : Fin Library.Method.all.length) :
    Meets (method id) (·.useMethod (Library.Method.all.get id))
      (·.methodToken (Library.Method.all.get id)) := by
  refine meets_keep follows_methodColumn (meets_methodRow _) (methods_useSignature · _)
    (methods_useMethod · _) (fun r hr hmem => useMethod_of_mem hr hmem) ?_
  intro s r shelf h hr hmem hshelf
  exact
    { sound_refer hr (.method id) with
      core := h.core
      assemblyRefs := h.assemblyRefs
      typeRefs := h.typeRefs
      memberRefs := hshelf.congr (r.memberRefs_useMethod h.toSound hmem)
      userStrings := h.userStrings }

theorem follows_stringColumn :
    Follows stringColumn (fun text => text) References.strings References.strings :=
  ⟨Function.injective_id, fun _ _ h => h.userStrings⟩

theorem meets_string (text : String) :
    Meets (string text) (·.useString text) (·.stringToken text) := by
  refine meets_keep follows_stringColumn (meets_pure text) (fun _ => rfl) (fun _ => rfl)
    (fun r _ hmem => congrArg (fun xs => { r with strings := xs }) (intern_of_mem hmem)) ?_
  intro s r shelf h hr hmem hshelf
  have hstrings : (r.useString text).strings = r.strings ++ [text] := if_neg hmem
  exact
    { sound_refer hr (.string text) with
      core := h.core
      assemblyRefs := h.assemblyRefs
      typeRefs := h.typeRefs
      memberRefs := h.memberRefs.congr ((r.grows_useString text).memberRefs_eq hr.toClosed rfl)
      userStrings := hstrings ▸ hshelf }

theorem meets_ask : ∀ q : Request, Meets (ask q) (·.refer q) (·.answer q)
  | .assembly a => (meets_assembly a).map Answer.token
  | .class_ c => (meets_class c).map Answer.token
  | .method id => (meets_method id).map Answer.token
  | .string text => (meets_string text).map Answer.token
  | .sig t user => (meets_sig user t).map Answer.sig

theorem holds_start (core : Version) : (start core).Holds (.start core) := by
  have hempty : Store.Holds { core } { core } :=
    { assembly := fun _ h => (List.not_mem_nil h).elim
      parent := fun _ h => (List.not_mem_nil h).elim
      known := fun _ h => (List.not_mem_nil h).elim
      assemblies := List.nodup_nil
      classes := List.nodup_nil
      methods := List.nodup_nil
      strings := List.nodup_nil
      core := rfl
      assemblyRefs := Shelf.holds_nil ..
      typeRefs := Shelf.holds_nil ..
      memberRefs := Shelf.holds_nil ..
      userStrings := Shelf.holds_nil .. }
  exact (meets_assembly .core _ _ hempty).2

theorem Holds.run {s : Store} {r : References} (h : s.Holds r) (requests : List Request) :
    (s.run requests).Holds (r.run requests) := by
  induction requests generalizing s r with
  | nil => exact h
  | cons q requests ih => exact ih (meets_ask q s r h).2

/-- **Stored rows are the views.** After any requests the tables of a store have the rows that the views
have, and whatever is asked next gets the same answer. -/
theorem run_exact (core : Version) (requests : List Request) :
    let s := (start core).run requests
    let r := (References.start core).run requests
    s.assemblies.rows = r.assemblyRefs ∧ s.classes.rows = r.typeRefs ∧
      s.methods.rows = r.memberRefs ∧ s.strings.rows = r.strings ∧
      ∀ q, ((ask q).run s).1 = (r.ask q).1 := by
  have h := (holds_start core).run requests
  exact ⟨h.assemblyRefs.eq_rows, h.typeRefs.eq_rows, h.memberRefs.eq_rows, h.userStrings.eq_rows,
    fun q => (meets_ask q _ _ h).1⟩

end Store

end References

end CilScope
