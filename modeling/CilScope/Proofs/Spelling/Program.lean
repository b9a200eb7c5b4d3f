import CilScope.Proofs.Program.Declare
import CilScope.Proofs.Spelling.Tree

/-!
# Programs in another spelling

A program that is respelled declares the same types and members in the same rows, and every name finds
what it found before. `Program.Alike` says when two programs differ by their spelling only, and
`alongside_declare` that a respelled unit declares such a program, with the same diagnostics.
-/

namespace CilScope

/-! ## Finding types -/

/-- The head of a type with its names respelled. -/
def TypeHead.respell (f : String → String) (t : TypeHead) : TypeHead :=
  { t with namespace_ := f t.namespace_, name := f t.name }

/-- Heads that differ by their spelling only. -/
structure TypeHead.Alike (f : String → String) (t t' : TypeHead) : Prop where
  namespace_ : f t'.namespace_ = f t.namespace_
  name : f t'.name = f t.name
  kind : t'.kind = t.kind
  visibility : t'.visibility = t.visibility
  enclosing : t'.enclosing = t.enclosing

theorem TypeHead.alike_of_respell_eq {f : String → String} {t t' : TypeHead}
    (h : t'.respell f = t.respell f) : t.Alike f t' := by
  rw [TypeHead.respell, TypeHead.respell, TypeHead.mk.injEq] at h
  obtain ⟨hnamespace, hname, hkind, hvisibility, henclosing⟩ := h
  exact ⟨hnamespace, hname, hkind, hvisibility, henclosing⟩

/-- Outlines that differ by their spelling only. The placeholder keeps its name. -/
structure Outline.Alike (f : String → String) (o o' : Outline) : Prop where
  spelling : Respelling o.language f
  language : o'.language = o.language
  imports : o'.imports = o.imports.map f
  types : o'.types.map (·.respell f) = o.types.map (·.respell f)

namespace Outline.Alike

variable {f : String → String} {o o' : Outline} (h : o.Alike f o')

include h

theorem size_types : o'.types.size = o.types.size := by
  have hsize := congrArg Array.size h.types
  rwa [Array.size_map, Array.size_map] at hsize

/-- A row holds no type in both outlines, or types that differ by their spelling only. -/
theorem getElem?_types (i : Nat) :
    o.types[i]? = none ∧ o'.types[i]? = none ∨
      ∃ t t', o.types[i]? = some t ∧ o'.types[i]? = some t' ∧ t.Alike f t' := by
  have hi : (o'.types[i]?).map (·.respell f) = (o.types[i]?).map (·.respell f) := by
    rw [← Array.getElem?_map, ← Array.getElem?_map, h.types]
  cases ht : o.types[i]? with
  | none =>
    rw [ht, Option.map_none, Option.map_eq_none_iff] at hi
    exact .inl ⟨rfl, hi⟩
  | some t =>
    rw [ht, Option.map_some, Option.map_eq_some_iff] at hi
    obtain ⟨t', ht', heq⟩ := hi
    exact .inr ⟨t, t', rfl, ht', TypeHead.alike_of_respell_eq heq⟩

/-- What does not depend on the spelling of a type is the same in both outlines. -/
theorem map_getElem? {β : Type} {q q' : TypeHead → β}
    (hq : ∀ t t', t.Alike f t' → q' t' = q t) (i : Nat) :
    (o'.types[i]?).map q' = (o.types[i]?).map q := by
  obtain ⟨ht, ht'⟩ | ⟨t, t', ht, ht', heq⟩ := h.getElem?_types i
  · rw [ht, ht']
    rfl
  · rw [ht, ht', Option.map_some, Option.map_some, hq t t' heq]

theorem sameName_congr {a a' b b' : String} (ha : f a' = f a) (hb : f b' = f b) :
    o'.sameName a' b' = o.sameName a b := by
  rw [Outline.sameName, Outline.sameName, h.language]
  exact h.spelling.sameName_congr ha hb

theorem rows_eq : o'.rows = o.rows := by
  rw [Outline.rows, Outline.rows, h.size_types]

theorem findRow?_eq {q q' : TypeHead → Bool} (hq : ∀ t t', t.Alike f t' → q' t' = q t) :
    o'.findRow? q' = o.findRow? q := by
  rw [Outline.findRow?, Outline.findRow?, h.rows_eq]
  refine congrArg (List.find? · o.rows) (funext fun i => ?_)
  obtain ⟨ht, ht'⟩ | ⟨t, t', ht, ht', heq⟩ := h.getElem?_types i
  · rw [ht, ht']
    rfl
  · rw [ht, ht', Option.any_some, Option.any_some, hq t t' heq]

theorem any_types {q q' : TypeHead → Bool} (hq : ∀ t t', t.Alike f t' → q' t' = q t) :
    o'.types.any q' = o.types.any q := by
  have hrespell (t : TypeHead) : q (t.respell f) = q t := by
    have ht : TypeHead.Alike f t (t.respell f) :=
      ⟨h.spelling.idem _, h.spelling.idem _, rfl, rfl, rfl⟩
    rw [← hq t _ ht, hq (t.respell f) _ ⟨rfl, rfl, rfl, rfl, rfl⟩]
  have hmap (types : Array TypeHead) : (types.map (·.respell f)).any q = types.any q := by
    rw [Array.any_map]
    exact congrArg types.any (funext hrespell)
  rw [funext fun t => hq t t ⟨rfl, rfl, rfl, rfl, rfl⟩, ← hmap o'.types, h.types, hmap]

theorem chain_eq (i : Nat) : o'.chain i = o.chain i := by
  have hstep (i : Nat) : (o'.types[i]?).bind (·.enclosing) = (o.types[i]?).bind (·.enclosing) := by
    obtain ⟨ht, ht'⟩ | ⟨t, t', ht, ht', heq⟩ := h.getElem?_types i
    · rw [ht, ht']
    · rw [ht, ht']
      exact heq.enclosing
  have hwithin (depth i : Nat) :
      Outline.chainWithin o'.types depth i = Outline.chainWithin o.types depth i := by
    induction depth generalizing i with
    | zero => rfl
    | succ depth ih =>
      rw [Outline.chainWithin, Outline.chainWithin, hstep]
      split
      · rw [ih]
      · rfl
  rw [Outline.chain, Outline.chain, h.size_types, hwithin]

/-- The names of a type, as respelled. -/
theorem name_getD (i : Nat) :
    f (((o'.types[i]?).map (·.name)).getD "") = f (((o.types[i]?).map (·.name)).getD "") := by
  obtain ⟨ht, ht'⟩ | ⟨t, t', ht, ht', heq⟩ := h.getElem?_types i
  · rw [ht, ht']
  · rw [ht, ht']
    exact heq.name

theorem namespaceAt_congr (i : Nat) : f (o'.namespaceAt i) = f (o.namespaceAt i) := by
  rw [Outline.namespaceAt, Outline.namespaceAt, h.chain_eq]
  cases (o.chain i).getLast? with
  | none => rfl
  | some j =>
    obtain ⟨ht, ht'⟩ | ⟨t, t', ht, ht', heq⟩ := h.getElem?_types j
    · rw [Option.bind_some, Option.bind_some, ht, ht']
    · rw [Option.bind_some, Option.bind_some, ht, ht']
      exact heq.namespace_

theorem dottedName_congr (i : Nat) : f (o'.dottedName i) = f (o.dottedName i) := by
  have hfold (outer : List Nat) {text text' : String} (htext : f text' = f text) :
      f (outer.foldl (fun text i => ((o'.types[i]?).map (·.name)).getD "" ++ "." ++ text) text') =
        f (outer.foldl (fun text i => ((o.types[i]?).map (·.name)).getD "" ++ "." ++ text) text) := by
    induction outer generalizing text text' with
    | nil => exact htext
    | cons j outer ih =>
      exact ih (h.spelling.append_congr (h.spelling.append_congr (h.name_getD j) rfl) htext)
  have hqualified {a a' b b' : String} (ha : f a' = f a) (hb : f b' = f b) :
      f (Metadata.qualified a' b') = f (Metadata.qualified a b) := by
    rw [Metadata.qualified, Metadata.qualified, h.spelling.isEmpty_congr ha]
    split
    · exact hb
    · exact h.spelling.append_congr (h.spelling.append_congr ha rfl) hb
  rw [Outline.dottedName, Outline.dottedName, h.chain_eq]
  split
  · rfl
  · exact hqualified (h.namespaceAt_congr i) (hfold _ (h.name_getD _))

theorem nested?_eq {name name' : String} (hname : f name' = f name) (outer : Nat) :
    o'.nested? name' outer = o.nested? name outer := by
  refine h.findRow?_eq fun t t' heq => ?_
  rw [h.sameName_congr heq.name hname, heq.enclosing]

theorem topLevel?_eq {name name' namespace_ namespace_' : String} (hname : f name' = f name)
    (hnamespace : f namespace_' = f namespace_) :
    o'.topLevel? name' namespace_' = o.topLevel? name namespace_ := by
  refine h.findRow?_eq fun t t' heq => ?_
  have himports : o'.imports.any (o'.sameName · t'.namespace_) =
      o.imports.any (o.sameName · t.namespace_) := by
    rw [h.imports, List.any_map]
    exact List.any_congr rfl fun a => h.sameName_congr (h.spelling.idem a) heq.namespace_
  rw [h.sameName_congr heq.name hname, h.sameName_congr heq.namespace_ hnamespace,
    h.spelling.isEmpty_congr heq.namespace_, himports, heq.enclosing]

theorem find?_eq {name name' : String} (hname : f name' = f name) (i : Nat) :
    o'.find? i name' = o.find? i name := by
  rw [Outline.find?, Outline.find?, h.spelling.contains_congr hname, h.rows_eq, h.chain_eq,
    h.topLevel?_eq hname (h.namespaceAt_congr i), funext fun i => h.nested?_eq hname i,
    funext fun i => h.sameName_congr (h.dottedName_congr i) hname]

theorem lookup?_eq {name name' : String} (hname : f name' = f name) (i : Nat) :
    o'.lookup? i name' = o.lookup? i name := by
  have hcalled (c : Library.Class) :
      c.isCalled o'.language o'.imports name' = c.isCalled o.language o.imports name := by
    have himports : o'.imports.any (o'.language.sameName · c.namespace_) =
        o.imports.any (o.language.sameName · c.namespace_) := by
      rw [h.imports, List.any_map]
      exact List.any_congr rfl fun a => h.sameName_congr (h.spelling.idem a) rfl
    rw [Library.Class.isCalled, Library.Class.isCalled, himports]
    exact congrArg₂ _ (h.sameName_congr hname rfl) (congrArg (· && _) (h.sameName_congr hname rfl))
  rw [Outline.lookup?, Outline.lookup?, h.find?_eq hname, Library.Class.find?, Library.Class.find?,
    funext hcalled]

/-- The name of a type in diagnostics. -/
theorem typeName_congr (t : StaticType) : f (o'.typeName t) = f (o.typeName t) := by
  unfold Outline.typeName
  split
  · exact h.dottedName_congr _
  · rw [h.language]
    exact h.spelling.append_congr (h.dottedName_congr _) rfl
  · rw [h.language]

/-- A type more. -/
theorem push {t t' : TypeHead} (ht : t'.respell f = t.respell f) :
    ({ o with types := o.types.push t } : Outline).Alike f
      { o' with types := o'.types.push t' } where
  spelling := h.spelling
  language := h.language
  imports := h.imports
  types := by rw [Array.map_push, Array.map_push, h.types, ht]

end Outline.Alike

/-! ## Finding members -/

/-- The field with its names respelled. -/
def Field.respell (f : String → String) (x : Field) : Field := { x with decl := x.decl.respell f }

/-- The origin with the names of the declaration respelled. -/
def MethodOrigin.respell (f : String → String) : MethodOrigin → MethodOrigin
  | declared decl => declared (decl.respell f)
  | ctor => ctor
  | cctor => cctor

/-- The method with its names respelled. -/
def Method.respell (f : String → String) (m : Method) : Method :=
  { m with name := f m.name, paramNames := m.paramNames.map f, origin := m.origin.respell f }

/-- The members with their names respelled. -/
def Members.respell (f : String → String) (m : Members) : Members :=
  { fields := m.fields.map (·.respell f), methods := m.methods.map (·.respell f) }

/-- A method that stands in the source does so in every spelling. -/
theorem MethodOrigin.isDeclared_respell (f : String → String) (origin : MethodOrigin) :
    (origin.respell f).isDeclared = origin.isDeclared := by
  cases origin <;> rfl

/-- Programs that differ by their spelling only. -/
structure Program.Alike (f : String → String) (p p' : Program) : Prop extends
    Outline.Alike f p.toOutline p'.toOutline where
  members : p'.members = p.members.map (·.respell f)

namespace Program.Alike

variable {f : String → String} {p p' : Program} (h : p.Alike f p')

include h

theorem membersOf_eq (i : Nat) : p'.membersOf i = (p.membersOf i).respell f := by
  rw [membersOf, membersOf, h.members, Array.getElem?_map]
  cases p.members[i]? <;> rfl

theorem fieldOf?_eq {name name' : String} (hname : f name' = f name) (i : Nat) :
    p'.fieldOf? i name' = (p.fieldOf? i name).map (·.respell f) := by
  rw [fieldOf?, fieldOf?, h.membersOf_eq, Members.respell, List.find?_map]
  refine congrArg (fun q => ((p.membersOf i).fields.find? q).map (·.respell f)) (funext fun x => ?_)
  exact h.sameName_congr (h.spelling.idem x.name) hname

theorem methodsOf_eq {name name' : String} (hname : f name' = f name) (i : Nat) :
    p'.methodsOf i name' = (p.methodsOf i name).map (·.respell f) := by
  rw [methodsOf, methodsOf, h.membersOf_eq, Members.respell, List.filter_map]
  refine congrArg (fun q => ((p.membersOf i).methods.filter q).map (·.respell f)) (funext fun m => ?_)
  exact congrArg₂ _ (m.origin.isDeclared_respell f) (h.sameName_congr (h.spelling.idem m.name) hname)

theorem hasMethod_eq {name name' : String} (hname : f name' = f name) (i : Nat) :
    p'.hasMethod i name' = p.hasMethod i name := by
  rw [hasMethod, hasMethod, h.methodsOf_eq hname, List.isEmpty_map]

theorem ctorOf?_eq (i : Nat) : p'.ctorOf? i = (p.ctorOf? i).map (·.respell f) := by
  rw [ctorOf?, ctorOf?, h.membersOf_eq, Members.respell, List.find?_map]
  refine congrArg (fun q => ((p.membersOf i).methods.find? q).map (·.respell f)) (funext fun m => ?_)
  obtain ⟨_, _, _, _, _, _, origin, _⟩ := m
  cases origin <;> rfl

theorem moduleRows_eq : p'.moduleRows = p.moduleRows := by
  have hkind (i : Nat) :
      (p'.types[i]?).any (·.kind = .module_) = (p.types[i]?).any (·.kind = .module_) := by
    obtain ⟨ht, ht'⟩ | ⟨t, t', ht, ht', heq⟩ := h.getElem?_types i
    · rw [ht, ht']
    · rw [ht, ht', Option.any_some, Option.any_some, heq.kind]
  rw [moduleRows, moduleRows, h.language, h.size_types, funext hkind]

theorem findField?_eq {name name' : String} (hname : f name' = f name) (i : Nat) :
    p'.findField? i name' = (p.findField? i name).map fun x => (x.1, x.2.respell f) := by
  rw [findField?, findField?, h.chain_eq, h.moduleRows_eq, List.map_findSome?]
  refine congrArg (List.findSome? · _) (funext fun j => ?_)
  rw [h.fieldOf?_eq hname, Function.comp, Option.map_map, Option.map_map]
  rfl

theorem methodOwner?_eq {name name' : String} (hname : f name' = f name) (i : Nat) :
    p'.methodOwner? i name' = p.methodOwner? i name := by
  have hany (j : Nat) : (p'.membersOf j).methods.any (p'.sameName ·.name name') =
      (p.membersOf j).methods.any (p.sameName ·.name name) := by
    rw [h.membersOf_eq, Members.respell, List.any_map]
    exact List.any_congr rfl fun m => h.sameName_congr (h.spelling.idem m.name) hname
  rw [methodOwner?, methodOwner?, h.chain_eq, h.moduleRows_eq, funext hany,
    funext fun j => h.hasMethod_eq hname j]

end Program.Alike

/-- The methods of the framework that a name finds. -/
theorem Respelling.overloads_congr {language : Language} {f : String → String}
    (h : Respelling language f) {name name' : String} (hname : f name' = f name)
    (class_ : Library.Class) (kind : Library.CallKind) :
    Library.Method.overloads language class_ kind name' =
      Library.Method.overloads language class_ kind name := by
  have hown (class_ : Library.Class) :
      Library.Method.own language class_ kind name' = Library.Method.own language class_ kind name := by
    refine congrArg (List.filter · _) (funext fun m => ?_)
    exact congrArg (_ && ·) (h.sameName_congr rfl hname)
  rw [Library.Method.overloads, Library.Method.overloads, hown, hown]

/-! ## Declaring -/

/-- The two steps run alongside each other: from logs that are alike to logs that are alike, with results
that `R` relates. -/
def Alongside (f : String → String) {α β : Type} (g : StateM Log α) (g' : StateM Log β)
    (R : α → β → Prop) : Prop :=
  ∀ log log', log.Alike f log' →
    R (g.run log).1 (g'.run log').1 ∧ (g.run log).2.Alike f (g'.run log').2

namespace Alongside

variable {f : String → String} {α α' β β' : Type} {R : α → α' → Prop} {S : β → β' → Prop}

theorem pure {a : α} {a' : α'} (h : R a a') : Alongside f (Pure.pure a) (Pure.pure a') R :=
  fun _ _ hlog => ⟨h, hlog⟩

theorem bind {g : StateM Log α} {g' : StateM Log α'} {k : α → StateM Log β} {k' : α' → StateM Log β'}
    (hg : Alongside f g g' R) (hk : ∀ a a', R a a' → Alongside f (k a) (k' a') S) :
    Alongside f (g >>= k) (g' >>= k') S := by
  intro log log' hlog
  obtain ⟨hR, hlog'⟩ := hg log log' hlog
  exact hk _ _ hR _ _ hlog'

theorem report (pos : Source.Position) {cause cause' : Cause} (h : cause'.respell f = cause.respell f) :
    Alongside f (modify (·.report pos cause)) (modify (·.report pos cause')) fun _ _ => True :=
  fun _ _ hlog => ⟨trivial, hlog.report pos h⟩

theorem note {isProblem isProblem' : Bool} (hproblem : isProblem' = isProblem) (pos : Source.Position)
    {cause cause' : Cause} (h : cause'.respell f = cause.respell f) :
    Alongside f (Program.note isProblem pos cause) (Program.note isProblem' pos cause')
      fun _ _ => True := by
  subst hproblem
  cases isProblem' with
  | true => exact report pos h
  | false => exact pure trivial

theorem mapM {xs : List α} {r : α → α} {k k' : α → StateM Log β}
    (h : ∀ x ∈ xs, Alongside f (k x) (k' (r x)) Eq) :
    Alongside f (xs.mapM k) ((xs.map r).mapM k') Eq := by
  induction xs with
  | nil => exact pure rfl
  | cons x xs ih =>
    rw [List.map_cons, List.mapM_cons, List.mapM_cons]
    refine (h x (List.mem_cons_self ..)).bind fun y y' hy => ?_
    refine (ih fun x' hx' => h x' (List.mem_cons_of_mem _ hx')).bind fun ys ys' hys => ?_
    exact pure (by rw [hy, hys])

end Alongside

namespace Program

open Source

variable {f : String → String} {o o' : Outline}

theorem alongside_resolve (h : o.Alike f o') (i : Nat) (pos : Position) (t : TypeName) :
    Alongside f (o.resolve i pos t) (o'.resolve i pos (t.respell f)) Eq := by
  induction t with
  | void | int | bool | string | object => exact .pure rfl
  | array element ih =>
    rw [TypeName.respell, Outline.resolve, Outline.resolve]
    refine ih.bind fun t t' ht => ?_
    subst ht
    split <;> exact .pure rfl
  | named name =>
    rw [TypeName.respell, Outline.resolve, Outline.resolve, h.lookup?_eq (h.spelling.idem name)]
    split
    · exact .pure rfl
    · refine (Alongside.report pos ?_).bind fun _ _ _ => .pure rfl
      rw [Cause.respell, Cause.respell, h.spelling.idem]

theorem containerName_congr (h : o.Alike f o') (namespace_ : String) (enclosing : Option Nat) :
    f (containerName o' (f namespace_) enclosing) = f (containerName o namespace_ enclosing) := by
  cases enclosing with
  | some outer => exact h.name_getD outer
  | none =>
    rw [containerName, containerName, h.spelling.isEmpty]
    split
    · rfl
    · exact h.spelling.idem namespace_

mutual

theorem alongside_declareType (enclosing : Option Nat) : ∀ (d : TypeDecl) {o o' : Outline},
    o.Alike f o' → Alongside f (declareType enclosing d o) (declareType enclosing (d.respell f) o')
      (Outline.Alike f)
  | ⟨namespace_, name, kind, access, fields, methods, nested, pos⟩, o, o', h => by
    have hclash : (o'.types.any fun t => t.enclosing = enclosing &&
          o'.sameName t.namespace_ (f namespace_) && o'.sameName t.name (f name)) =
        o.types.any fun t => t.enclosing = enclosing && o.sameName t.namespace_ namespace_ &&
          o.sameName t.name name := h.any_types fun t t' heq => by
      rw [heq.enclosing, h.sameName_congr heq.namespace_ (h.spelling.idem namespace_),
        h.sameName_congr heq.name (h.spelling.idem name)]
    rw [TypeDecl.respell, declareType_mk, declareType_mk]
    refine (Alongside.note hclash pos ?_).bind fun _ _ _ => ?_
    · rw [Cause.respell, Cause.respell, h.spelling.idem, containerName_congr h]
    · rw [h.size_types]
      refine alongside_declareTypes (some o.types.size) nested (h.push ?_)
      simp only [TypeHead.respell, h.spelling.idem, h.language]

theorem alongside_declareTypes (enclosing : Option Nat) : ∀ (ds : List TypeDecl) {o o' : Outline},
    o.Alike f o' → Alongside f (declareTypes enclosing ds o)
      (declareTypes enclosing (TypeDecl.respellAll f ds) o') (Outline.Alike f)
  | [], _, _, h => by
    rw [TypeDecl.respellAll, declareTypes, declareTypes]
    exact .pure h
  | d :: rest, o, o', h => by
    rw [TypeDecl.respellAll, declareTypes, declareTypes]
    exact (alongside_declareType enclosing d h).bind fun _ _ h' =>
      alongside_declareTypes enclosing rest h'

end

mutual

theorem flatten_respell (f : String → String) : ∀ d : TypeDecl,
    flatten (d.respell f) = (flatten d).map (·.respell f)
  | ⟨namespace_, name, kind, access, fields, methods, nested, pos⟩ => by
    rw [TypeDecl.respell, flatten, flatten, flattenAll_respell f nested, List.map_cons,
      TypeDecl.respell]

theorem flattenAll_respell (f : String → String) : ∀ ds : List TypeDecl,
    flattenAll (TypeDecl.respellAll f ds) = (flattenAll ds).map (·.respell f)
  | [] => rfl
  | d :: rest => by
    rw [TypeDecl.respellAll, flattenAll, flattenAll, flatten_respell f d, flattenAll_respell f rest,
      List.map_append]

end

theorem alongside_declareFields (h : o.Alike f o') (i : Nat) (d : TypeDecl) (fields : List FieldDecl)
    (before : List Field) :
    Alongside f (declareFields o i d before fields)
      (declareFields o' i (d.respell f) (before.map (·.respell f)) (fields.map (·.respell f)))
      fun r r' => r' = r.map (·.respell f) := by
  induction fields generalizing before with
  | nil => exact .pure rfl
  | cons x rest ih =>
    obtain ⟨namespace_, name, kind, access, dfields, methods, nested, dpos⟩ := d
    rw [List.map_cons, declareFields_cons, declareFields_cons]
    have hclash : (before.map (·.respell f)).any (o'.sameName ·.name (x.respell f).name) =
        before.any (o.sameName ·.name x.name) := by
      rw [List.any_map]
      exact List.any_congr rfl fun y =>
        h.sameName_congr (h.spelling.idem y.name) (h.spelling.idem x.name)
    refine (Alongside.note hclash x.pos ?_).bind fun _ _ _ => ?_
    · exact h.spelling.respell_cause (.duplicateMember name x.name)
    refine (Alongside.note rfl x.pos ?_).bind fun _ _ _ => ?_
    · exact h.spelling.respell_cause (.instanceMemberInStaticClass x.name)
    refine (alongside_resolve h i x.type.pos x.type.name).bind fun t t' ht => ?_
    subst ht
    have hrest := ih (before ++ [{ decl := x, type := t, isStatic := x.isStatic || kind = .module_
                                   visibility := visibilityOf (x.access.getD .private_) }])
    rw [List.map_append] at hrest
    exact hrest

theorem alongside_declareMethods (h : o.Alike f o') (i : Nat) (d : TypeDecl)
    (methods : List MethodDecl) (before : List Method) :
    Alongside f (declareMethods o i d before methods)
      (declareMethods o' i (d.respell f) (before.map (·.respell f)) (methods.map (·.respell f)))
      fun r r' => r' = r.map (·.respell f) := by
  induction methods generalizing before with
  | nil => exact .pure rfl
  | cons m rest ih =>
    obtain ⟨namespace_, name, kind, access, fields, dmethods, nested, dpos⟩ := d
    rw [List.map_cons, declareMethods_cons, declareMethods_cons]
    refine (Alongside.note rfl m.pos ?_).bind fun _ _ _ => ?_
    · exact h.spelling.respell_cause (.instanceMemberInStaticClass m.name)
    refine (alongside_resolve h i m.ret.pos m.ret.name).bind fun ret ret' hret => ?_
    refine (Alongside.mapM fun p _ => alongside_resolve h i p.type.pos p.type.name).bind
      fun params params' hparams => ?_
    subst hret hparams
    have hclash : ((before.map (·.respell f)).any fun b =>
          o'.sameName b.name (m.respell f).name && b.params = params) =
        before.any fun b => o.sameName b.name m.name && b.params = params := by
      rw [List.any_map]
      exact List.any_congr rfl fun b => congrArg (· && _)
        (h.sameName_congr (h.spelling.idem b.name) (h.spelling.idem m.name))
    refine (Alongside.note hclash m.pos ?_).bind fun _ _ _ => ?_
    · exact h.spelling.respell_cause (.duplicateMember name m.name)
    have hrest := ih (before ++ [{ name := m.name, ret, params, paramNames := m.params.map (·.name)
                                   isStatic := m.isStatic || kind = .module_
                                   visibility := visibilityOf
                                     (m.access.getD (defaultMethodAccess o.language))
                                   origin := .declared m }])
    have hnames : (m.respell f).params.map (·.name) = (m.params.map (·.name)).map f := by
      rw [MethodDecl.respell, List.map_map, List.map_map]
      rfl
    rw [List.map_append] at hrest
    rw [hnames, h.language]
    exact hrest

theorem alongside_declareMembers (h : o.Alike f o') (i : Nat) (d : TypeDecl) :
    Alongside f (declareMembers o i d) (declareMembers o' i (d.respell f))
      fun r r' => r' = r.respell f := by
  have hcctor (fields : List Field) :
      ((fields.map (·.respell f)).any fun x => x.isStatic && x.decl.init.isSome) =
        fields.any fun x => x.isStatic && x.decl.init.isSome := by
    rw [List.any_map]
    refine List.any_congr rfl fun x => ?_
    exact congrArg (x.isStatic && ·) Option.isSome_map
  obtain ⟨namespace_, name, kind, access, fields, methods, nested, pos⟩ := d
  refine (alongside_declareFields h i _ fields []).bind fun fs fs' hfs => ?_
  refine (alongside_declareMethods h i _ methods []).bind fun ms ms' hms => .pure ?_
  have hctor : Method.ctor.respell f = .ctor := by
    simp only [Method.respell, Method.ctor, h.spelling.fixed ".ctor" (by simp)]
    rfl
  have hcctor' : Method.cctor.respell f = .cctor := by
    simp only [Method.respell, Method.cctor, h.spelling.fixed ".cctor" (by simp)]
    rfl
  subst hfs hms
  simp only [TypeDecl.respell, Members.respell, hcctor]
  by_cases hclass : kind = .class_ <;>
    by_cases hinit : fs.any fun x => x.isStatic && x.decl.init.isSome <;>
    simp only [hclass, hinit, if_true, if_false, List.map_append, List.map_singleton, hctor, hcctor',
      Bool.false_eq_true]

theorem alongside_declareAllMembers (h : o.Alike f o') (ds : List TypeDecl) (i : Nat) :
    Alongside f (declareAllMembers o i ds) (declareAllMembers o' i (ds.map (·.respell f)))
      fun r r' => r' = r.map (·.respell f) := by
  induction ds generalizing i with
  | nil => exact .pure rfl
  | cons d rest ih =>
    rw [List.map_cons, declareAllMembers, declareAllMembers]
    refine (alongside_declareMembers h i d).bind fun m m' hm => ?_
    refine (ih (i + 1)).bind fun ms ms' hms => .pure ?_
    rw [hm, hms, List.map_cons]

theorem numberRows_respell (f : String → String) (members : List Members) (fieldRow methodRow : Nat) :
    numberRows fieldRow methodRow (members.map (·.respell f)) =
      (numberRows fieldRow methodRow members).map (·.respell f) := by
  have hmap {α : Type} (r : α → α) (k : Nat → α → α) (hk : ∀ i x, k i (r x) = r (k i x))
      (xs : List α) : (xs.map r).mapIdx k = (xs.mapIdx k).map r := by
    refine List.ext_getElem? fun i => ?_
    rw [List.getElem?_mapIdx, List.getElem?_map, List.getElem?_map, List.getElem?_mapIdx,
      Option.map_map, Option.map_map]
    exact congrArg (Option.map · xs[i]?) (funext (hk i))
  induction members generalizing fieldRow methodRow with
  | nil => rfl
  | cons m rest ih =>
    have hfields := hmap (·.respell f) (fun i (x : Field) => { x with row := fieldRow + i })
      (fun _ _ => rfl) m.fields
    have hmethods := hmap (·.respell f) (fun i (x : Method) => { x with row := methodRow + i })
      (fun _ _ => rfl) m.methods
    rw [List.map_cons, numberRows, numberRows, List.map_cons, ih]
    simp only [Members.respell, List.length_map, hfields, hmethods]

/-- **A respelled unit declares the same program up to its spelling, with the same diagnostics.** -/
theorem alongside_declare {language : Language} (h : Respelling language f) (unit : CompilationUnit) :
    Alongside f (declare language unit) (declare language (unit.respell f)) (Program.Alike f) := by
  have hstart : Outline.Alike f
      { language, imports := unit.imports.map (·.namespace_), types := #[.placeholder] }
      { language, imports := (unit.respell f).imports.map (·.namespace_)
        types := #[.placeholder] } := by
    refine ⟨h, rfl, ?_, rfl⟩
    rw [CompilationUnit.respell, List.map_map, List.map_map]
    rfl
  refine (alongside_declareTypes none unit.types hstart).bind fun o o' ho => ?_
  rw [show (unit.respell f).types = TypeDecl.respellAll f unit.types from rfl, flattenAll_respell]
  refine (alongside_declareAllMembers ho _ 1).bind fun ms ms' hms => .pure ⟨ho, ?_⟩
  have hnone : ({} : Members) :: ms' = (({} : Members) :: ms).map (·.respell f) := by
    rw [hms, List.map_cons]
    rfl
  rw [hnone, numberRows_respell, List.map_toArray]

end Program

end CilScope
