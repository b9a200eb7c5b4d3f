import CilScope.Proofs.Image.Control
import CilScope.Proofs.Lowering.Tokens
import CilScope.Proofs.Program.Declare

/-!
# The tables of an image

The rows of an image are numbered three times: when the program is declared, when the bodies are lowered
one behind the other, and when the metadata is written. `Lowering.forall₂_lowerTypes` and
`Image.methods_buildMetadata` show that the three agree, and `Image.grows_finalReferences` that what was
referred to on the way is still in its place at the end.
-/

namespace CilScope

namespace Lowering

variable {p : Program} {options : CodeOptions} {owner : Nat} {shared shared' : Shared}

/-- The body of a method that was lowered on the way to the references `r`. Its draft names what the
references had then. -/
def Stands (p : Program) (options : CodeOptions) (r : References) (owner : Nat) (method : Method)
    (body : FinishedBody) : Prop :=
  ∃ before behind, lowerMethod p options owner method before = .ok (body, behind) ∧
    before.references.Grows behind.references ∧ behind.references.Grows r ∧
    ∃ d : Draft, d.finish = .ok body ∧ (∀ i ∈ d.code.toList, i.Shaped) ∧
      Meant p (StaticType.Within p.types.size) behind.references d

theorem Stands.mono {r r' : References} {method : Method} {body : FinishedBody}
    (h : Stands p options r owner method body) (hr : r.Grows r') :
    Stands p options r' owner method body := by
  obtain ⟨before, behind, hlower, hgrows, hr', hdraft⟩ := h
  exact ⟨before, behind, hlower, hgrows, hr'.trans hr, hdraft⟩

/-- A type with members is one that the program has, and not the placeholder. -/
theorem index_of_members (hp : p.Declared) {i : Nat} (h : p.membersOf i ≠ {}) :
    0 < i ∧ i < p.types.size := by
  rcases p.membersOf_cases i with hi | hi
  · have hlt := (List.getElem?_eq_some_iff.1 hi).1
    rw [Array.length_toList, hp.size] at hlt
    refine ⟨Nat.pos_of_ne_zero fun hzero => h ?_, hlt⟩
    rw [hzero, ← List.head?_eq_getElem?, hp.placeholder] at hi
    rw [hzero, ← Option.some.inj hi]
  · exact absurd hi h

theorem members_ne_of_method {owner : Nat} {m : Method} (h : m ∈ (p.membersOf owner).methods) :
    p.membersOf owner ≠ {} := fun heq => by
  rw [heq] at h
  cases h

theorem members_ne_of_field {owner : Nat} {f : Field} (h : f ∈ (p.membersOf owner).fields) :
    p.membersOf owner ≠ {} := fun heq => by
  rw [heq] at h
  cases h

theorem stands_lowerMethod (hp : p.Declared) {method : Method} {body : FinishedBody}
    (hmethod : method ∈ (p.membersOf owner).methods) (hclosed : shared.references.Closed)
    (h : lowerMethod p options owner method shared = .ok (body, shared')) :
    shared.references.Grows shared'.references ∧ shared'.references.Closed ∧
      Stands p options shared'.references owner method body := by
  have hreferences : shared'.references =
      (methodBody (methodContext p options owner method) shared.start).2.references := by
    unfold lowerMethod at h
    split at h
    · cases h
    · obtain ⟨_, -, h⟩ := bind_eq_ok h
      cases h
      rfl
  obtain ⟨-, s, hs, hfinish, -⟩ := lowerMethod_eq_ok h
  have hsees : Sees p (StaticType.Within p.types.size) (methodContext p options owner method)
      shared.start :=
    ⟨rfl, index_of_members hp (members_ne_of_method hmethod), (hp.within owner).params method hmethod,
      (hp.within owner).ret method hmethod, fun _ h => (List.not_mem_nil h).elim⟩
  obtain ⟨-, hgrows, hmeant, -⟩ := keeps_methodBody (Program.typing_within hp.within)
    shared.references _ _ hsees (.refl _) (.empty hclosed)
  have hframe := (framed_methodBody (typing_any p) _ shared.start
    (sees_any (methodContext p options owner method) _) (Nat.zero_le _)).1
  rw [hs] at hreferences hgrows hmeant hframe
  rw [← hreferences] at hgrows hmeant
  have hshaped := hframe.draft.shaped (Draft.finish_eq_ok hfinish).1
    fun i hi => absurd hi List.not_mem_nil
  exact ⟨hgrows, hmeant.closed, shared, shared', h, hgrows, .refl _, s.draft, hfinish, hshaped, hmeant⟩

theorem forall₂_lowerMethods (hp : p.Declared) {methods : List Method} {bodies : List FinishedBody}
    (hmethods : ∀ m ∈ methods, m ∈ (p.membersOf owner).methods) (hclosed : shared.references.Closed)
    (h : lowerMethods p options owner methods shared = .ok (bodies, shared')) :
    shared.references.Grows shared'.references ∧ shared'.references.Closed ∧
      List.Forall₂ (Stands p options shared'.references owner) methods bodies := by
  induction methods generalizing shared bodies with
  | nil =>
    cases h
    exact ⟨.refl _, hclosed, .nil⟩
  | cons m rest ih =>
    obtain ⟨⟨body, behind⟩, hbody, h⟩ := bind_eq_ok h
    obtain ⟨⟨others, last⟩, hothers, h⟩ := bind_eq_ok h
    cases h
    obtain ⟨hm, hrest⟩ := List.forall_mem_cons.1 hmethods
    obtain ⟨hgrows, hclosed', hstands⟩ := stands_lowerMethod hp hm hclosed hbody
    obtain ⟨hgrows', hclosed'', hall⟩ := ih hrest hclosed' hothers
    exact ⟨hgrows.trans hgrows', hclosed'', .cons (hstands.mono hgrows') hall⟩

/-- **The bodies of a program stand in the order of its methods.** -/
theorem forall₂_lowerTypes (hp : p.Declared) {types : List Members} {row : Nat}
    {bodies : List (List FinishedBody)}
    (htypes : ∀ m i, (m, i) ∈ types.zipIdx row → m = p.membersOf i)
    (hclosed : shared.references.Closed)
    (h : lowerTypes p options row types shared = .ok (bodies, shared')) :
    shared.references.Grows shared'.references ∧ shared'.references.Closed ∧
      List.Forall₂ (fun (m, i) own => List.Forall₂ (Stands p options shared'.references i) m.methods own)
        (types.zipIdx row) bodies := by
  induction types generalizing row shared bodies with
  | nil =>
    cases h
    exact ⟨.refl _, hclosed, .nil⟩
  | cons m rest ih =>
    obtain ⟨⟨own, behind⟩, hown, h⟩ := bind_eq_ok h
    obtain ⟨⟨others, last⟩, hothers, h⟩ := bind_eq_ok h
    cases h
    have hm : m = p.membersOf row := htypes m row (List.mem_cons_self ..)
    obtain ⟨hgrows, hclosed', hstands⟩ := forall₂_lowerMethods hp (fun x hx => hm ▸ hx) hclosed hown
    obtain ⟨hgrows', hclosed'', hall⟩ :=
      ih (fun m' i hm' => htypes m' i (List.mem_cons_of_mem _ hm')) hclosed' hothers
    exact ⟨hgrows.trans hgrows', hclosed'', .cons (hstands.imp fun _ _ h => h.mono hgrows') hall⟩

end Lowering

namespace Image

open Lowering

/-! ## The references at the end -/

section

variable {options : CodeOptions} {r : References}

/-- What the declaration of a type needs has been referred to. -/
structure DeclaredIn (options : CodeOptions) (r : References) (type : TypeHead × Members) : Prop where
  marker : isMarked options type.1 = true → Library.Method.standardModuleCtor ∈ r.methods
  field : ∀ f ∈ type.2.fields, r.Covers f.type
  ret : ∀ m ∈ type.2.methods, r.Covers m.ret
  params : ∀ m ∈ type.2.methods, ∀ t ∈ m.params, r.Covers t

theorem DeclaredIn.mono {r' : References} {type : TypeHead × Members} (h : DeclaredIn options r type)
    (hr : r.Grows r') : DeclaredIn options r' type where
  marker := fun hmarked => hr.methods.subset (h.marker hmarked)
  field := fun f hf => hr.covers (h.field f hf)
  ret := fun m hm => hr.covers (h.ret m hm)
  params := fun m hm t ht => hr.covers (h.params m hm t ht)

/-- What a fold of steps that refer to something refers to. -/
theorem foldl_spec {α : Type} {step : References → α → References} {P : References → α → Prop}
    (hgrows : ∀ (r : References) x, r.Grows (step r x))
    (hclosed : ∀ (r : References) x, r.Closed → (step r x).Closed) (hP : ∀ r x, P (step r x) x)
    (hmono : ∀ (r r' : References) x, r.Grows r' → P r x → P r' x) (xs : List α)
    (r : References) :
    r.Grows (xs.foldl step r) ∧ (r.Closed → (xs.foldl step r).Closed) ∧
      ∀ x ∈ xs, P (xs.foldl step r) x := by
  induction xs generalizing r with
  | nil => exact ⟨.refl r, id, fun _ h => absurd h List.not_mem_nil⟩
  | cons x xs ih =>
    obtain ⟨hgrows', hclosed', hall⟩ := ih (step r x)
    refine ⟨(hgrows r x).trans hgrows', fun h => hclosed' (hclosed r x h), ?_⟩
    exact List.forall_mem_cons.2 ⟨hmono _ _ x hgrows' (hP r x), hall⟩

theorem useDeclaration_spec (options : CodeOptions) (r : References) (type : TypeHead × Members) :
    r.Grows (useDeclaration options r type) ∧
      (r.Closed → (useDeclaration options r type).Closed) ∧
      DeclaredIn options (useDeclaration options r type) type := by
  obtain ⟨head, members⟩ := type
  set r₁ := if isMarked options head then r.useMethod .standardModuleCtor else r with hr₁
  have hmarked : r.Grows r₁ ∧ (r.Closed → r₁.Closed) ∧
      (isMarked options head = true → Library.Method.standardModuleCtor ∈ r₁.methods) := by
    rw [hr₁]
    split
    · exact ⟨r.grows_useMethod _, fun h => h.useMethod (by decide), fun _ => r.mem_useMethod _⟩
    · exact ⟨.refl r, id, fun h => absurd h ‹_›⟩
  obtain ⟨hfields, hclosedFields, hfield⟩ := foldl_spec (P := fun r (f : Field) => r.Covers f.type)
    (fun r f => r.grows_useType f.type) (fun r f h => h.useType f.type)
    (fun r f => r.covers_useType f.type) (fun _ _ _ h hc => h.covers hc) members.fields r₁
  set r₂ := members.fields.foldl (fun r f => r.useType f.type) r₁
  obtain ⟨hmethods, hclosedMethods, hmethod⟩ := foldl_spec
    (P := fun r (m : Method) => r.Covers m.ret ∧ ∀ t ∈ m.params, r.Covers t)
    (fun r m => (r.grows_foldl_useType m.params).trans (References.grows_useType _ m.ret))
    (fun r m h => (h.foldl_useType m.params).useType m.ret)
    (fun r m => ⟨References.covers_useType _ m.ret, fun t ht =>
      (References.grows_useType _ m.ret).covers (r.covers_foldl_useType ht)⟩)
    (fun _ _ _ h hc => ⟨h.covers hc.1, fun t ht => h.covers (hc.2 t ht)⟩) members.methods r₂
  refine ⟨(hmarked.1.trans hfields).trans hmethods,
    fun h => hclosedMethods (hclosedFields (hmarked.2.1 h)), ?_, ?_, ?_, ?_⟩
  · exact fun h => (hfields.trans hmethods).methods.subset (hmarked.2.2 h)
  · exact fun f hf => hmethods.covers (hfield f hf)
  · exact fun m hm => (hmethod m hm).1
  · exact fun m hm => (hmethod m hm).2

/-- The declared types of a program, without the placeholder. -/
def declarations (p : Program) : List (TypeHead × Members) :=
  (p.types.toList.zip p.members.toList).tail

/-- The references that the metadata of a program is written with. -/
def finalReferences (p : Program) (options : CodeOptions) (r : References) : References :=
  (declarations p).foldl (useDeclaration options) (r.useClass .object)

theorem finalReferences_spec (p : Program) (options : CodeOptions) (r : References) :
    r.Grows (finalReferences p options r) ∧ (r.Closed → (finalReferences p options r).Closed) ∧
      Library.Class.object ∈ (finalReferences p options r).classes ∧
      ∀ type ∈ declarations p, DeclaredIn options (finalReferences p options r) type := by
  obtain ⟨hgrows, hclosed, hall⟩ := foldl_spec (fun r t => (useDeclaration_spec options r t).1)
    (fun r t => (useDeclaration_spec options r t).2.1)
    (fun r t => (useDeclaration_spec options r t).2.2) (fun _ _ _ h hd => hd.mono h) (declarations p)
    (r.useClass .object)
  exact ⟨(r.grows_useClass _).trans hgrows, fun h => hclosed (h.useClass _),
    hgrows.classes.subset (r.mem_useClass _), hall⟩

/-- The attributes of the assembly are referred to from the start. -/
theorem startReferences_spec (core : Version) :
    (startReferences core).Closed ∧
      Library.Method.compilationRelaxationsCtor ∈ (startReferences core).methods ∧
      Library.Method.runtimeCompatibilityCtor ∈ (startReferences core).methods := by
  refine ⟨((References.closed_start core).useMethod (by decide)).useMethod (by decide), ?_,
    References.mem_useMethod _ _⟩
  exact (References.grows_useMethod _ _).methods.subset (References.mem_useMethod _ _)

end

/-! ## Rows of the metadata -/

section

variable {p : Program} {options : CodeOptions} {mvid : Vector UInt8 16} {r : References}
  {bodies : List (List FinishedBody)}

/-- The definitions of types with the bodies of their methods. -/
def typeDefs (r : References) (language : Language) (options : CodeOptions)
    (types : List (TypeHead × Members)) (bodies : List (List FinishedBody)) : List TypeDef :=
  List.zipWith (fun (head, members) => typeDef r language options head members) types bodies

theorem types_buildMetadata : (buildMetadata p options mvid r bodies).types =
    TypeDef.placeholder :: typeDefs (finalReferences p options r) p.language options (declarations p)
      bodies := rfl

/-- Every method has one body. -/
def OneBodyEach (types : List (TypeHead × Members)) (bodies : List (List FinishedBody)) : Prop :=
  List.Forall₂ (fun type own => type.2.methods.length = own.length) types bodies

theorem methods_typeDefs (language : Language) {types : List (TypeHead × Members)}
    (h : OneBodyEach types bodies) (k : Nat) :
    ((typeDefs r language options types bodies).zipIdx k).flatMap (fun (type, i) =>
        type.methods.map (i, ·)) =
      List.zipWith (fun (i, m) body => (i, methodDef r language m body))
        (((types.map Prod.snd).zipIdx k).flatMap fun (m, i) => m.methods.map (i, ·))
        bodies.flatten := by
  induction h generalizing k with
  | nil => rfl
  | @cons type own types others hown _ ih =>
    have hlength : (type.2.methods.map (k, ·)).length = own.length := by rw [List.length_map, hown]
    rw [typeDefs, List.zipWith_cons_cons, List.zipIdx_cons, List.flatMap_cons, List.map_cons,
      List.zipIdx_cons, List.flatMap_cons, List.flatten_cons, List.zipWith_append hlength]
    refine congrArg₂ (· ++ ·) ?_ (ih (k + 1))
    dsimp only [typeDef]
    rw [List.zipWith_map_left, List.map_zipWith]

theorem fields_typeDefs (language : Language) {types : List (TypeHead × Members)}
    (h : OneBodyEach types bodies) (k : Nat) :
    ((typeDefs r language options types bodies).zipIdx k).flatMap (fun (type, i) =>
        type.fields.map (i, ·)) =
      (((types.map Prod.snd).zipIdx k).flatMap fun (m, i) => m.fields.map (i, ·)).map
        fun (i, f) => (i, fieldDef r f) := by
  induction h generalizing k with
  | nil => rfl
  | @cons type own types others _ _ ih =>
    rw [typeDefs, List.zipWith_cons_cons, List.zipIdx_cons, List.flatMap_cons, List.map_cons,
      List.zipIdx_cons, List.flatMap_cons, List.map_append]
    refine congrArg₂ (· ++ ·) ?_ (ih (k + 1))
    dsimp only [typeDef]
    rw [List.map_map, List.map_map]
    rfl

theorem map_snd_declarations (hp : p.Declared) :
    (declarations p).map Prod.snd = p.members.toList.tail := by
  rw [declarations, List.map_tail, List.map_snd_zip]
  rw [Array.length_toList, Array.length_toList, hp.size]

/-- The placeholder has no members. -/
theorem members_eq_cons (hp : p.Declared) : p.members.toList = {} :: p.members.toList.tail := by
  have h := hp.placeholder
  cases hm : p.members.toList with
  | nil =>
    rw [hm] at h
    cases h
  | cons m ms =>
    rw [hm] at h
    rw [List.tail_cons, Option.some.inj h]

theorem methodRows_members (hp : p.Declared) : Program.methodRows p.members.toList =
    (p.members.toList.tail.zipIdx 1).flatMap fun (m, i) => m.methods.map (i, ·) := by
  conv_lhs => rw [members_eq_cons hp]
  rfl

theorem fieldRows_members (hp : p.Declared) : Program.fieldRows p.members.toList =
    (p.members.toList.tail.zipIdx 1).flatMap fun (m, i) => m.fields.map (i, ·) := by
  conv_lhs => rw [members_eq_cons hp]
  rfl

/-- A row of members is that of a type. -/
theorem members_of_mem_zipIdx {m : Members} {i : Nat} (h : (m, i) ∈ p.members.toList.zipIdx) :
    p.membersOf i = m := by
  rw [Program.membersOf, ← Array.getElem?_toList, List.mem_zipIdx_iff_getElem?.1 h]
  rfl

theorem mem_of_mem_methodRows {i : Nat} {m : Method}
    (h : (i, m) ∈ Program.methodRows p.members.toList) : m ∈ (p.membersOf i).methods := by
  obtain ⟨⟨own, j⟩, hown, hm⟩ := List.mem_flatMap.1 h
  obtain ⟨m', hm', heq⟩ := List.mem_map.1 hm
  cases heq
  rwa [members_of_mem_zipIdx hown]

theorem mem_of_mem_fieldRows {i : Nat} {f : Field}
    (h : (i, f) ∈ Program.fieldRows p.members.toList) : f ∈ (p.membersOf i).fields := by
  obtain ⟨⟨own, j⟩, hown, hf⟩ := List.mem_flatMap.1 h
  obtain ⟨f', hf', heq⟩ := List.mem_map.1 hf
  cases heq
  rwa [members_of_mem_zipIdx hown]

/-- **The methods of the metadata are those of the program, row by row, with the bodies of the image.** -/
theorem methods_buildMetadata (hp : p.Declared) (h : OneBodyEach (declarations p) bodies) :
    (buildMetadata p options mvid r bodies).methods =
      List.zipWith (fun (i, m) body =>
          (i, methodDef (finalReferences p options r) p.language m body))
        (Program.methodRows p.members.toList) bodies.flatten := by
  rw [methodRows_members hp, ← map_snd_declarations hp]
  exact methods_typeDefs p.language h 1

/-- **The fields of the metadata are those of the program, row by row.** -/
theorem fields_buildMetadata (hp : p.Declared) (h : OneBodyEach (declarations p) bodies) :
    (buildMetadata p options mvid r bodies).fields =
      (Program.fieldRows p.members.toList).map
        fun (i, f) => (i, fieldDef (finalReferences p options r) f) := by
  rw [fieldRows_members hp, ← map_snd_declarations hp]
  exact fields_typeDefs p.language h 1

/-- The type in a row of the metadata is the one with this number in the program. -/
theorem getElem?_types (options : CodeOptions) (mvid : Vector UInt8 16) (r : References)
    (hp : p.Declared) (h : OneBodyEach (declarations p) bodies) {i : Nat}
    (hpos : 0 < i) (hi : i < p.types.size) :
    ∃ head own, p.types[i]? = some head ∧ (head, p.membersOf i) ∈ declarations p ∧
      (buildMetadata p options mvid r bodies).types[i]? = some (typeDef (finalReferences p options r)
        p.language options head (p.membersOf i) own) := by
  obtain ⟨j, rfl⟩ : ∃ j, i = j + 1 := ⟨i - 1, by omega⟩
  have hhead : p.types[j + 1]? = some p.types[j + 1] := Array.getElem?_eq_getElem hi
  have hmembers : p.members.toList[j + 1]? = some (p.membersOf (j + 1)) := by
    rw [Array.getElem?_toList, Program.membersOf, Array.getElem?_eq_getElem (by rw [hp.size]; exact hi)]
    rfl
  have htype : (declarations p)[j]? = some (p.types[j + 1], p.membersOf (j + 1)) := by
    rw [declarations, List.getElem?_tail, List.getElem?_zip_eq_some]
    exact ⟨by rw [Array.getElem?_toList, hhead], hmembers⟩
  have hlength := h.length_eq
  obtain ⟨own, hown⟩ : ∃ own, bodies[j]? = some own := by
    have hj := (List.getElem?_eq_some_iff.1 htype).1
    exact ⟨_, List.getElem?_eq_getElem (by omega)⟩
  refine ⟨p.types[j + 1], own, hhead, List.mem_of_getElem? htype, ?_⟩
  rw [types_buildMetadata, List.getElem?_cons_succ, typeDefs, List.getElem?_zipWith, htype, hown]

end

/-! ## An image -/

/-- What is known of an image: the program it was made from, and the references at the end, with the
bodies of the methods lowered on the way to them. -/
structure Written (p : Program) (options : CodeOptions) (mvid : Vector UInt8 16) (last : References)
    (image : Image) : Prop where
  declared : p.Declared
  closed : last.Closed
  start : (startReferences options.core).Grows last
  bodies : ∃ bodies, OneBodyEach (declarations p) bodies ∧ image.bodies = bodies.flatten ∧
    ∃ r, r.Grows last ∧ last = finalReferences p options r ∧
      image.metadata = buildMetadata p options mvid r bodies
  stands : List.Forall₂ (fun (i, m) => Stands p options last i m)
    (Program.methodRows p.members.toList) image.bodies

theorem written_of_generate {language : Language} {options : CodeOptions} {mvid : Vector UInt8 16}
    {unit : Source.CompilationUnit} {log log' declared : Log} {p : Program} {image : Image}
    (hprogram : (Program.declare language unit).run log = (p, declared))
    (h : generate language options mvid unit log = .ok (some image, log')) :
    ∃ last, Written p options mvid last image := by
  have hp := Program.declared_of_declare hprogram
  rw [generate, hprogram] at h
  obtain ⟨⟨bodies, shared⟩, hbodies, h⟩ := bind_eq_ok h
  dsimp only at h
  split at h
  · cases h
  cases h
  have htypes : ∀ m i, (m, i) ∈ p.members.toList.tail.zipIdx 1 → m = p.membersOf i := by
    intro m i hm
    obtain ⟨hi, hm⟩ := List.mk_mem_zipIdx_iff_le_and_getElem?_sub.1 hm
    rw [List.getElem?_tail, Nat.sub_add_cancel hi, Array.getElem?_toList] at hm
    rw [Program.membersOf, hm]
    rfl
  obtain ⟨hgrows, hclosed, hstands⟩ :=
    forall₂_lowerTypes hp htypes (startReferences_spec options.core).1 hbodies
  obtain ⟨hgrows', hclosed', -, -⟩ := finalReferences_spec p options shared.references
  have hone : OneBodyEach (declarations p) bodies := by
    have hlengths : List.Forall₂ (fun (m : Members) own => m.methods.length = own.length)
        ((p.members.toList.tail.zipIdx 1).map Prod.fst) bodies :=
      List.forall₂_map_left_iff.2 (hstands.imp fun _ _ h => h.length_eq)
    rw [List.zipIdx_map_fst, ← map_snd_declarations hp] at hlengths
    exact List.forall₂_map_left_iff.1 hlengths
  refine ⟨finalReferences p options shared.references, hp, hclosed' hclosed, hgrows.trans hgrows',
    ⟨bodies, hone, rfl, shared.references, hgrows', rfl, rfl⟩, ?_⟩
  rw [methodRows_members hp, List.flatMap_def]
  refine List.rel_flatten (List.forall₂_map_left_iff.2 (hstands.imp fun x own h => ?_))
  exact List.forall₂_map_left_iff.2 (List.Forall₂.imp (fun _ _ h => h.mono hgrows') h)

end Image

end CilScope
