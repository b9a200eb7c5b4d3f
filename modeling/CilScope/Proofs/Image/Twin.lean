import CilScope.Proofs.Image.Bodies
import CilScope.Proofs.Lowering.Nesting
import CilScope.Proofs.Lowering.Twin.Statement

/-!
# Images of two runs

A program is compiled twice, the second time in another spelling and perhaps without debug information.
`twin_generate` says that both runs fail for the same reason, or report the same diagnostics up to the
spelling and give no image or images that are the same up to the variation.
-/

namespace CilScope

/-- The fault with the method in it respelled. -/
def GenerationFault.respell (f : String → String) : GenerationFault → GenerationFault
  | .tooManyArguments method count => .tooManyArguments (f method) count
  | fault => fault

/-- The field with its name respelled. -/
def FieldDef.respell (f : String → String) (d : FieldDef) : FieldDef := { d with name := f d.name }

/-- The method with its names respelled and its debug information as in the second run. -/
def MethodDef.vary (v : Variation) (m : MethodDef) : MethodDef :=
  { m with
    name := v.spell m.name
    paramNames := m.paramNames.map v.spell
    locals := m.locals.map (·.vary v) }

/-- The type with its names respelled and its debug information as in the second run. -/
def TypeDef.vary (v : Variation) (t : TypeDef) : TypeDef :=
  { t with
    namespace_ := v.spell t.namespace_
    name := v.spell t.name
    fields := t.fields.map (·.respell v.spell)
    methods := t.methods.map (·.vary v) }

/-- The metadata with the names that are declared respelled, and the debug information as in the second
run. -/
def Metadata.vary (v : Variation) (m : Metadata) : Metadata := { m with types := m.types.map (·.vary v) }

/-- The image with the names that are declared respelled, and the debug information as in the second
run. -/
def Image.vary (v : Variation) (image : Image) : Image :=
  { metadata := image.metadata.vary v, bodies := image.bodies.map (·.vary v) }

/-- The part of a variation that respells. -/
def Variation.spelled (v : Variation) : Variation := { v with debug := true }

section

variable (v : Variation)

theorem LocalVar.vary_vary (x : LocalVar) : (x.vary v).vary v.spelled = x.vary v := by
  rw [LocalVar.vary, LocalVar.vary]
  cases v.debug <;> cases x.name <;> simp [Variation.spelled, v.spelling.idem]

theorem FinishedBody.vary_vary (body : FinishedBody) :
    (body.vary v).vary v.spelled = body.vary v := by
  simp only [FinishedBody.vary, List.map_map, Function.comp_def, LocalVar.vary_vary]
  rfl

end

/-! ## Runs that may fail -/

/-- Both runs fail for the same reason up to the spelling, or have results that `R` relates. -/
inductive TwinResult (v : Variation) {α α' : Type} (R : α → α' → Prop) :
    Except GenerationFault α → Except GenerationFault α' → Prop
  | error {e e' : GenerationFault} (h : e'.respell v.spell = e.respell v.spell) :
      TwinResult v R (.error e) (.error e')
  | ok {a : α} {a' : α'} (h : R a a') : TwinResult v R (.ok a) (.ok a')

theorem TwinResult.bind {v : Variation} {α α' β β' : Type} {R : α → α' → Prop} {S : β → β' → Prop}
    {x : Except GenerationFault α} {x' : Except GenerationFault α'} (hx : TwinResult v R x x')
    {k : α → Except GenerationFault β} {k' : α' → Except GenerationFault β'}
    (hk : ∀ a a', R a a' → TwinResult v S (k a) (k' a')) : TwinResult v S (x >>= k) (x' >>= k') := by
  cases hx with
  | error h => exact .error h
  | ok h => exact hk _ _ h

namespace Lowering

variable {v : Variation} {program program' : Program}

/-- What the bodies share in the two runs. -/
structure Shared.Twin (v : Variation) (shared shared' : Shared) : Prop where
  references : shared'.references = shared.references
  log : shared.log.Alike v.spell shared'.log

/-- The bodies of a method in the two runs. -/
theorem twinResult_lowerMethod (hprogram : program.Alike v.spell program') (options : CodeOptions)
    (owner : Nat) (method : Method) {shared shared' : Shared} (hshared : shared.Twin v shared') :
    TwinResult v (fun r r' => r'.1 = r.1.vary v ∧ r.2.Twin v r'.2)
      (lowerMethod program options owner method shared)
      (lowerMethod program' (options.vary v) owner (method.respell v.spell) shared') := by
  unfold lowerMethod
  rw [show (method.respell v.spell).arity = method.arity from rfl]
  split
  · refine .error ?_
    simp only [GenerationFault.respell, Method.respell, v.spelling.idem]
  · obtain ⟨ρ, -, hs, -, -⟩ := same_methodBody (v := v) (fun _ _ => False)
      (methodContext program options owner method)
      (methodContext program' (options.vary v) owner (method.respell v.spell))
      shared.start shared'.start le_rfl ⟨hprogram, rfl, rfl, rfl, fun _ => .nil, rfl, rfl, rfl⟩
      ⟨hshared.references, hshared.log, .empty v, rfl, fun _ => .none⟩
    have hclosed := (block_methodBody (c := methodContext program options owner method)
      (s := shared.start) rfl rfl rfl).1.closed
    have hfinish := hs.draft.finish_eq hclosed
    refine TwinResult.bind (R := fun body body' => body' = body.vary v) ?_ fun body body' hbody => ?_
    · change TwinResult v _ (methodBody (methodContext program options owner method) shared.start).2.draft.finish
        (methodBody (methodContext program' (options.vary v) owner (method.respell v.spell))
          shared'.start).2.draft.finish
      rw [hfinish]
      cases (methodBody (methodContext program options owner method) shared.start).2.draft.finish with
      | error => exact .error rfl
      | ok => exact .ok rfl
    · exact .ok ⟨hbody, hs.references, hs.log⟩

/-- The bodies of the methods of a type in the two runs. -/
theorem twinResult_lowerMethods (hprogram : program.Alike v.spell program') (options : CodeOptions)
    (owner : Nat) (methods : List Method) {shared shared' : Shared} (hshared : shared.Twin v shared') :
    TwinResult v (fun r r' => r'.1 = r.1.map (·.vary v) ∧ r.2.Twin v r'.2)
      (lowerMethods program options owner methods shared)
      (lowerMethods program' (options.vary v) owner (methods.map (·.respell v.spell)) shared') := by
  induction methods generalizing shared shared' with
  | nil => exact .ok ⟨rfl, hshared⟩
  | cons m rest ih =>
    rw [List.map_cons, lowerMethods, lowerMethods]
    refine (twinResult_lowerMethod hprogram options owner m hshared).bind fun r r' hr => ?_
    refine (ih hr.2).bind fun rs rs' hrs => ?_
    exact .ok ⟨congrArg₂ List.cons hr.1 hrs.1, hrs.2⟩

/-- The bodies of the types in the two runs. -/
theorem twinResult_lowerTypes (hprogram : program.Alike v.spell program') (options : CodeOptions)
    (row : Nat) (types : List Members) {shared shared' : Shared} (hshared : shared.Twin v shared') :
    TwinResult v (fun r r' => r'.1 = r.1.map (·.map (·.vary v)) ∧ r.2.Twin v r'.2)
      (lowerTypes program options row types shared)
      (lowerTypes program' (options.vary v) row (types.map (·.respell v.spell)) shared') := by
  induction types generalizing row shared shared' with
  | nil => exact .ok ⟨rfl, hshared⟩
  | cons members rest ih =>
    rw [List.map_cons, lowerTypes, lowerTypes]
    refine (twinResult_lowerMethods hprogram options row members.methods hshared).bind fun r r' hr => ?_
    refine (ih (row + 1) hr.2).bind fun rs rs' hrs => ?_
    exact .ok ⟨congrArg₂ List.cons hr.1 hrs.1, hrs.2⟩

end Lowering

namespace Image

variable {v : Variation} {program program' : Program}

/-! ## Definitions -/

/-- Types that differ by their spelling only, with their members. -/
def Declared (v : Variation) (t t' : TypeHead × Members) : Prop :=
  t.1.Alike v.spell t'.1 ∧ t'.2 = t.2.respell v.spell

/-- The types of the two programs, row by row. -/
theorem declared_types (h : program.Alike v.spell program') :
    List.Forall₂ (Declared v) (program.types.toList.zip program.members.toList).tail
      (program'.types.toList.zip program'.members.toList).tail := by
  have htypes : List.Forall₂ (TypeHead.Alike v.spell) program.types.toList program'.types.toList := by
    have hmap := congrArg Array.toList h.types
    rw [Array.toList_map, Array.toList_map, ← List.forall₂_eq_eq_eq, List.forall₂_map_left_iff,
      List.forall₂_map_right_iff] at hmap
    exact hmap.flip.imp fun t t' ht => TypeHead.alike_of_respell_eq ht
  have hzip : ∀ (ms : List Members) {ts ts' : List TypeHead},
      List.Forall₂ (TypeHead.Alike v.spell) ts ts' →
      List.Forall₂ (Declared v) (ts.zip ms) (ts'.zip (ms.map (·.respell v.spell))) := by
    intro ms ts ts' hts
    induction hts generalizing ms with
    | nil => exact .nil
    | cons ht _ ih =>
      cases ms with
      | nil => exact .nil
      | cons m ms => exact .cons ⟨ht, rfl⟩ (ih ms)
  have htail {ts ts' : List (TypeHead × Members)} (hts : List.Forall₂ (Declared v) ts ts') :
      List.Forall₂ (Declared v) ts.tail ts'.tail := by
    cases hts with
    | nil => exact .nil
    | cons _ hrest => exact hrest
  rw [h.members, Array.toList_map]
  exact htail (hzip program.members.toList htypes)

theorem isMarked_vary (options : CodeOptions) {head head' : TypeHead} (h : head.Alike v.spell head') :
    isMarked (options.vary v) head' = isMarked options head := by
  rw [isMarked, isMarked, h.kind]
  rfl

theorem useDeclaration_vary (options : CodeOptions) (r : References) {t t' : TypeHead × Members}
    (h : Declared v t t') : useDeclaration (options.vary v) r t' = useDeclaration options r t := by
  obtain ⟨head, members⟩ := t
  obtain ⟨head', members'⟩ := t'
  obtain ⟨hhead, rfl⟩ := h
  simp only [useDeclaration, isMarked_vary options hhead, Members.respell, List.foldl_map]
  rfl

theorem methodDef_vary (r : References) (language : Language) (m : Method) (body : FinishedBody) :
    (methodDef r language (m.respell v.spell) (body.vary v)).vary v.spelled =
      (methodDef r language m body).vary v := by
  have hbody := congrArg FinishedBody.locals (body.vary_vary v)
  have hparams : (m.paramNames.map v.spell).map v.spell = m.paramNames.map v.spell := by
    rw [List.map_map]
    exact List.map_congr_left fun name _ => v.spelling.idem name
  simp only [methodDef, MethodDef.vary, Method.respell, MethodOrigin.isDeclared_respell]
  rw [show v.spelled.spell = v.spell from rfl, v.spelling.idem, hparams]
  congr 1

theorem fieldDef_vary (r : References) (x : Field) :
    (fieldDef r (x.respell v.spell)).respell v.spell = (fieldDef r x).respell v.spell :=
  congrArg (fun name => FieldDef.mk name x.visibility x.isStatic (r.typeSig x.type))
    (v.spelling.idem x.name)

/-- The definitions of a type in the two runs. -/
theorem typeDef_vary (r : References) (language : Language) (options : CodeOptions)
    {t t' : TypeHead × Members} (h : Declared v t t') (bodies : List FinishedBody) :
    (typeDef r language (options.vary v) t'.1 t'.2 (bodies.map (·.vary v))).vary v.spelled =
      (typeDef r language options t.1 t.2 bodies).vary v := by
  obtain ⟨head, members⟩ := t
  obtain ⟨head', members'⟩ := t'
  obtain ⟨hhead, rfl⟩ : head.Alike v.spell head' ∧ members' = members.respell v.spell := h
  have hmethods : (List.zipWith (methodDef r language) (members.methods.map (·.respell v.spell))
      (bodies.map (·.vary v))).map (·.vary v.spelled) =
      (List.zipWith (methodDef r language) members.methods bodies).map (·.vary v) := by
    rw [List.zipWith_map, List.map_zipWith, List.map_zipWith]
    simp only [methodDef_vary]
  have hfields : ((members.fields.map (·.respell v.spell)).map (fieldDef r)).map (·.respell v.spell) =
      (members.fields.map (fieldDef r)).map (·.respell v.spell) := by
    rw [List.map_map, List.map_map, List.map_map]
    exact List.map_congr_left fun x _ => fieldDef_vary r x
  have hstatic : head'.isStatic = head.isStatic := by rw [TypeHead.isStatic, TypeHead.isStatic, hhead.kind]
  simp only [typeDef, TypeDef.vary, Members.respell, isMarked_vary options hhead, hhead.kind,
    hhead.visibility, hhead.enclosing, hstatic, hmethods]
  rw [show v.spelled.spell = v.spell from rfl, hhead.namespace_, hhead.name, hfields]

theorem useDeclarations_vary (options : CodeOptions) (r : References)
    {ts ts' : List (TypeHead × Members)} (h : List.Forall₂ (Declared v) ts ts') :
    ts'.foldl (useDeclaration (options.vary v)) r = ts.foldl (useDeclaration options) r := by
  induction h generalizing r with
  | nil => rfl
  | cons ht _ ih => rw [List.foldl_cons, List.foldl_cons, useDeclaration_vary options r ht, ih]

theorem typeDefs_vary (r : References) (language : Language) (options : CodeOptions)
    {ts ts' : List (TypeHead × Members)} (h : List.Forall₂ (Declared v) ts ts')
    (bodies : List (List FinishedBody)) :
    (List.zipWith (fun t => typeDef r language (options.vary v) t.1 t.2) ts'
        (bodies.map (·.map (·.vary v)))).map (·.vary v.spelled) =
      (List.zipWith (fun t => typeDef r language options t.1 t.2) ts bodies).map (·.vary v) := by
  induction h generalizing bodies with
  | nil => rfl
  | cons ht _ ih =>
    cases bodies with
    | nil => rfl
    | cons b bodies => exact congrArg₂ List.cons (typeDef_vary r language options ht b) (ih bodies)

/-- The metadata of the two runs. -/
theorem buildMetadata_vary (h : program.Alike v.spell program') (options : CodeOptions)
    (mvid : Vector UInt8 16) (r : References) (bodies : List (List FinishedBody)) :
    (buildMetadata program' (options.vary v) mvid r (bodies.map (·.map (·.vary v)))).vary v.spelled =
      (buildMetadata program options mvid r bodies).vary v := by
  have hdeclared := declared_types h
  simp only [buildMetadata, Metadata.vary, useDeclarations_vary options _ hdeclared, List.map_cons,
    h.language]
  rw [← typeDefs_vary _ program.language options hdeclared bodies]
  rfl

/-! ## Generation -/

/-- **Compiling a program again in another spelling, with or without debug information**: both runs fail
for the same reason, or report the same diagnostics up to the spelling and give no image or images that
are the same up to the variation. -/
theorem twin_generate {log log' : Log} (hlog : log.Alike v.spell log') (options : CodeOptions)
    (mvid : Vector UInt8 16) (unit : Source.CompilationUnit) :
    TwinResult v (fun r r' => r.2.Alike v.spell r'.2 ∧
        Option.Rel (fun image image' => image'.vary v.spelled = image.vary v) r.1 r'.1)
      (generate v.language options mvid unit log)
      (generate v.language (options.vary v) mvid (unit.respell v.spell) log') := by
  have hdeclare := Program.alongside_declare v.spelling unit log log' hlog
  unfold generate
  generalize (Program.declare v.language unit).run log = declared at hdeclare ⊢
  generalize (Program.declare v.language (unit.respell v.spell)).run log' = declared' at hdeclare ⊢
  obtain ⟨program, log⟩ := declared
  obtain ⟨program', log'⟩ := declared'
  obtain ⟨hprogram, hlog⟩ : program.Alike v.spell program' ∧ log.Alike v.spell log' := hdeclare
  have hmembers : program'.members.toList.tail =
      program.members.toList.tail.map (·.respell v.spell) := by
    rw [hprogram.members, Array.toList_map, List.map_tail]
  have hstart : Lowering.Shared.Twin v ⟨startReferences options.core, log⟩
      ⟨startReferences (options.vary v).core, log'⟩ := ⟨rfl, hlog⟩
  dsimp only
  rw [hmembers]
  refine (Lowering.twinResult_lowerTypes hprogram options 1 _ hstart).bind fun r r' hr => ?_
  obtain ⟨bodies, shared⟩ := r
  obtain ⟨bodies', shared'⟩ := r'
  obtain ⟨rfl, hshared⟩ := hr
  dsimp only
  rw [hshared.log.hasErrors_eq, hshared.references]
  split
  · exact .ok ⟨hshared.log, .none⟩
  · refine .ok ⟨hshared.log, .some ?_⟩
    have hbodies : (bodies.map (·.map (·.vary v))).flatten.map (·.vary v.spelled) =
        bodies.flatten.map (·.vary v) := by
      rw [← List.map_flatten, List.map_map]
      exact List.map_congr_left fun body _ => body.vary_vary v
    rw [Image.vary, Image.vary, hbodies, buildMetadata_vary hprogram]

end Image

end CilScope
