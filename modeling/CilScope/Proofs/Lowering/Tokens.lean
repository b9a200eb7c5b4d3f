import CilScope.Proofs.Lowering.Frame
import CilScope.Proofs.References

/-!
# What tokens are made for

While a body is lowered the references go on growing, and so they do behind it. `Meant` says that every
token in a draft is that of an entity of the program or of the framework which suits the place it stands
in, and `Walk.keeps` shows by induction over the kinds of steps that every walk keeps this. The tokens
are compared with the references of the moment; later ones give the same tokens.
-/

namespace CilScope

/-- What a token can stand for. -/
inductive Entity
  /-- A type of the program, by its row. -/
  | type (index : Nat)
  | field (owner : Nat) (field : Field)
  | method (owner : Nat) (method : Method)
  | assembly (assembly : Library.Assembly)
  | class_ (class_ : Library.Class)
  | libraryMethod (method : Library.Method)
  | string (text : String)

namespace Entity

/-- The token of an entity. -/
def token (r : References) : Entity → Token
  | type index => .ofRow .typeDef index
  | field _ f => f.token
  | method _ m => m.token
  | assembly a => r.assemblyToken a
  | class_ c => r.classToken c
  | libraryMethod m => r.methodToken m
  | string s => r.stringToken s

/-- The entity is one of the program, or has been referred to. -/
def In (p : Program) (r : References) : Entity → Prop
  | type index => 0 < index ∧ index < p.types.size
  | field owner f => f ∈ (p.membersOf owner).fields
  | method owner m => m ∈ (p.membersOf owner).methods
  | assembly a => a ∈ r.assemblies
  | class_ c => c ∈ r.classes
  | libraryMethod m => m ∈ r.methods
  | string s => s ∈ r.strings

/-- The entity is of the kind that is wanted in a place. -/
def Suits : Use → Entity → Prop
  | .operand op, string _ => op = .ldstr
  | .operand op, class_ _ => op = .box
  | .operand op, field .. => op ∈ [.ldfld, .stfld, .ldsfld, .stsfld]
  | .operand op, method .. | .operand op, libraryMethod _ => op ∈ [.call, .callvirt, .newobj]
  | .caught, class_ _ | .signature, class_ _ | .signature, type _ | .base, class_ _
  | .attr, libraryMethod _ | .scope, assembly _ | .parent, class_ _ => True
  | _, _ => False

variable {p : Program} {r r' : References} {e : Entity}

theorem In.mono (h : r.Grows r') (he : e.In p r) : e.In p r' := by
  cases e with
  | type | field | method => exact he
  | assembly => exact h.assemblies.subset he
  | class_ => exact h.classes.subset he
  | libraryMethod => exact h.methods.subset he
  | string => exact h.strings.subset he

/-- The token of what has been referred to stays the same. -/
theorem token_of_grows (h : r.Grows r') (he : e.In p r) : e.token r' = e.token r := by
  cases e with
  | type | field | method => rfl
  | assembly => exact h.assemblyToken he
  | class_ => exact h.classToken he
  | libraryMethod => exact h.methodToken he
  | string => exact h.stringToken he

end Entity

namespace Lowering

/-- The token is that of an entity which suits the place. -/
def Names (p : Program) (r : References) (use : Use) (t : Token) : Prop :=
  ∃ e : Entity, e.In p r ∧ t = e.token r ∧ e.Suits use

/-- What a clause catches is a class. -/
def Catches (p : Program) (r : References) (kind : ClauseKind) : Prop :=
  ∀ t, kind = .catch_ t → Names p r .caught t

/-- The signature is that of a type of `T`, whose classes are referred to. -/
def Typed (T : StaticType → Prop) (r : References) (sig : TypeSig) : Prop :=
  ∃ t, T t ∧ r.Covers t ∧ sig = r.typeSig t

/-- Every token of a draft is that of an entity. -/
structure Meant (p : Program) (T : StaticType → Prop) (r : References) (d : Draft) : Prop where
  closed : r.Closed
  code : ∀ i ∈ d.code, ∀ t, i.operand = .token t → Names p r (.operand i.opcode) t
  clauses : ∀ c ∈ d.clauses, Catches p r c.kind
  locals : ∀ v ∈ d.locals, Typed T r v.sig

section

variable {p : Program} {T : StaticType → Prop} {r r' : References} {d d' : Draft}

theorem Names.mono {use : Use} {t : Token} (h : r.Grows r') (ht : Names p r use t) :
    Names p r' use t := by
  obtain ⟨e, he, rfl, hsuits⟩ := ht
  exact ⟨e, he.mono h, (Entity.token_of_grows h he).symm, hsuits⟩

theorem Catches.mono {kind : ClauseKind} (h : r.Grows r') (hk : Catches p r kind) :
    Catches p r' kind := fun t ht => (hk t ht).mono h

theorem Typed.mono {sig : TypeSig} (h : r.Grows r') (hsig : Typed T r sig) : Typed T r' sig := by
  obtain ⟨t, ht, hcovers, rfl⟩ := hsig
  exact ⟨t, ht, h.covers hcovers, (h.typeSig hcovers).symm⟩

namespace Meant

theorem empty (h : r.Closed) : Meant p T r {} where
  closed := h
  code := fun _ hi => absurd hi (Array.not_mem_empty _)
  clauses := fun _ hc => absurd hc (Array.not_mem_empty _)
  locals := fun _ hv => absurd hv (Array.not_mem_empty _)

theorem mono (h : Meant p T r d) (hr : r.Grows r') (hclosed : r'.Closed) : Meant p T r' d where
  closed := hclosed
  code := fun i hi t ht => (h.code i hi t ht).mono hr
  clauses := fun c hc => (h.clauses c hc).mono hr
  locals := fun v hv => (h.locals v hv).mono hr

/-- Changes of a draft that touch no code, no clauses and no locals. -/
theorem of_eq (h : Meant p T r d) (hcode : d'.code = d.code) (hclauses : d'.clauses = d.clauses)
    (hlocals : d'.locals = d.locals) : Meant p T r d' :=
  ⟨h.closed, hcode ▸ h.code, hclauses ▸ h.clauses, hlocals ▸ h.locals⟩

/-- One more instruction. -/
theorem push (h : Meant p T r d) {op : Opcode} {operand : DraftOperand} (hcode :
    d'.code = d.code.push ⟨op, operand⟩) (hclauses : d'.clauses = d.clauses)
    (hlocals : d'.locals = d.locals)
    (hoperand : ∀ t, operand = .token t → Names p r (.operand op) t) : Meant p T r d' := by
  refine ⟨h.closed, fun i hi t ht => ?_, hclauses ▸ h.clauses, hlocals ▸ h.locals⟩
  rw [hcode, Array.mem_push] at hi
  rcases hi with hi | rfl
  · exact h.code i hi t ht
  · exact hoperand t ht

end Meant

end

/-! ## Appending an instruction -/

/-- The edit appends the instruction, and may exceed a limit. -/
def Pushes (op : Opcode) (operand : DraftOperand) (f : Draft → Draft) : Prop :=
  ∃ fault pops pushes, ∀ d : Draft,
    f d = Draft.push { d with fault := d.fault.or fault } op operand pops pushes

section

variable {op : Opcode} {operand : DraftOperand} {f : Draft → Draft}

theorem pushes_push (op : Opcode) (operand : DraftOperand) (pops pushes : UInt32) :
    Pushes op operand (·.push op operand pops pushes) :=
  ⟨none, pops, pushes, fun d => by rw [Option.or_none]⟩

theorem pushes_loadInt (v : Int32) :
    ∃ op operand, Pushes op operand (·.loadInt v) ∧ (operand = .none ∨ operand = .int v) := by
  cases hop : Draft.constantOpcode? v with
  | some op =>
    refine ⟨op, .none, ?_, .inl rfl⟩
    simp only [Draft.loadInt, hop]
    exact pushes_push ..
  | none =>
    refine ⟨if Instruction.fitsByte v.toInt then .ldcI4S else .ldcI4, .int v, ?_, .inr rfl⟩
    simp only [Draft.loadInt, hop]
    exact pushes_push ..

theorem pushes_access (first : List Opcode) (short long : Opcode) (index : UInt16)
    (pops pushes : UInt32) :
    ∃ op operand, Pushes op operand (·.access first short long index pops pushes) ∧
      (operand = .none ∨ operand = .var index) := by
  cases hop : first[index.toNat]? with
  | some op =>
    refine ⟨op, .none, ?_, .inl rfl⟩
    simp only [Draft.access, hop]
    exact pushes_push ..
  | none =>
    refine ⟨if index.toNat < 256 then short else long, .var index, ?_, .inr rfl⟩
    simp only [Draft.access, hop]
    exact pushes_push ..

theorem pushes_storeArg (index : UInt16) : Pushes .stargS (.var index) (·.storeArg index) := by
  by_cases h : 255 < index.toNat
  · refine ⟨some (.argumentOutOfRange index.toNat), 1, 0, fun d => ?_⟩
    simp only [Draft.storeArg, if_pos h]
    rfl
  · refine ⟨none, 1, 0, fun d => ?_⟩
    simp only [Draft.storeArg, if_neg h, Option.or_none]

/-- What is appended has no label, and a token is that of a field or a method of the program. -/
theorem Emission.pushes {p : Program} (h : Emission p f) :
    ∃ op operand, Pushes op operand f ∧ (∀ l, operand ≠ .label l) ∧
      ∀ t, operand = .token t → ∀ r, Names p r (.operand op) t := by
  cases h with
  | @emit op =>
    exact ⟨op, .none, pushes_push .., fun _ => DraftOperand.noConfusion,
      fun _ => DraftOperand.noConfusion⟩
  | loadInt v =>
    obtain ⟨op, operand, hpushes, rfl | rfl⟩ := pushes_loadInt v <;>
      exact ⟨op, _, hpushes, fun _ => DraftOperand.noConfusion, fun _ => DraftOperand.noConfusion⟩
  | loadLocal i | storeLocal i | loadArg i =>
    obtain ⟨op, operand, hpushes, rfl | rfl⟩ := pushes_access _ _ _ i _ _ <;>
      exact ⟨op, _, hpushes, fun _ => DraftOperand.noConfusion, fun _ => DraftOperand.noConfusion⟩
  | storeArg i =>
    exact ⟨_, _, pushes_storeArg i, fun _ => DraftOperand.noConfusion,
      fun _ => DraftOperand.noConfusion⟩
  | @field op i f hop hf =>
    refine ⟨op, .token f.token, pushes_push .., fun _ => DraftOperand.noConfusion, fun t ht r => ?_⟩
    exact ⟨.field i f, hf, (DraftOperand.token.inj ht).symm, hop⟩
  | @method op i pops pushes m hop hm =>
    refine ⟨op, .token m.token, pushes_push .., fun _ => DraftOperand.noConfusion, fun t ht r => ?_⟩
    exact ⟨.method i m, hm, (DraftOperand.token.inj ht).symm, hop⟩

theorem Meant.edit {p : Program} {T : StaticType → Prop} {r : References} {d : Draft}
    (h : Meant p T r d) (hf : Pushes op operand f)
    (hoperand : ∀ t, operand = .token t → Names p r (.operand op) t) : Meant p T r (f d) := by
  obtain ⟨fault, pops, pushes, hf⟩ := hf
  rw [hf]
  exact h.push (Draft.code_push ..) (Draft.clauses_push ..) (Draft.locals_push ..) hoperand

end

/-! ## Steps that keep the meaning of tokens -/

/-- From references `r` on, the step keeps the meaning of tokens and the references, and its result has
`Q` with the references behind it. -/
def Keeps (p : Program) (T : StaticType → Prop) (r : References) {α : Type} (g : Gen α)
    (Q : References → α → Prop) : Prop :=
  ∀ c s, Sees p T c s → r.Grows s.references → Meant p T s.references s.draft →
    Sees p T c (g c s).2 ∧ s.references.Grows (g c s).2.references ∧
      Meant p T (g c s).2.references (g c s).2.draft ∧ Q (g c s).2.references (g c s).1

namespace Keeps

variable {p : Program} {T : StaticType → Prop} {r : References} {α β : Type}
  {Q : References → α → Prop} {R : References → β → Prop}

theorem bind {g : Gen α} {k : α → Gen β} (hg : Keeps p T r g Q)
    (hk : ∀ r' a, r.Grows r' → Q r' a → Keeps p T r' (k a) R) : Keeps p T r (g >>= k) R := by
  intro c s hs hr hd
  obtain ⟨hs', hgrows, hd', hQ⟩ := hg c s hs hr hd
  obtain ⟨hs'', hgrows', hd'', hR⟩ := hk _ _ (hr.trans hgrows) hQ c _ hs' (.refl _) hd'
  exact ⟨hs'', hgrows.trans hgrows', hd'', hR⟩

theorem mono {r' : References} {g : Gen α} (hg : Keeps p T r g Q) (h : r.Grows r') :
    Keeps p T r' g Q := fun c s hs hr hd => hg c s hs (h.trans hr) hd

theorem seq {g : Gen Unit} {k : Gen β} (hg : Keeps p T r g fun _ _ => True) (hk : Keeps p T r k R) :
    Keeps p T r (g >>= fun _ => k) R := hg.bind fun _ _ h _ => hk.mono h

theorem look {f : Context → State → α} (h : ∀ c s, Sees p T c s → Q s.references (f c s)) :
    Keeps p T r (fun c s => (f c s, s)) Q :=
  fun c s hs _ hd => ⟨hs, .refl _, hd, h c s hs⟩

theorem pure {a : α} (h : ∀ r', r.Grows r' → Q r' a) : Keeps p T r (Pure.pure a) Q :=
  fun _ _ hs hr hd => ⟨hs, .refl _, hd, h _ hr⟩

theorem done {a : α} : Keeps p T r (Pure.pure a) fun _ _ => True := pure fun _ _ => trivial

/-- Edits that keep the meaning of tokens. -/
theorem edit {f : Draft → Draft}
    (h : ∀ r' d, r.Grows r' → Meant p T r' d → Meant p T r' (f d)) :
    Keeps p T r (edit f) fun _ _ => True :=
  fun _ _ hs hr hd => ⟨⟨hs.program, hs.owner, hs.params, hs.ret, hs.locals⟩, .refl _, h _ _ hr hd,
    trivial⟩

theorem make {f : Draft → Draft × α}
    (h : ∀ r' d, r.Grows r' → Meant p T r' d → Meant p T r' (f d).1 ∧ Q r' (f d).2) :
    Keeps p T r (make f) Q :=
  fun _ _ hs hr hd => ⟨⟨hs.program, hs.owner, hs.params, hs.ret, hs.locals⟩, .refl _,
    (h _ _ hr hd).1, (h _ _ hr hd).2⟩

theorem push {op : Opcode} {operand : DraftOperand} {f : Draft → Draft} (hf : Pushes op operand f)
    (hoperand : ∀ t, operand = .token t → Names p r (.operand op) t) :
    Keeps p T r (Lowering.edit f) fun _ _ => True :=
  edit fun _ _ hr hd => hd.edit hf fun t ht => (hoperand t ht).mono hr

theorem emission {f : Draft → Draft} (h : Emission p f) :
    Keeps p T r (Lowering.edit f) fun _ _ => True := by
  obtain ⟨op, operand, hpushes, -, htoken⟩ := h.pushes
  exact push hpushes fun t ht => htoken t ht r

theorem emit (op : Opcode) : Keeps p T r (emit op) fun _ _ => True :=
  push (pushes_push ..) fun _ => DraftOperand.noConfusion

theorem newLabel : Keeps p T r newLabel fun _ _ => True :=
  make fun _ _ _ hd => ⟨hd.of_eq rfl rfl rfl, trivial⟩

theorem mark (l : Label) : Keeps p T r (mark l) fun _ _ => True :=
  edit fun _ d _ hd => hd.of_eq (Draft.code_mark d) (Draft.clauses_mark d) (Draft.locals_mark d)

theorem branch (op : Opcode) (l : Label) : Keeps p T r (branch op l) fun _ _ => True :=
  edit fun _ d _ hd => hd.push (Draft.code_branch d) (by simp [Draft.branch])
    (Draft.locals_branch d) fun _ => DraftOperand.noConfusion

/-- Steps inside other loops, regions and handlers. -/
theorem withReader {g : Gen α} {f : Context → Context}
    (hf : ∀ c s, Sees p T (f c) s ↔ Sees p T c s) (hg : Keeps p T r g Q) :
    Keeps p T r (withReader f g) Q := by
  intro c s hs hr hd
  obtain ⟨hs', hrest⟩ := hg (f c) s ((hf c s).2 hs) hr hd
  exact ⟨(hf c _).1 hs', hrest⟩

/-- A loop over a list. -/
theorem forIn {xs : List α} {f : α → PUnit → Gen (ForInStep PUnit)}
    (h : ∀ x, Keeps p T r (f x ⟨⟩) fun _ _ => True) :
    Keeps p T r (ForIn.forIn xs ⟨⟩ f) fun _ _ => True := by
  induction xs generalizing r with
  | nil => exact done
  | cons x xs ih =>
    rw [List.forIn_cons]
    refine (h x).bind fun r' a hr _ => ?_
    cases a with
    | done => exact done
    | yield => exact ih fun y => (h y).mono hr

end Keeps

section

variable {p : Program} {T : StaticType → Prop} {r : References}

theorem keeps_report (pos : Source.Position) (cause : Cause) :
    Keeps p T r (report pos cause) fun _ _ => True := by
  intro c s hs _ hd
  rw [report_apply]
  dsimp only
  split
  · exact ⟨hs, .refl _, hd, trivial⟩
  · exact ⟨⟨hs.program, hs.owner, hs.params, hs.ret, hs.locals⟩, .refl _, hd, trivial⟩

theorem keeps_resolveType (hT : Typing p T) (t : Source.TypeUse) :
    Keeps p T r (resolveType t) fun _ => T := by
  intro c s hs _ hd
  obtain ⟨ht, -⟩ := resolve_spec hT c.owner t.pos s.log t.name
  rw [resolveType_apply, hs.program]
  dsimp only
  split
  · exact ⟨hs, .refl _, hd, ht⟩
  · exact ⟨⟨hs.program, hs.owner, hs.params, hs.ret, hs.locals⟩, .refl _, hd, ht⟩

/-! ### Referring to the framework -/

/-- Referring to something, for a result that means the same with all later references. -/
theorem keeps_refer {α : Type} {u : References → References} {f : References → α}
    {Q : References → α → Prop} (hgrows : ∀ r : References, r.Grows (u r))
    (hclosed : ∀ r : References, r.Closed → (u r).Closed) (hQ : ∀ r, Q (u r) (f (u r))) :
    Keeps p T r (fun _ s => (f (u s.references), { s with references := u s.references })) Q :=
  fun _ s hs _ hd => ⟨⟨hs.program, hs.owner, hs.params, hs.ret, hs.locals⟩, hgrows _,
    hd.mono (hgrows _) (hclosed _ hd.closed), hQ s.references⟩

theorem keeps_classToken (k : Library.Class) :
    Keeps p T r (classToken k) fun r' t => t = (Entity.class_ k).token r' ∧
      (Entity.class_ k).In p r' :=
  keeps_refer (u := (·.useClass k)) (f := (·.classToken k)) (fun r => r.grows_useClass k) (fun _ h => h.useClass k)
    fun r => ⟨rfl, r.mem_useClass k⟩

theorem keeps_stringToken (text : String) :
    Keeps p T r (stringToken text) fun r' t => t = (Entity.string text).token r' ∧
      (Entity.string text).In p r' :=
  keeps_refer (u := (·.useString text)) (f := (·.stringToken text)) (fun r => r.grows_useString text) (fun _ h => h.useString text)
    fun r => ⟨rfl, r.mem_useString text⟩

theorem keeps_methodToken {m : Library.Method} (hm : m ∈ Library.Method.all) :
    Keeps p T r (methodToken m) fun r' t => t = (Entity.libraryMethod m).token r' ∧
      (Entity.libraryMethod m).In p r' :=
  keeps_refer (u := (·.useMethod m)) (f := (·.methodToken m)) (fun r => r.grows_useMethod m) (fun _ h => h.useMethod hm)
    fun r => ⟨rfl, r.mem_useMethod m⟩

theorem keeps_typeSig {t : StaticType} (ht : T t) : Keeps p T r (typeSig t) fun r' => Typed T r' :=
  keeps_refer (u := (·.useType t)) (f := (·.typeSig t)) (fun r => r.grows_useType t) (fun _ h => h.useType t)
    fun r => ⟨t, ht, r.covers_useType t, rfl⟩

theorem keeps_mention {g : Gen Unit} (h : Mention g) : Keeps p T r g fun _ _ => True := by
  have hstep (op : Opcode) (e : Entity) (hsuits : e.Suits (.operand op)) {f : Token → Draft → Draft}
      (hf : ∀ t, Pushes op (.token t) (f t)) {mk : Gen Token}
      (hmk : Keeps p T r mk fun r' t => t = e.token r' ∧ e.In p r') :
      Keeps p T r (mk >>= fun t => edit (f t)) fun _ _ => True := by
    refine hmk.bind fun r' t _ ht => .push (hf t) fun t' ht' => ?_
    cases ht'
    exact ⟨e, ht.2, ht.1, hsuits⟩
  cases h with
  | box k => exact hstep .box (.class_ k) rfl (fun t => pushes_push ..) (keeps_classToken k)
  | string text =>
    exact hstep .ldstr (.string text) rfl (fun t => pushes_push ..) (keeps_stringToken text)
  | @method op m pops pushes hm hop =>
    exact hstep op (.libraryMethod m) hop (fun t => pushes_push ..) (keeps_methodToken hm)

theorem keeps_probe {α : Type} {g : Gen α} {Q : References → α → Prop} (hg : Keeps p T r g Q) :
    Keeps p T r (probe g) Q := by
  intro c s hs hr hd
  -- the step starts with an empty draft, and leaves its references to the old one
  obtain ⟨hs', hgrows, hd', hQ⟩ := hg { c with muted := true } { s with draft := {} }
    ⟨hs.program, hs.owner, hs.params, hs.ret, hs.locals⟩ hr (.empty hd.closed)
  exact ⟨⟨hs.program, hs.owner, hs.params, hs.ret, hs'.locals⟩, hgrows, hd.mono hgrows hd'.closed,
    hQ⟩

theorem keeps_updateLocal (slot : UInt16) {f : Local → Local}
    (h : ∀ l, (f l).name = l.name ∧ (f l).slot = l.slot ∧ (f l).type = l.type) :
    Keeps p T r (updateLocal slot f) fun _ _ => True :=
  fun c s hs _ hd => ⟨hs.extended (List.forall_mem_nil _)
    (by rw [extend_nil]; exact view_updateLocal slot h c s), .refl _, hd, trivial⟩

/-! ### Locals and scopes -/

theorem Meant.declareLocal {d : Draft} (h : Meant p T r d) {sig : TypeSig} (hsig : Typed T r sig)
    (name : Option String) : Meant p T r (d.declareLocal sig name).1 := by
  refine ⟨h.closed, by rw [Draft.code_declareLocal]; exact h.code, ?_, fun v hv => ?_⟩
  · have heq : (d.declareLocal sig name).1.clauses = d.clauses := by
      unfold Draft.declareLocal
      dsimp only
      split <;> rfl
    rw [heq]
    exact h.clauses
  · rw [Draft.locals_declareLocal, Array.mem_push] at hv
    rcases hv with hv | rfl
    · exact h.locals v hv
    · exact hsig

theorem keeps_declareLocal (name : String) {type : StaticType} (pos : Source.Position)
    (h : T type) : Keeps p T r (declareLocal name type pos) fun _ _ => True := by
  intro c s hs hr hd
  cases hl : findLocal? c.program.language s.scopes name with
  | some l =>
    rw [declareLocal_taken hl]
    exact (keeps_report pos _).seq .done c s hs hr hd
  | none =>
    rw [declareLocal_apply hl]
    have hgrows := s.references.grows_useType type
    refine ⟨?_, hgrows, (hd.mono hgrows (hd.closed.useType type)).declareLocal
      ⟨type, h, s.references.covers_useType type, rfl⟩ _, trivial⟩
    refine hs.extended ?_ (view_extend _ _)
    intro v hv
    rw [List.map_singleton, List.mem_singleton] at hv
    rw [hv]
    exact h

theorem keeps_complain (closed : List Local) :
    Keeps p T r (complain closed) fun _ _ => True := by
  refine (Keeps.look (f := fun c _ => c.program.language) (Q := fun _ _ => True)
    fun _ _ _ => trivial).bind fun r' language _ _ => ?_
  refine (Keeps.forIn fun l => ?_).bind fun _ _ _ _ => .done
  split
  · exact (keeps_report _ _).seq .done
  · exact .done

theorem keeps_inScope {g : Gen Unit} (hg : Keeps p T r g fun _ _ => True) :
    Keeps p T r (inScope g) fun _ _ => True := by
  intro c s hs hr hd
  have hs' : Sees p T c { s with scopes := [] :: s.scopes } :=
    ⟨hs.program, hs.owner, hs.params, hs.ret, fun scope hscope => by
      rcases List.mem_cons.1 hscope with rfl | hscope
      · exact fun l hl => absurd hl List.not_mem_nil
      · exact hs.locals scope hscope⟩
  obtain ⟨hs'', hgrows, hd', -⟩ := hg c _ hs' hr hd
  rw [inScope_apply]
  generalize (g c { s with scopes := [] :: s.scopes }).2 = s' at hs'' hgrows hd' ⊢
  have hclosed : Sees p T c { s' with scopes := s'.scopes.tail } :=
    ⟨hs''.program, hs''.owner, hs''.params, hs''.ret,
      fun scope hscope => hs''.locals scope (List.mem_of_mem_tail hscope)⟩
  obtain ⟨hsees, hgrows', hrest⟩ := keeps_complain (r := r) (s'.scopes.headD []) c _ hclosed
    (hr.trans hgrows) hd'
  exact ⟨hsees, hgrows.trans hgrows', hrest⟩

theorem keeps_isReachable : Keeps p T r isReachable fun _ _ => True :=
  Keeps.look (f := fun _ s => s.draft.isReachable) fun _ _ _ => trivial

theorem keeps_coerce (source target : StaticType) (pos : Source.Position) :
    Keeps p T r (coerce source target pos) fun _ _ => True := by
  have hname {r : References} (t : StaticType) : Keeps p T r (typeName t) fun _ _ => True :=
    Keeps.look (f := fun c _ => c.program.typeName t) fun _ _ _ => trivial
  unfold coerce box
  split
  · exact (hname _).bind fun _ _ _ _ => (hname _).bind fun _ _ _ _ => keeps_report _ _
  · split
    · split
      · exact keeps_mention (.box .int32)
      · split
        · exact keeps_mention (.box .boolean)
        · exact .done
    · exact .done

theorem keeps_blockMark : Keeps p T r blockMark fun _ _ => True := by
  refine (Keeps.look (f := fun c _ => c) (Q := fun _ _ => True) fun _ _ _ => trivial).bind
    fun _ c _ _ => ?_
  split
  · exact .done
  · exact .emit .nop

theorem keeps_nested {g : Gen Unit} (hg : Keeps p T r g fun _ _ => True) :
    Keeps p T r (nested g) fun _ _ => True :=
  keeps_inScope (keeps_blockMark.seq hg)

/-! ### Jumps -/

theorem keeps_jump (kind : Option Source.LoopKind) (exit : Bool) (pos : Source.Position) :
    Keeps p T r (jump kind exit pos) fun _ _ => True := by
  refine (Keeps.look (f := fun c _ => c) (Q := fun _ _ => True) fun _ _ _ => trivial).bind
    fun _ c _ _ => ?_
  split
  · exact .branch _ _
  · exact keeps_report _ _

theorem keeps_openExit {ret : StaticType} (h : T ret) :
    Keeps p T r (openExit ret) fun _ _ => True := by
  refine Keeps.newLabel.bind fun _ label _ _ => ?_
  split
  · exact .done
  · refine (keeps_typeSig h).bind fun r' sig _ hsig => ?_
    refine (Keeps.make (Q := fun _ _ => True) fun _ d hr hd => ?_).bind fun _ _ _ _ => .done
    exact ⟨hd.declareLocal (hsig.mono hr) none, trivial⟩

theorem keeps_sharedExit {ret : StaticType} (h : T ret) :
    Keeps p T r (sharedExit ret) fun _ _ => True := by
  intro c s hs hr hd
  rw [sharedExit_apply]
  cases s.exit with
  | some e => exact ⟨hs, .refl _, hd, trivial⟩
  | none =>
    obtain ⟨hs', hgrows, hd', -⟩ := keeps_openExit h c s hs hr hd
    exact ⟨⟨hs'.program, hs'.owner, hs'.params, hs'.ret, hs'.locals⟩, hgrows, hd', trivial⟩

theorem keeps_leaveMethod {ret : StaticType} (h : T ret) :
    Keeps p T r (leaveMethod ret) fun _ _ => True := by
  refine (Keeps.look (f := fun c _ => c) (Q := fun _ _ => True) fun _ _ _ => trivial).bind
    fun _ c _ _ => ?_
  split
  · exact .emit .ret
  · refine (keeps_sharedExit h).bind fun _ ⟨label, slot⟩ _ _ => ?_
    cases slot with
    | none => exact .branch _ _
    | some slot => exact (Keeps.emission (.storeLocal slot)).seq (.branch _ _)

/-! ### Compound steps -/

theorem keeps_shortCircuit (hT : Typing p T) (isOr : Bool) {lhs rhs : ExprCode}
    (hl : ∀ r l w, Keeps p T r (lhs.jump l w) fun _ _ => True)
    (hr : ∀ r, Keeps p T r rhs.value fun _ => T) :
    Keeps p T r (shortCircuit isOr lhs rhs) fun _ => T := by
  refine Keeps.newLabel.bind fun _ shortcut _ _ => Keeps.newLabel.bind fun _ stop _ _ => ?_
  refine (hl _ shortcut isOr).seq ((hr _).bind fun _ t _ _ => (keeps_coerce _ _ _).seq ?_)
  refine (Keeps.branch _ _).seq ((Keeps.mark _).seq ?_)
  exact (Keeps.emission (.loadInt _)).seq ((Keeps.mark _).seq (.pure fun _ _ => hT.bool))

theorem keeps_jumpOnBoth (isOr : Bool) {lhs rhs : ExprCode}
    (hl : ∀ r l w, Keeps p T r (lhs.jump l w) fun _ _ => True)
    (hr : ∀ r l w, Keeps p T r (rhs.jump l w) fun _ _ => True) (l : Label) (w : Bool) :
    Keeps p T r (jumpOnBoth isOr lhs rhs l w) fun _ _ => True := by
  unfold jumpOnBoth
  split
  · exact (hl _ l w).seq (hr _ l w)
  · refine Keeps.newLabel.bind fun _ skip _ _ => ?_
    exact (hl _ skip _).seq ((hr _ l w).seq (.mark _))

theorem keeps_ifStatement {cond : ExprCode} {then_ : Gen Unit} {else_ : Option (Gen Unit)}
    (hc : ∀ r l w, Keeps p T r (cond.jump l w) fun _ _ => True)
    (ht : ∀ r, Keeps p T r then_ fun _ _ => True)
    (he : ∀ g, else_ = some g → ∀ r, Keeps p T r g fun _ _ => True) :
    Keeps p T r (ifStatement cond then_ else_) fun _ _ => True := by
  refine Keeps.newLabel.bind fun _ otherwise _ _ => ?_
  refine (hc _ otherwise false).seq ((keeps_nested (ht _)).seq ?_)
  cases else_ with
  | none => exact .mark _
  | some else_ =>
    refine Keeps.newLabel.bind fun _ stop _ _ => keeps_isReachable.bind fun r' reachable _ _ => ?_
    have hrest : Keeps p T r' (do
        mark otherwise
        nested else_
        mark stop) fun _ _ => True :=
      (Keeps.mark _).seq ((keeps_nested (he else_ rfl _)).seq (.mark _))
    cases reachable with
    | true => exact (Keeps.branch _ _).seq hrest
    | false => exact hrest

theorem keeps_inLoop (kind : Source.LoopKind) (exit next : Label) {g : Gen Unit}
    (hg : Keeps p T r g fun _ _ => True) : Keeps p T r (inLoop kind exit next g) fun _ _ => True :=
  .withReader (fun _ _ => ⟨fun hs => ⟨hs.program, hs.owner, hs.params, hs.ret, hs.locals⟩,
    fun hs => ⟨hs.program, hs.owner, hs.params, hs.ret, hs.locals⟩⟩) hg

theorem keeps_whileLoop (kind : Source.LoopKind) {cond : Option Source.Expr} {body : Gen Unit}
    {step : Option (Gen Unit)}
    (hc : ∀ e, cond = some e → ∀ r l w, Keeps p T r ((compile e).jump l w) fun _ _ => True)
    (hb : ∀ r, Keeps p T r body fun _ _ => True)
    (hs : ∀ g, step = some g → ∀ r, Keeps p T r g fun _ _ => True) :
    Keeps p T r (whileLoop kind cond body step) fun _ _ => True := by
  rw [whileLoop_eq]
  have hnext {r : References} (head : Label) : Keeps p T r (nextLabel step head) fun _ _ => True := by
    cases step with
    | none => exact .done
    | some => exact .newLabel
  have htest {r : References} (exit : Label) :
      Keeps p T r (Lowering.loopTest cond exit) fun _ _ => True := by
    unfold Lowering.loopTest
    split
    · exact .done
    · exact .done
    · exact hc _ rfl _ exit false
  have hstep {r : References} (next : Label) :
      Keeps p T r (loopStep step next) fun _ _ => True := by
    cases step with
    | none => exact .done
    | some step => exact (Keeps.mark _).seq (hs step rfl _)
  refine Keeps.newLabel.bind fun _ head _ _ => Keeps.newLabel.bind fun _ exit _ _ => ?_
  refine (hnext head).bind fun _ next _ _ => (Keeps.mark _).seq ((htest exit).seq ?_)
  refine (keeps_inLoop kind exit next (keeps_nested (hb _))).seq ((hstep next).seq ?_)
  exact (Keeps.branch _ _).seq (.mark _)

theorem keeps_doLoop {body : Gen Unit} {cond : Source.Expr} (until_ : Bool)
    (hb : ∀ r, Keeps p T r body fun _ _ => True)
    (hc : ∀ r l w, Keeps p T r ((compile cond).jump l w) fun _ _ => True) :
    Keeps p T r (doLoop body cond until_) fun _ _ => True := by
  refine Keeps.newLabel.bind fun _ head _ _ => Keeps.newLabel.bind fun _ exit _ _ =>
    Keeps.newLabel.bind fun _ next _ _ => ?_
  refine (Keeps.mark _).seq ((keeps_inLoop .do_ exit next (keeps_nested (hb _))).seq ?_)
  exact (Keeps.mark _).seq ((hc _ head _).seq (.mark _))

theorem keeps_leaveTo (stop : Label) : Keeps p T r (leaveTo stop) fun _ _ => True := by
  refine keeps_isReachable.bind fun _ reachable _ _ => ?_
  cases reachable with
  | true => exact .branch _ _
  | false => exact .done

theorem keeps_caughtType (hT : Typing p T) (head : Source.CatchHead) :
    Keeps p T r (caughtType head) fun _ => T := by
  unfold caughtType
  split
  · refine (keeps_resolveType hT _).bind fun _ t _ ht => ?_
    split
    · exact .pure fun _ _ => ht
    · exact (keeps_report _ _).seq (.pure fun _ _ => ht)
  · refine (Keeps.look (f := fun c _ => c.program.language) (Q := fun _ _ => True)
      fun _ _ _ => trivial).bind fun _ language _ _ => .pure fun _ _ => ?_
    split
    · exact hT.object
    · exact hT.lib _

/-- A handler that has been opened catches a class, and so does the clause it becomes. -/
theorem keeps_beginHandler (region : Nat) {kind : ClauseKind} (hkind : Catches p r kind) :
    Keeps p T r (make (·.beginHandler region kind)) fun r' h => Catches p r' h.kind :=
  .make fun _ _ hr hd => ⟨hd.of_eq rfl rfl rfl, hkind.mono hr⟩

theorem keeps_endHandler {h : OpenHandler} (hkind : Catches p r h.kind) :
    Keeps p T r (edit (·.endHandler h)) fun _ _ => True := by
  refine .edit fun r' d hr hd => ⟨hd.closed, hd.code, fun c hc => ?_, hd.locals⟩
  rcases Array.mem_push.1 hc with hc | rfl
  · exact hd.clauses c hc
  · exact hkind.mono hr

theorem keeps_catchHandler (hT : Typing p T) (region : Nat) (head : Source.CatchHead)
    {body : Gen Unit} (hb : ∀ r, Keeps p T r body fun _ _ => True) (stop : Label) :
    Keeps p T r (catchHandler region head body stop) fun _ _ => True := by
  refine (keeps_caughtType hT head).bind fun _ caught _ hcaught => ?_
  refine (keeps_classToken _).bind fun r' token _ htoken => ?_
  have hkind : Catches p r' (.catch_ token) := fun t ht => by
    cases ht
    exact ⟨_, htoken.2, htoken.1, trivial⟩
  refine (keeps_beginHandler region hkind).bind fun _ handler _ hhandler => ?_
  refine (Keeps.withReader (f := fun c => { c with catchDepth := c.catchDepth + 1 })
    (fun _ _ => ⟨fun hs => ⟨hs.program, hs.owner, hs.params, hs.ret, hs.locals⟩,
      fun hs => ⟨hs.program, hs.owner, hs.params, hs.ret, hs.locals⟩⟩) (keeps_inScope ?_)).seq
    ((keeps_leaveTo stop).seq (keeps_endHandler hhandler))
  have hpop {r : References} : Keeps p T r (do emit .pop; blockMark; body) fun _ _ => True :=
    (Keeps.emit .pop).seq (keeps_blockMark.seq (hb _))
  cases head.var with
  | none => exact hpop
  | some name =>
    refine (keeps_declareLocal name _ hcaught).bind fun _ var _ _ => ?_
    cases var with
    | none => exact hpop
    | some var => exact (Keeps.emission (.storeLocal _)).seq (keeps_blockMark.seq (hb _))

theorem keeps_tryStatement (hT : Typing p T) {body : Gen Unit}
    {handler : Option (Source.CatchHead × Gen Unit)} {finally_ : Option (Gen Unit)}
    (hb : ∀ r, Keeps p T r body fun _ _ => True)
    (hh : ∀ head g, handler = some (head, g) → ∀ r, Keeps p T r g fun _ _ => True)
    (hf : ∀ g, finally_ = some g → ∀ r, Keeps p T r g fun _ _ => True) :
    Keeps p T r (tryStatement body handler finally_) fun _ _ => True := by
  refine Keeps.newLabel.bind fun _ stop _ _ => ?_
  refine (Keeps.withReader (f := fun c => { c with tryDepth := c.tryDepth + 1 })
    (fun _ _ => ⟨fun hs => ⟨hs.program, hs.owner, hs.params, hs.ret, hs.locals⟩,
      fun hs => ⟨hs.program, hs.owner, hs.params, hs.ret, hs.locals⟩⟩) ?_).seq (.mark stop)
  have hbegin {r : References} : Keeps p T r (make Draft.beginTry) fun _ _ => True :=
    .make fun _ _ _ hd => ⟨hd.of_eq rfl rfl rfl, trivial⟩
  -- what stands behind the protected body is `last`, in both shapes of the statement
  have hbare {r : References} {last : Gen Unit} (hlast : ∀ r, Keeps p T r last fun _ _ => True) :
      Keeps p T r (do nested body; leaveTo stop; last) fun _ _ => True :=
    (keeps_nested (hb _)).seq ((keeps_leaveTo stop).seq (hlast _))
  have hcaught {r : References} {last : Gen Unit} (hlast : ∀ r, Keeps p T r last fun _ _ => True)
      {head : Source.CatchHead} {g : Gen Unit} (hg : ∀ r, Keeps p T r g fun _ _ => True) :
      Keeps p T r (do
        let region ← make Draft.beginTry
        nested body
        leaveTo stop
        catchHandler region head g stop
        last) fun _ _ => True := by
    refine hbegin.bind fun _ region _ _ => ?_
    refine (keeps_nested (hb _)).seq ((keeps_leaveTo stop).seq ?_)
    exact (keeps_catchHandler hT region head hg stop).seq (hlast _)
  cases finally_ with
  | none =>
    cases handler with
    | none => exact hbare fun _ => .done
    | some h => exact hcaught (fun _ => .done) (hh _ _ rfl)
  | some g =>
    have hend (outer : Nat) (r : References) : Keeps p T r (do
        let handler ← make (·.beginHandler outer .finally_)
        nested g
        emit .endfinally
        edit (·.endHandler handler)) fun _ _ => True := by
      refine (keeps_beginHandler outer fun _ => ClauseKind.noConfusion).bind
        fun _ handler _ hhandler => ?_
      exact (keeps_nested (hf _ rfl _)).seq ((Keeps.emit _).seq (keeps_endHandler hhandler))
    cases handler with
    | none => exact hbegin.bind fun _ outer _ _ => hbare (hend outer)
    | some h => exact hbegin.bind fun _ outer _ _ => hcaught (hend outer) (hh _ _ rfl)

end

/-- **Every walk keeps the meaning of tokens.** -/
theorem Walk.keeps {p : Program} {T : StaticType → Prop} (hT : Typing p T) {L : Exit → Prop}
    {b : Freedom} {α : Type} {g : Gen α} {Q : α → Prop} (h : Walk p T L b g Q) :
    ∀ r, Keeps p T r g fun _ => Q := by
  induction h with
  | look f h => exact fun r => .look h
  | bind _ _ ihg ihk => exact fun r => (ihg r).bind fun r' a _ ha => ihk a ha r'
  | weaken _ h ih =>
    intro r c s hs hr hd
    obtain ⟨hs', hgrows, hd', hQ⟩ := ih r c s hs hr hd
    exact ⟨hs', hgrows, hd', h _ hQ⟩
  | report pos cause => exact fun r => keeps_report pos cause
  | resolveType t => exact fun r => keeps_resolveType hT t
  | point pos => exact fun r => .edit fun _ _ _ hd => hd.of_eq rfl rfl rfl
  | emission h => exact fun r => .emission h
  | mention h => exact fun r => keeps_mention h
  | ret _ => exact fun r => .emit .ret
  | branch _ _ => exact fun r => .branch _ _
  | probe _ ih => exact fun r => keeps_probe (ih r)
  | updateLocal slot f h => exact fun r => keeps_updateLocal slot h
  | shortCircuit isOr _ _ ihl ihr =>
    exact fun r => keeps_shortCircuit hT isOr (fun r l w => ihl (fun _ => True) l w trivial r)
      (ihr fun _ => True)
  | jumpOnBoth isOr w _ _ _ ihl ihr =>
    exact fun r => keeps_jumpOnBoth isOr (fun r l w => ihl (fun _ => True) l w trivial r)
      (fun r l w => ihr (fun _ => True) l w trivial r) _ w
  | declareLocal name pos h => exact fun r => keeps_declareLocal name pos h
  | inScope _ ih => exact fun r => keeps_inScope (ih r)
  | loopJump kind exit pos => exact fun r => keeps_jump kind exit pos
  | leaveMethod h => exact fun r => keeps_leaveMethod h
  | ifStatement _ _ _ ihc iht ihe =>
    exact fun r => keeps_ifStatement (fun r l w => ihc (fun _ => True) l w trivial r)
      (iht fun _ => True) fun g hg => ihe g hg fun _ => True
  | whileLoop kind _ _ _ ihc ihb ihs =>
    exact fun r => keeps_whileLoop kind
      (fun e he r l w => ihc e he (fun _ => True) l w trivial r) (ihb fun _ => True)
      fun g hg => ihs g hg fun _ => True
  | doLoop until_ _ _ ihb ihc =>
    exact fun r => keeps_doLoop until_ (ihb fun _ => True)
      fun r l w => ihc (fun _ => True) l w trivial r
  | tryStatement _ _ _ ihb ihh ihf =>
    exact fun r => keeps_tryStatement hT (ihb fun _ => True)
      (fun head g hg => ihh head g hg fun _ => True) fun g hg => ihf g hg fun _ => True

/-! ## Methods -/

section

variable {p : Program} {T : StaticType → Prop} {r : References}

theorem keeps_commonExit : Keeps p T r commonExit fun _ _ => True := by
  refine (Keeps.look (f := fun _ s => s) (Q := fun _ _ => True) fun _ _ _ => trivial).bind
    fun _ s _ _ => ?_
  split
  · rename_i label slot _
    refine (Keeps.mark label).seq ?_
    cases slot with
    | none => exact .emit .ret
    | some slot => exact (Keeps.emission (.loadLocal slot)).seq (.emit .ret)
  · exact .done

/-- **The body of every method keeps the meaning of tokens.** -/
theorem keeps_methodBody (hT : Typing p T) (r : References) :
    Keeps p T r methodBody fun _ _ => True := by
  refine (Keeps.look (f := fun c _ => c) (Q := fun _ _ => True) fun _ _ _ => trivial).bind
    fun r c _ _ => ?_
  split
  · rw [declaredBody_eq]
    exact ((walk_mainPart (L := fun _ => True) hT _ trivial).keeps hT r).seq keeps_commonExit
  · exact (walk_ctorBody (L := fun _ => True) (b := .declares) hT trivial).keeps hT r
  · exact (walk_cctorBody (L := fun _ => True) (b := .declares) hT trivial).keeps hT r

end

end Lowering

end CilScope
