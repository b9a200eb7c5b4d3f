import CilScope.Proofs.Draft.Faithful
import CilScope.Proofs.Image.Tables
import CilScope.Proofs.Listing.Names

/-!
# Every token denotes what it was made for

A token is made when a body is lowered or a signature is written, and it is read when a module is listed,
long after the tables behind it have grown. `Image.Denotes` says what a row has to tell of the entity
whose token leads to it, `denotes_of_in` that every token leads to such a row, and `names_of_uses` that no
other tokens stand in a module.
-/

namespace CilScope

/-! ## Tokens in the code -/

namespace Instruction

/-- One instruction that was written is read back first, wherever it is read. -/
theorem decodeFrom_encode_append {i : Instruction} {raw : List UInt8}
    (hraw : i.operandBytes? = some raw) (pos : Nat) (rest : List UInt8) :
    decodeFrom pos (i.encode.bytes ++ rest) =
      match readOperand (UInt32.ofNat pos) (pos + i.size) i.opcode raw with
      | .error e => .error e
      | .ok operand =>
        match decodeFrom (pos + i.size) rest with
        | .error e => .error e
        | .ok is => .ok (⟨UInt32.ofNat pos, i.opcode, operand⟩ :: is) := by
  obtain ⟨b, tail, hcode, hop⟩ := readOpcode_bytes (UInt32.ofNat pos) i.opcode (raw ++ rest)
  rw [encode_of_operandBytes? hraw, List.append_assoc, hcode, decodeFrom]
  split
  · rename_i e herror
    rw [hop] at herror
    cases herror
  · rename_i op tail hread
    rw [hop] at hread
    cases hread
    rw [← length_of_operandBytes? hraw, List.take_left, List.drop_left]
    rfl

/-- A token that is read was written. -/
theorem token_of_readOperand {i : Instruction} {raw : List UInt8} {offset : UInt32} {next : Nat}
    {t : Token} (hraw : i.operandBytes? = some raw)
    (h : readOperand offset next i.opcode raw = .ok (.token t)) :
    i.opcode.operandKind = .token ∧ ∀ t', i.operand = .token t' → t' = t := by
  unfold readOperand at h
  split at h
  all_goals first
    | cases h
    | (obtain ⟨_, hoperand, -⟩ := absolute_eq_ok h; cases hoperand)
  rename_i b₀ b₁ b₂ b₃ hkind
  refine ⟨hkind, fun t' ht' => ?_⟩
  simp only [operandBytes?, hkind, ht', Option.some.injEq, Bytes.ofWord32, List.cons.injEq] at hraw
  obtain ⟨rfl, rfl, rfl, rfl, -⟩ := hraw
  rw [Bytes.word32_bytes]

/-- The tokens of a stream that was written and decoded are the written ones, however long it is. -/
theorem token_of_decodeFrom {pos : Nat} {is js : List Instruction}
    (hfits : ∀ i ∈ is, i.encode.fits = true) (h : decodeFrom pos (bytesOf is) = .ok js)
    {j : Instruction} (hj : j ∈ js) {t : Token} (ht : j.operand = .token t) :
    ∃ i ∈ is, i.opcode = j.opcode ∧ i.opcode.operandKind = .token ∧
      ∀ t', i.operand = .token t' → t' = t := by
  induction is generalizing pos js with
  | nil =>
    rw [bytesOf, List.flatMap_nil, decodeFrom] at h
    cases h
    cases hj
  | cons i is ih =>
    obtain ⟨hi, his⟩ := List.forall_mem_cons.1 hfits
    obtain ⟨raw, hraw⟩ : ∃ raw, i.operandBytes? = some raw := by
      cases hbytes : i.operandBytes? with
      | none => rw [encode, hbytes] at hi; cases hi
      | some raw => exact ⟨raw, rfl⟩
    rw [bytesOf_cons, decodeFrom_encode_append hraw] at h
    split at h
    · cases h
    · rename_i operand hoperand
      split at h
      · cases h
      · rename_i js' hrest
        cases h
        rcases List.mem_cons.1 hj with rfl | hj
        · obtain rfl : operand = .token t := ht
          exact ⟨i, List.mem_cons_self .., rfl, token_of_readOperand hraw hoperand⟩
        · obtain ⟨i', hi', hrest⟩ := ih his hrest hj
          exact ⟨i', List.mem_cons_of_mem _ hi', hrest⟩

end Instruction

/-- A token that is decoded from a finished body stands in its draft, under the same opcode. -/
theorem Draft.token_of_decodeStream {d : Draft} {body : FinishedBody} (h : d.finish = .ok body)
    (hshape : ∀ i ∈ d.code.toList, i.Shaped) {is : List Instruction}
    (hdecode : Instruction.decodeStream body.code = .ok is) {j : Instruction} (hj : j ∈ is)
    {t : Token} (ht : j.operand = .token t) :
    (⟨j.opcode, .token t⟩ : DraftInstruction) ∈ d.code := by
  obtain ⟨-, hcode, -⟩ := finish_eq_ok h
  obtain ⟨hbytes, hfits, -⟩ := encodeFrom_eq_ok hcode
  obtain ⟨hmap, hproper⟩ := settled_spec d
  rw [hbytes] at hdecode
  obtain ⟨i, hi, hop, hkind, htoken⟩ := Instruction.token_of_decodeFrom hfits hdecode hj ht
  obtain ⟨k, hk⟩ := List.mem_iff_getElem?.1 hi
  rw [getElem?_laidFrom] at hk
  obtain ⟨s, hs, rfl⟩ := Option.map_eq_some_iff.1 hk
  have hs := List.mem_of_getElem? hs
  have hmem : s.instruction ∈ d.code.toList := hmap ▸ List.mem_map_of_mem hs
  have hopcode : s.opcode = s.instruction.opcode := by
    rcases s.opcode_eq (hproper s hs) with ⟨-, hshort⟩ | hlong
    · -- only branches have short forms
      have hbranch := (shortForm?_spec hshort).2.1
      rw [show s.opcode.operandKind = .token from hkind] at hbranch
      cases hbranch
    · exact hlong
  have hshaped := hshape _ hmem
  obtain ⟨⟨op, operand⟩, short⟩ := s
  obtain rfl : op = j.opcode := hopcode.symm.trans hop
  have hkind' : j.opcode.operandKind = .token := hop ▸ hkind
  simp only [DraftInstruction.Shaped, hkind'] at hshaped
  cases operand with
  | token t' =>
    obtain rfl := htoken t' rfl
    exact Array.mem_def.2 hmem
  | none | int | var | label => exact hshaped.elim

/-! ## What the rows tell -/

/-- Tables that are so short that the rows have all their numbers. -/
structure Metadata.Short (m : Metadata) : Prop where
  assemblyRefs : m.assemblyRefs.length < 2 ^ 24 - 1
  typeRefs : m.typeRefs.length < 2 ^ 24 - 1
  memberRefs : m.memberRefs.length < 2 ^ 24 - 1
  userStrings : m.userStrings.length < 2 ^ 24 - 1
  types : m.types.length < 2 ^ 24 - 1
  fields : m.fields.length < 2 ^ 24 - 1
  methods : m.methods.length < 2 ^ 24 - 1

namespace Image

open Metadata Lowering

section

variable (p : Program) (options : CodeOptions) (image : Image)

/-- The token leads to the row of an assembly. -/
def DenotesAssembly (t : Token) (a : Library.Assembly) : Prop :=
  rowAt? .assemblyRef image.metadata.assemblyRefs t =
    some ⟨a.name, a.version options.core, some a.publicKeyToken⟩

/-- The token leads to the row of a class of the framework, and that to its assembly. -/
def DenotesClass (t : Token) (c : Library.Class) : Prop :=
  ∃ scope, rowAt? .typeRef image.metadata.typeRefs t = some ⟨scope, c.namespace_, c.name⟩ ∧
    DenotesAssembly options image scope c.assembly

/-- The token leads to the type of the program that has this number. -/
def DenotesType (t : Token) (index : Nat) : Prop :=
  t.row? = some index ∧ ∃ head def_, p.types[index]? = some head ∧
    rowAt? .typeDef image.metadata.types t = some def_ ∧ def_.namespace_ = head.namespace_ ∧
    def_.name = head.name ∧ def_.visibility = head.visibility ∧ def_.enclosing = head.enclosing

/-- The signature is that of a type, and its token denotes the class. What has no type of its own at run
time is an object. -/
inductive Describes : TypeSig → StaticType → Prop
  | void : Describes .void .void
  | bool : Describes .bool .bool
  | int : Describes .int32 .int
  | string : Describes .string .string
  | object : Describes .object .object
  | null : Describes .object .null
  | unknown : Describes .object .unknown
  | lib {t : Token} {c : Library.Class} (h : DenotesClass options image t c) :
      Describes (.class_ t) (.lib c)
  | class_ {t : Token} {index : Nat} (h : DenotesType p image t index) :
      Describes (.class_ t) (.class_ index)
  | array {sig : TypeSig} {t : StaticType} (h : Describes sig t) : Describes (.array sig) (.array t)

/-- The signature is that of a method with these types. -/
structure DescribesMethod (sig : MethodSig) (hasThis : Bool) (ret : StaticType)
    (params : List StaticType) : Prop where
  hasThis : sig.hasThis = hasThis
  ret : Describes p options image sig.ret ret
  params : List.Forall₂ (Describes p options image) sig.params params

/-- The token leads to the row of a method of the framework, and that to its class. -/
def DenotesLibraryMethod (t : Token) (m : Library.Method) : Prop :=
  ∃ row, rowAt? .memberRef image.metadata.memberRefs t = some row ∧ row.name = m.name ∧
    DenotesClass options image row.parent m.class_ ∧
    DescribesMethod p options image row.sig m.hasThis m.ret m.params

/-- The token leads to a field of the program. -/
def DenotesField (t : Token) (owner : Nat) (f : Field) : Prop :=
  t.row? = some f.row ∧ ∃ def_, rowAt? .field image.metadata.fields t = some (owner, def_) ∧
    def_.name = f.name ∧ def_.visibility = f.visibility ∧ def_.isStatic = f.isStatic ∧
    Describes p options image def_.sig f.type

/-- What the definition of a method with a body tells. -/
structure Defines (def_ : MethodDef) (m : Method) (body : FinishedBody) : Prop where
  name : def_.name = m.name
  visibility : def_.visibility = m.visibility
  isStatic : def_.isStatic = m.isStatic
  paramNames : def_.paramNames = m.paramNames
  sig : DescribesMethod p options image def_.sig (!m.isStatic) m.ret m.params
  locals : def_.locals = body.locals
  maxStack : def_.maxStack = body.maxStack
  clauses : def_.clauses = body.clauses

/-- The token leads to a method of the program, whose row is that of the body it was lowered to. -/
def DenotesMethod (t : Token) (owner : Nat) (m : Method) : Prop :=
  t.row? = some m.row ∧ ∃ def_ body before behind,
    rowAt? .methodDef image.metadata.methods t = some (owner, def_) ∧
    image.bodies[m.row]? = some body ∧
    lowerMethod p options owner m before = .ok (body, behind) ∧ Defines p options image def_ m body

/-- The token leads to a row that tells of the entity. -/
def Denotes (t : Token) : Entity → Prop
  | .type index => DenotesType p image t index
  | .field owner f => DenotesField p options image t owner f
  | .method owner m => DenotesMethod p options image t owner m
  | .assembly a => DenotesAssembly options image t a
  | .class_ c => DenotesClass options image t c
  | .libraryMethod m => DenotesLibraryMethod p options image t m
  | .string s => rowAt? .userString image.metadata.userStrings t = some s

end

/-! ## Tokens lead to their entities -/

section

variable {p : Program} {options : CodeOptions} {mvid : Vector UInt8 16} {last r : References}
  {image : Image}

theorem Written.assemblyRefs (h : Written p options mvid last image) :
    image.metadata.assemblyRefs = last.assemblyRefs := by
  obtain ⟨bodies, -, -, r, -, rfl, hmetadata⟩ := h.bodies
  rw [hmetadata]
  rfl

theorem Written.typeRefs (h : Written p options mvid last image) :
    image.metadata.typeRefs = last.typeRefs := by
  obtain ⟨bodies, -, -, r, -, rfl, hmetadata⟩ := h.bodies
  rw [hmetadata]
  rfl

theorem Written.memberRefs (h : Written p options mvid last image) :
    image.metadata.memberRefs = last.memberRefs := by
  obtain ⟨bodies, -, -, r, -, rfl, hmetadata⟩ := h.bodies
  rw [hmetadata]
  rfl

theorem Written.userStrings (h : Written p options mvid last image) :
    image.metadata.userStrings = last.strings := by
  obtain ⟨bodies, -, -, r, -, rfl, hmetadata⟩ := h.bodies
  rw [hmetadata]
  rfl

theorem Written.methods (h : Written p options mvid last image) :
    image.metadata.methods = List.zipWith (fun (i, m) body => (i, methodDef last p.language m body))
      (Program.methodRows p.members.toList) image.bodies := by
  obtain ⟨bodies, hone, hbodies, r, -, rfl, hmetadata⟩ := h.bodies
  rw [hmetadata, methods_buildMetadata h.declared hone, hbodies]

theorem Written.fields (h : Written p options mvid last image) :
    image.metadata.fields =
      (Program.fieldRows p.members.toList).map fun (i, f) => (i, fieldDef last f) := by
  obtain ⟨bodies, hone, hbodies, r, -, rfl, hmetadata⟩ := h.bodies
  rw [hmetadata, fields_buildMetadata h.declared hone]

theorem Written.type (h : Written p options mvid last image) {i : Nat} (hpos : 0 < i)
    (hi : i < p.types.size) :
    ∃ head own, p.types[i]? = some head ∧
      image.metadata.types[i]? =
        some (typeDef last p.language options head (p.membersOf i) own) ∧
      DeclaredIn options last (head, p.membersOf i) := by
  obtain ⟨bodies, hone, -, r, -, rfl, hmetadata⟩ := h.bodies
  obtain ⟨head, own, hhead, hmem, htype⟩ :=
    getElem?_types options mvid r h.declared hone hpos hi
  exact ⟨head, own, hhead, hmetadata ▸ htype, (finalReferences_spec p options r).2.2.2 _ hmem⟩

theorem Written.core (h : Written p options mvid last image) : last.core = options.core := by
  have hstart := ((References.start options.core).grows_useMethod
    .compilationRelaxationsCtor).trans (References.grows_useMethod _ .runtimeCompatibilityCtor)
  exact h.start.core.trans hstart.core

theorem denotesAssembly (h : Written p options mvid last image) (hshort : image.metadata.Short)
    {a : Library.Assembly} (ha : a ∈ last.assemblies) :
    DenotesAssembly options image (last.assemblyToken a) a := by
  have hlength := hshort.assemblyRefs
  rw [h.assemblyRefs] at hlength
  rw [DenotesAssembly, h.assemblyRefs, ← h.core]
  exact rowAt?_idxOf .assemblyRef hlength ha

theorem denotesClass (h : Written p options mvid last image) (hshort : image.metadata.Short)
    {c : Library.Class} (hc : c ∈ last.classes) :
    DenotesClass options image (last.classToken c) c := by
  have hlength := hshort.typeRefs
  rw [h.typeRefs] at hlength
  rw [DenotesClass, h.typeRefs]
  exact ⟨_, rowAt?_idxOf .typeRef hlength hc, denotesAssembly h hshort (h.closed.assembly c hc)⟩

theorem denotesType (h : Written p options mvid last image) (hshort : image.metadata.Short)
    {index : Nat} (hpos : 0 < index) (hindex : index < p.types.size) :
    DenotesType p image (.ofRow .typeDef index) index := by
  obtain ⟨head, own, hhead, htype, -⟩ := h.type hpos hindex
  have hlt := Nat.lt_trans (List.getElem?_eq_some_iff.1 htype).1 hshort.types
  exact ⟨Token.row?_ofRow _ hlt, head, _, hhead, rowAt?_ofRow .typeDef hshort.types htype,
    rfl, rfl, rfl, rfl⟩

theorem describes_typeSig (h : Written p options mvid last image) (hshort : image.metadata.Short) :
    ∀ {t : StaticType}, t.Within p.types.size → last.Covers t →
      Describes p options image (last.typeSig t) t
  | .lib _, _, hcovers => .lib (denotesClass h hshort hcovers)
  | .class_ _, hwithin, _ => .class_ (denotesType h hshort hwithin.1 hwithin.2)
  | .array _, hwithin, hcovers => .array (describes_typeSig h hshort hwithin hcovers)
  | .void, _, _ => .void
  | .bool, _, _ => .bool
  | .int, _, _ => .int
  | .string, _, _ => .string
  | .object, _, _ => .object
  | .null, _, _ => .null
  | .unknown, _, _ => .unknown

theorem describesMethod_typeSig (h : Written p options mvid last image)
    (hshort : image.metadata.Short) (hasThis : Bool) {ret : StaticType} {params : List StaticType}
    (hwithin : ∀ t ∈ ret :: params, t.Within p.types.size)
    (hcovers : ∀ t ∈ ret :: params, last.Covers t) :
    DescribesMethod p options image ⟨hasThis, last.typeSig ret, params.map last.typeSig⟩ hasThis ret
      params where
  hasThis := rfl
  ret := describes_typeSig h hshort (hwithin ret (List.mem_cons_self ..))
    (hcovers ret (List.mem_cons_self ..))
  params := List.forall₂_map_left_iff.2 (List.forall₂_same.2 fun t ht =>
    describes_typeSig h hshort (hwithin t (List.mem_cons_of_mem _ ht))
      (hcovers t (List.mem_cons_of_mem _ ht)))

/-- The types of a method of the framework are known without references. -/
theorem library_types (p : Program) (r : References) {m : Library.Method} (hm : m ∈ Library.Method.all) :
    ∀ t ∈ m.ret :: m.params, t.Within p.types.size ∧ r.Covers t ∧ (r.typeSig t).token? = none := by
  intro t ht
  have hsimple := References.simple_of_mem_all m hm t ht
  simp only [List.mem_cons, List.not_mem_nil, or_false] at hsimple
  rcases hsimple with rfl | rfl | rfl | rfl | rfl <;> exact ⟨trivial, trivial, rfl⟩

theorem denotesLibraryMethod (h : Written p options mvid last image) (hshort : image.metadata.Short)
    {m : Library.Method} (hm : m ∈ last.methods) :
    DenotesLibraryMethod p options image (last.methodToken m) m := by
  have hlength := hshort.memberRefs
  rw [h.memberRefs] at hlength
  have htypes := library_types p last (h.closed.known m hm)
  rw [DenotesLibraryMethod, h.memberRefs]
  have hdescribes := describesMethod_typeSig h hshort m.hasThis (fun t ht => (htypes t ht).1)
    fun t ht => (htypes t ht).2.1
  have hsig {t : StaticType} (ht : t ∈ m.ret :: m.params) :=
    last.signature_of_mem_all (fun _ => .object) (h.closed.known m hm) ht
  rw [← hsig (List.mem_cons_self ..),
    ← List.map_congr_left fun t ht => hsig (List.mem_cons_of_mem _ ht)] at hdescribes
  exact ⟨_, rowAt?_idxOf .memberRef hlength hm, rfl, denotesClass h hshort (h.closed.parent m hm),
    hdescribes⟩

/-- What the declaration of a type with members needs has been referred to. -/
theorem Written.declaredIn (h : Written p options mvid last image) {owner : Nat}
    (hmembers : p.membersOf owner ≠ {}) :
    ∃ head, DeclaredIn options last (head, p.membersOf owner) := by
  obtain ⟨hpos, hlt⟩ := index_of_members h.declared hmembers
  obtain ⟨head, own, -, -, hdeclared⟩ := h.type hpos hlt
  exact ⟨head, hdeclared⟩

theorem denotesField (h : Written p options mvid last image) (hshort : image.metadata.Short)
    {owner : Nat} {f : Field} (hf : f ∈ (p.membersOf owner).fields) :
    DenotesField p options image f.token owner f := by
  obtain ⟨head, hdeclared⟩ := h.declaredIn (members_ne_of_field hf)
  have hrow : image.metadata.fields[f.row]? = some (owner, fieldDef last f) := by
    rw [h.fields, List.getElem?_map, h.declared.getElem?_fieldRows hf]
    rfl
  have hlt := Nat.lt_trans (List.getElem?_eq_some_iff.1 hrow).1 hshort.fields
  exact ⟨Token.row?_ofRow _ hlt, _, rowAt?_ofRow .field hshort.fields hrow, rfl, rfl, rfl,
    describes_typeSig h hshort ((h.declared.within owner).field f hf) (hdeclared.field f hf)⟩

/-- The row of a method has its definition, and its body. -/
theorem Written.method (h : Written p options mvid last image) {owner : Nat} {m : Method}
    (hm : m ∈ (p.membersOf owner).methods) :
    ∃ body, image.bodies[m.row]? = some body ∧ Stands p options last owner m body ∧
      image.metadata.methods[m.row]? = some (owner, methodDef last p.language m body) := by
  have hrow := h.declared.getElem?_methodRows hm
  obtain ⟨body, hbody⟩ : ∃ body, image.bodies[m.row]? = some body := by
    have hlt := (List.getElem?_eq_some_iff.1 hrow).1
    exact ⟨_, List.getElem?_eq_getElem (h.stands.length_eq ▸ hlt)⟩
  obtain ⟨hlt, hrow'⟩ := List.getElem?_eq_some_iff.1 hrow
  obtain ⟨hlt', hbody'⟩ := List.getElem?_eq_some_iff.1 hbody
  have hstands := h.stands.get hlt hlt'
  rw [List.get_eq_getElem, List.get_eq_getElem, hrow', hbody'] at hstands
  refine ⟨body, hbody, hstands, ?_⟩
  rw [h.methods, List.getElem?_zipWith, hrow, hbody]

theorem denotesMethod (h : Written p options mvid last image) (hshort : image.metadata.Short)
    {owner : Nat} {m : Method} (hm : m ∈ (p.membersOf owner).methods) :
    DenotesMethod p options image m.token owner m := by
  obtain ⟨head, hdeclared⟩ := h.declaredIn (members_ne_of_method hm)
  obtain ⟨body, hbody, ⟨before, behind, hlower, -⟩, hrow⟩ := h.method hm
  have hlt := Nat.lt_trans (List.getElem?_eq_some_iff.1 hrow).1 hshort.methods
  have hwithin := h.declared.within owner
  have hsig := describesMethod_typeSig h hshort (!m.isStatic)
    (List.forall_mem_cons.2 ⟨hwithin.ret m hm, hwithin.params m hm⟩)
    (List.forall_mem_cons.2 ⟨hdeclared.ret m hm, hdeclared.params m hm⟩)
  exact ⟨Token.row?_ofRow _ hlt, _, body, before, behind, rowAt?_ofRow .methodDef hshort.methods hrow,
    hbody, hlower, rfl, rfl, rfl, rfl, hsig, rfl, rfl, rfl⟩

/-- **Every token leads to the entity that it was made for.** -/
theorem denotes_of_in (h : Written p options mvid last image) (hshort : image.metadata.Short)
    {e : Entity} (he : e.In p last) : Denotes p options image (e.token last) e := by
  cases e with
  | type index => exact denotesType h hshort he.1 he.2
  | field owner f => exact denotesField h hshort he
  | method owner m => exact denotesMethod h hshort he
  | assembly a => exact denotesAssembly h hshort he
  | class_ c => exact denotesClass h hshort he
  | libraryMethod m => exact denotesLibraryMethod h hshort he
  | string s =>
    have hlength := hshort.userStrings
    rw [h.userStrings] at hlength
    rw [Denotes, h.userStrings]
    refine rowAt?_ofRow .userString hlength (List.getElem?_idxOf he)

/-! ## No other tokens stand in a module -/

/-- The module is the image with its bodies decoded. -/
structure LoadsInto (image : Image) (m : Module) : Prop where
  metadata : m.metadata = image.metadata
  body : ∀ row body, m.body? row = some body →
    ∃ stored, image.bodies[row]? = some stored ∧
      Instruction.decodeStream stored.code = .ok body.instructions

/-- The class in a signature is one of the program or of the framework. -/
theorem names_typeSig {t : StaticType} (hwithin : t.Within p.types.size) (hcovers : r.Covers t)
    {token : Token} (htoken : (r.typeSig t).token? = some token) : Names p r .signature token := by
  induction t with
  | lib c => exact ⟨.class_ c, hcovers, (Option.some.inj htoken).symm, trivial⟩
  | class_ i => exact ⟨.type i, hwithin, (Option.some.inj htoken).symm, trivial⟩
  | array element ih => exact ih hwithin hcovers htoken
  | void | bool | int | string | object | null | unknown => cases htoken

/-- A body of an image is that of a draft whose tokens name what they were made for. -/
theorem Written.draft (h : Written p options mvid last image) {body : FinishedBody}
    (hbody : body ∈ image.bodies) :
    ∃ d : Draft, d.finish = .ok body ∧ (∀ i ∈ d.code.toList, i.Shaped) ∧
      Meant p (StaticType.Within p.types.size) last d := by
  obtain ⟨k, hk, rfl⟩ := List.mem_iff_getElem.1 hbody
  have hstands := h.stands.get (h.stands.length_eq.symm ▸ hk) hk
  obtain ⟨before, behind, -, -, hgrows, d, hfinish, hshaped, hmeant⟩ := hstands
  exact ⟨d, hfinish, hshaped, hmeant.mono hgrows h.closed⟩

/-- A definition in the table of methods is that of a method with its body. -/
theorem Written.methodDef (h : Written p options mvid last image) {def_ : Nat × MethodDef}
    (hdef : def_ ∈ image.metadata.methods) :
    ∃ m ∈ (p.membersOf def_.1).methods, ∃ body ∈ image.bodies,
      def_.2 = Image.methodDef last p.language m body := by
  obtain ⟨k, hk⟩ := List.mem_iff_getElem?.1 hdef
  rw [h.methods, List.getElem?_zipWith_eq_some] at hk
  obtain ⟨⟨i, m⟩, body, hrow, hbody, rfl⟩ := hk
  exact ⟨m, mem_of_mem_methodRows (List.mem_of_getElem? hrow), body, List.mem_of_getElem? hbody, rfl⟩

/-- A type definition is the placeholder or that of a declared type. -/
theorem Written.typeDef (h : Written p options mvid last image) {type : TypeDef}
    (htype : type ∈ image.metadata.types) :
    type = TypeDef.placeholder ∨ ∃ head members own,
      type = Image.typeDef last p.language options head members own ∧
      DeclaredIn options last (head, members) := by
  obtain ⟨bodies, hone, -, r, -, rfl, hmetadata⟩ := h.bodies
  rw [hmetadata, types_buildMetadata] at htype
  rcases List.mem_cons.1 htype with rfl | htype
  · exact .inl rfl
  · obtain ⟨k, hk⟩ := List.mem_iff_getElem?.1 htype
    rw [typeDefs, List.getElem?_zipWith_eq_some] at hk
    obtain ⟨⟨head, members⟩, own, hrow, -, rfl⟩ := hk
    exact .inr ⟨head, members, own, rfl,
      (finalReferences_spec p options r).2.2.2 _ (List.mem_of_getElem? hrow)⟩

/-- The attributes and base types of a module are of the framework. -/
theorem Written.object (h : Written p options mvid last image) :
    Library.Class.object ∈ last.classes := by
  obtain ⟨bodies, -, -, r, -, rfl, -⟩ := h.bodies
  exact (finalReferences_spec p options r).2.2.1

theorem Written.attributes (h : Written p options mvid last image) :
    image.metadata.assembly.attributes.map (·.ctor) =
      [last.methodToken .compilationRelaxationsCtor, last.methodToken .runtimeCompatibilityCtor] := by
  obtain ⟨bodies, -, -, r, -, rfl, hmetadata⟩ := h.bodies
  rw [hmetadata]
  rfl

/-- **No token stands in a module but those of entities that suit the place.** -/
theorem names_of_uses (h : Written p options mvid last image) {m : Module} (hm : image.LoadsInto m)
    {use : Use} {t : Token} (huse : m.Uses use t) : Names p last use t := by
  have hmetadata := hm.metadata
  cases huse with
  | @operand row body i _ hbody hi ht =>
    obtain ⟨stored, hstored, hdecode⟩ := hm.body row body hbody
    obtain ⟨d, hfinish, hshaped, hmeant⟩ := h.draft (List.mem_of_getElem? hstored)
    exact hmeant.code _ (Draft.token_of_decodeStream hfinish hshaped hdecode hi ht) t rfl
  | caught hdef hc ht =>
    rw [hmetadata] at hdef
    obtain ⟨x, -, body, hbody, hdef⟩ := h.methodDef hdef
    obtain ⟨d, hfinish, -, hmeant⟩ := h.draft hbody
    rw [hdef, Image.methodDef, Draft.eq_bodyWith_of_finish hfinish] at hc
    obtain ⟨c', hc', rfl⟩ := List.mem_map.1 hc
    exact hmeant.clauses c' (Array.mem_def.2 hc') t ht
  | local_ hdef hv ht =>
    rw [hmetadata] at hdef
    obtain ⟨x, -, body, hbody, hdef⟩ := h.methodDef hdef
    obtain ⟨d, hfinish, -, hmeant⟩ := h.draft hbody
    rw [hdef, Image.methodDef, Draft.eq_bodyWith_of_finish hfinish] at hv
    obtain ⟨type, hwithin, hcovers, hsig⟩ := hmeant.locals _ (Array.mem_def.2 hv)
    exact names_typeSig hwithin hcovers (hsig ▸ ht)
  | @method def_ sig _ hdef hsig ht =>
    rw [hmetadata] at hdef
    obtain ⟨x, hx, body, -, hdef⟩ := h.methodDef hdef
    obtain ⟨head, hdeclared⟩ := h.declaredIn (members_ne_of_method hx)
    have hwithin := h.declared.within def_.1
    rw [hdef] at hsig
    obtain ⟨type, htype, rfl⟩ := List.mem_map.1
      (show sig ∈ (x.ret :: x.params).map last.typeSig from hsig)
    exact names_typeSig
      (List.forall_mem_cons.2 ⟨hwithin.ret x hx, hwithin.params x hx⟩ type htype)
      (List.forall_mem_cons.2 ⟨hdeclared.ret x hx, hdeclared.params x hx⟩ type htype) ht
  | @field def_ _ hdef ht =>
    rw [hmetadata, h.fields] at hdef
    obtain ⟨⟨owner, f⟩, hf, rfl⟩ := List.mem_map.1 hdef
    have hf := mem_of_mem_fieldRows hf
    obtain ⟨head, hdeclared⟩ := h.declaredIn (members_ne_of_field hf)
    exact names_typeSig ((h.declared.within owner).field f hf) (hdeclared.field f hf) ht
  | @member row sig _ hrow hsig ht =>
    rw [hmetadata, h.memberRefs] at hrow
    obtain ⟨x, hx, rfl⟩ := List.mem_map.1 hrow
    obtain ⟨type, htype, rfl⟩ := List.mem_map.1
      (show sig ∈ (x.ret :: x.params).map (last.signature fun _ => .object) from hsig)
    have hknown := h.closed.known x hx
    rw [last.signature_of_mem_all _ hknown htype, (library_types p last hknown type htype).2.2] at ht
    cases ht
  | parent hrow =>
    rw [hmetadata, h.memberRefs] at hrow
    obtain ⟨x, hx, rfl⟩ := List.mem_map.1 hrow
    exact ⟨.class_ x.class_, h.closed.parent x hx, rfl, trivial⟩
  | scope hrow =>
    rw [hmetadata, h.typeRefs] at hrow
    obtain ⟨c, hc, rfl⟩ := List.mem_map.1 hrow
    exact ⟨.assembly c.assembly, h.closed.assembly c hc, rfl, trivial⟩
  | base htype ht =>
    rw [hmetadata] at htype
    rcases h.typeDef htype with rfl | ⟨head, members, own, rfl, -⟩
    · cases ht
    · exact ⟨.class_ .object, h.object, (Option.some.inj ht).symm, trivial⟩
  | assemblyAttribute ha =>
    rw [hmetadata] at ha
    obtain ⟨-, hrelaxations, hcompatibility⟩ := startReferences_spec options.core
    have hctor := h.attributes ▸ List.mem_map_of_mem (f := Attribute.ctor) ha
    rcases List.mem_cons.1 hctor with hctor | hctor
    · exact ⟨.libraryMethod _, h.start.methods.subset hrelaxations, hctor, trivial⟩
    · exact ⟨.libraryMethod _, h.start.methods.subset hcompatibility, List.mem_singleton.1 hctor,
        trivial⟩
  | @typeAttribute type a htype ha =>
    rw [hmetadata] at htype
    rcases h.typeDef htype with rfl | ⟨head, members, own, rfl, hdeclared⟩
    · cases ha
    · simp only [Image.typeDef] at ha
      split at ha
      · obtain rfl := List.mem_singleton.1 ha
        exact ⟨.libraryMethod _, hdeclared.marker ‹_›, rfl, trivial⟩
      · cases ha
  | methodAttribute hdef ha =>
    rw [hmetadata] at hdef
    obtain ⟨x, -, body, -, hdef⟩ := h.methodDef hdef
    rw [hdef] at ha
    cases ha

end

end Image

end CilScope
