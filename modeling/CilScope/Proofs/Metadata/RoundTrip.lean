import CilScope.Metadata.Decode
import CilScope.Proofs.Bytes

/-!
# Decoding what was encoded

`decode_encode_append`: the metadata section of a module decodes to the module, whatever bytes
follow it. The module has to keep to what the format can say (`Bounded`: lengths in 32 bits), no
base type may be the token that stands for none, and the nesting of its types has to be valid.

`Reads r bs a` says that the step `r` takes exactly `bs` from the front of any input and gives `a`.
It composes (`Reads.bind`), so a step that reads a record is a chain of the steps for its parts,
and every writer of the format has one lemma that pairs it with its reader.
-/

namespace CilScope.Metadata

/-! ## Steps that take a given beginning -/

/-- The step takes the bytes `bs` from the front of any input and gives `a`. -/
def Reads {α : Type} (r : Reader α) (bs : List UInt8) (a : α) : Prop :=
  ∀ pos rest, r.run ⟨pos, bs ++ rest⟩ = .ok (a, ⟨pos + bs.length, rest⟩)

namespace Reads

variable {α β : Type}

theorem pure (a : α) : Reads (Pure.pure a) [] a := fun _ _ => rfl

theorem bind {r : Reader α} {k : α → Reader β} {bs cs : List UInt8} {a : α} {b : β}
    (hr : Reads r bs a) (hk : Reads (k a) cs b) : Reads (r >>= k) (bs ++ cs) b := by
  intro pos rest
  rw [StateT.run_bind, List.append_assoc, hr pos (cs ++ rest)]
  show (k a).run _ = _
  rw [hk, List.length_append, Nat.add_assoc]

/-- A step that is followed by a check of what was read. -/
theorem check {r : Reader α} {k : α → Reader β} {bs : List UInt8} {a : α} {b : β}
    (hr : Reads r bs a) (hk : Reads (k a) [] b) : Reads (r >>= k) bs b := by
  have h := hr.bind hk
  rwa [List.append_nil] at h

/-- The last step of a record. -/
theorem last {r : Reader α} {f : α → β} {bs : List UInt8} {a : α} {b : β} (hr : Reads r bs a)
    (hf : f a = b) : Reads (r >>= fun x => Pure.pure (f x)) bs b := by
  refine hr.check ?_
  rw [hf]
  exact pure b

/-- A look at the offset takes nothing. -/
theorem offset_bind {k : Nat → Reader β} {bs : List UInt8} {b : β} (hk : ∀ n, Reads (k n) bs b) :
    Reads (Reader.offset >>= k) bs b :=
  fun pos rest => hk pos pos rest

end Reads

/-! ## Bytes, words and lengths -/

theorem reads_take (bs : List UInt8) : Reads (Reader.take bs.length) bs bs := by
  intro pos rest
  show (if bs.length ≤ (bs ++ rest).length then _ else _ : Reader _).run _ = _
  rw [if_pos (by simp)]
  show Except.ok _ = _
  rw [List.take_left, List.drop_left]

theorem reads_byte (b : UInt8) : Reads Reader.byte [b] b := fun _ _ => rfl

theorem reads_word16 (w : UInt16) : Reads Reader.word16 (Bytes.ofWord16 w) w := by
  intro pos rest
  show Except.ok (Bytes.word16 _ _, _) = _
  rw [Bytes.word16_bytes]
  rfl

theorem reads_word32 (w : UInt32) : Reads Reader.word32 (Bytes.ofWord32 w) w := by
  intro pos rest
  show Except.ok (Bytes.word32 _ _ _ _, _) = _
  rw [Bytes.word32_bytes]
  rfl

theorem reads_vector {n : Nat} (v : Vector UInt8 n) : Reads (Reader.vector n) v.toList v := by
  have hlen : v.toList.length = n := by simp
  have htake := reads_take v.toList
  rw [hlen] at htake
  refine htake.check ?_
  simp only [hlen, dif_pos]
  exact Reads.pure v

theorem reads_length {n : Nat} (h : n < 2 ^ 32) : Reads Reader.length (Writer.length n) n := by
  refine (reads_word32 (UInt32.ofNat n)).last ?_
  rw [UInt32.toNat_ofNat', Nat.mod_eq_of_lt h]

theorem reads_block {bs : List UInt8} (h : bs.length < 2 ^ 32) :
    Reads Reader.block (Writer.block bs) bs :=
  (reads_length h).bind (reads_take bs)

/-! ## What the format can say

Lengths are written as 32-bit words, so every text and every list has to be shorter than that. -/

/-- The bytes of a text can be counted. -/
def BoundedText (s : String) : Prop := (Bytes.ofString s).length < 2 ^ 32

/-- The entries of a list can be counted, and each of them is bounded. -/
def BoundedList {α : Type} (bounded : α → Prop) (xs : List α) : Prop :=
  xs.length < 2 ^ 32 ∧ ∀ x ∈ xs, bounded x

/-- The parameters can be counted. -/
def BoundedSig (s : MethodSig) : Prop := s.params.length < 2 ^ 32

/-- The blob can be counted. -/
def BoundedAttribute (a : Attribute) : Prop := a.blob.length < 2 ^ 32

/-- The lengths in an assembly. -/
structure BoundedAssembly (a : AssemblyDef) : Prop where
  name : BoundedText a.name
  attributes : BoundedList BoundedAttribute a.attributes

/-- The lengths in a referenced type. -/
structure BoundedTypeRef (r : TypeRef) : Prop where
  namespace_ : BoundedText r.namespace_
  name : BoundedText r.name

/-- The lengths in a referenced member. -/
structure BoundedMemberRef (r : MemberRef) : Prop where
  name : BoundedText r.name
  sig : BoundedSig r.sig

/-- The lengths in a local variable. -/
def BoundedLocal (l : LocalVar) : Prop := ∀ name ∈ l.name, BoundedText name

/-- The lengths in a method. -/
structure BoundedMethod (m : MethodDef) : Prop where
  name : BoundedText m.name
  sig : BoundedSig m.sig
  paramNames : BoundedList BoundedText m.paramNames
  locals : BoundedList BoundedLocal m.locals
  clauses : m.clauses.length < 2 ^ 32
  attributes : BoundedList BoundedAttribute m.attributes

/-- The lengths in a type. -/
structure BoundedType (t : TypeDef) : Prop where
  namespace_ : BoundedText t.namespace_
  name : BoundedText t.name
  attributes : BoundedList BoundedAttribute t.attributes
  fields : BoundedList (fun f => BoundedText f.name) t.fields
  methods : BoundedList BoundedMethod t.methods

/-- Every list and every text of a module is shorter than 2^32. -/
structure Bounded (m : Metadata) : Prop where
  assembly : BoundedAssembly m.assembly
  moduleName : BoundedText m.moduleName
  assemblyRefs : BoundedList (fun r => BoundedText r.name) m.assemblyRefs
  typeRefs : BoundedList BoundedTypeRef m.typeRefs
  memberRefs : BoundedList BoundedMemberRef m.memberRefs
  userStrings : BoundedList BoundedText m.userStrings
  types : BoundedList BoundedType m.types

/-! ## Texts and lists -/

theorem reads_text {s : String} (h : BoundedText s) : Reads Reader.text (Writer.text s) s := by
  refine (reads_length h).bind (Reads.offset_bind fun start => ?_)
  refine (reads_take (Bytes.ofString s)).check ?_
  rw [Bytes.toString?_ofString]
  exact Reads.pure s

theorem reads_times {α : Type} {item : Reader α} {write : Writer α} {xs : List α}
    (h : ∀ x ∈ xs, Reads item (write x) x) :
    Reads (Reader.times item xs.length) (xs.flatMap write) xs := by
  induction xs with
  | nil => exact Reads.pure []
  | cons x xs ih =>
    have hrest := ih fun y hy => h y (List.mem_cons_of_mem _ hy)
    exact (h x (List.mem_cons_self ..)).bind (hrest.last rfl)

/-- A list whose entries take at least one byte each passes the check of its length. -/
theorem reads_list {α : Type} {item : Reader α} {write : Writer α} {xs : List α}
    (hlen : xs.length < 2 ^ 32) (hpos : ∀ x, 0 < (write x).length)
    (h : ∀ x ∈ xs, Reads item (write x) x) : Reads (Reader.list item) (Writer.list write xs) xs := by
  refine (reads_length hlen).bind fun pos rest => ?_
  have hbytes : xs.length ≤ (xs.flatMap write).length := by
    clear hlen h
    induction xs with
    | nil => exact Nat.le_refl 0
    | cons x xs ih =>
      have := hpos x
      rw [List.flatMap_cons, List.length_append, List.length_cons]
      omega
  show (if (xs.flatMap write ++ rest).length < xs.length then _ else _ : Reader _).run _ = _
  rw [if_neg (by rw [List.length_append]; omega)]
  exact reads_times h pos rest

/-! ## Tags and flags -/

theorem reads_flag (b : Bool) : Reads Reader.flag (Writer.flag b) b := by
  cases b <;> exact (reads_byte _).last rfl

theorem reads_token (t : Token) : Reads Reader.token (Writer.token t) t :=
  (reads_word32 t.raw).last rfl

theorem reads_version (v : Version) : Reads Reader.version (Writer.version v) v := by
  simp only [Writer.version, List.append_assoc]
  exact (reads_word16 v.major).bind ((reads_word16 v.minor).bind ((reads_word16 v.build).bind
    ((reads_word16 v.revision).last rfl)))

theorem reads_visibility (v : Visibility) :
    Reads Reader.visibility (Writer.visibility v) v := by
  cases v <;> exact fun _ _ => rfl

/-- The bits of a byte are the truth values it was made of. -/
theorem bit_bits (b₀ b₁ b₂ b₃ : Bool) :
    Reader.bit (Writer.bits [b₀, b₁, b₂, b₃]) 0 = b₀ ∧
      Reader.bit (Writer.bits [b₀, b₁, b₂, b₃]) 1 = b₁ ∧
      Reader.bit (Writer.bits [b₀, b₁, b₂, b₃]) 2 = b₂ ∧
      Reader.bit (Writer.bits [b₀, b₁, b₂, b₃]) 3 = b₃ := by
  cases b₀ <;> cases b₁ <;> cases b₂ <;> cases b₃ <;> decide

theorem bits_three (b₀ b₁ b₂ : Bool) :
    Writer.bits [b₀, b₁, b₂] = Writer.bits [b₀, b₁, b₂, false] := by
  cases b₀ <;> cases b₁ <;> cases b₂ <;> rfl

theorem reads_optional {α : Type} {item : Reader α} {write : Writer α} {x : Option α}
    (h : ∀ a ∈ x, Reads item (write a) a) :
    Reads (Reader.optional item) (Writer.optional write x) x := by
  cases x with
  | none => exact (reads_flag false).bind (Reads.pure none)
  | some a => exact (reads_flag true).bind ((h a rfl).last rfl)

/-! ## Signatures -/

/-- The number of array types around the element type. -/
def rank : TypeSig → Nat
  | .array element => rank element + 1
  | _ => 0

/-- The type inside all array types. -/
def core : TypeSig → TypeSig
  | .array element => core element
  | t => t

theorem arrays_core (t : TypeSig) : Reader.arrays (core t) (rank t) = t := by
  induction t with
  | array element ih => exact congrArg TypeSig.array ih
  | _ => rfl

theorem typeSig_eq (t : TypeSig) : Writer.typeSig t =
    List.replicate (rank t) ElementCode.array.byte ++ Writer.typeSig (core t) := by
  induction t with
  | array element ih =>
    rw [Writer.typeSig, ih]
    rfl
  | _ => rfl

theorem core_ne_array (t element : TypeSig) : core t ≠ .array element := by
  induction t with
  | array t ih => exact ih
  | _ => exact TypeSig.noConfusion

theorem reads_elementSig {t : TypeSig} (h : ∀ element, t ≠ .array element) :
    Reads Reader.elementSig (Writer.typeSig t) t := by
  refine Reads.offset_bind fun start => ?_
  cases t with
  | array element => exact absurd rfl (h element)
  | class_ t => exact (reads_byte ElementCode.class_.byte).bind ((reads_token t).last rfl)
  | _ => exact fun _ _ => rfl

/-- The element type does not start with the code of an array, so the leading array codes are
exactly those of the array types around it. -/
theorem takeWhile_typeSig (t : TypeSig) (rest : List UInt8) :
    (Writer.typeSig t ++ rest).takeWhile (· = ElementCode.array.byte) =
      List.replicate (rank t) ElementCode.array.byte := by
  induction t with
  | array element ih =>
    rw [Writer.typeSig, List.cons_append, List.takeWhile_cons_of_pos (by simp), ih]
    rfl
  | _ => rfl

theorem reads_typeSig (t : TypeSig) : Reads Reader.typeSig (Writer.typeSig t) t := by
  intro pos rest
  have h : Reads (do
      let _ ← Reader.take (List.replicate (rank t) ElementCode.array.byte).length
      return Reader.arrays (← Reader.elementSig) (rank t)) (Writer.typeSig t) t := by
    rw [typeSig_eq t]
    exact (reads_take _).bind
      ((reads_elementSig (core_ne_array t)).last (arrays_core t))
  have hrun := h pos rest
  simp only [List.length_replicate] at hrun
  have hrank : ((Writer.typeSig t ++ rest).takeWhile (· = ElementCode.array.byte)).length =
      rank t := by
    rw [takeWhile_typeSig, List.length_replicate]
  show (do
    let _ ← Reader.take ((Writer.typeSig t ++ rest).takeWhile (· = ElementCode.array.byte)).length
    return Reader.arrays (← Reader.elementSig)
      ((Writer.typeSig t ++ rest).takeWhile (· = ElementCode.array.byte)).length :
      Reader TypeSig).run _ = _
  rw [hrank]
  exact hrun

/-! ## Records -/

theorem length_typeSig_pos (t : TypeSig) : 0 < (Writer.typeSig t).length := by
  cases t <;> exact Nat.succ_pos _

theorem length_text_pos (s : String) : 0 < (Writer.text s).length := by
  simp [Writer.text, Writer.block, Writer.length, Bytes.ofWord32]

theorem reads_texts {xs : List String} (h : BoundedList BoundedText xs) :
    Reads (Reader.list Reader.text) (Writer.list Writer.text xs) xs :=
  reads_list h.1 length_text_pos fun x hx => reads_text (h.2 x hx)

theorem reads_methodSig {s : MethodSig} (h : BoundedSig s) :
    Reads Reader.methodSig (Writer.methodSig s) s := by
  simp only [Writer.methodSig, List.append_assoc]
  exact (reads_flag s.hasThis).bind ((reads_typeSig s.ret).bind
    ((reads_list h length_typeSig_pos fun t _ => reads_typeSig t).last rfl))

theorem reads_attributes {xs : List Attribute} (h : BoundedList BoundedAttribute xs) :
    Reads (Reader.list Reader.customAttribute) (Writer.list Writer.customAttribute xs) xs := by
  refine reads_list h.1 (fun a => ?_) fun a ha => ?_
  · simp [Writer.customAttribute, Writer.token, Bytes.ofWord32]
  · exact (reads_token a.ctor).bind ((reads_block (h.2 a ha)).last rfl)

theorem reads_assembly {a : AssemblyDef} (h : BoundedAssembly a) :
    Reads Reader.assembly (Writer.assembly a) a := by
  simp only [Writer.assembly, List.append_assoc]
  exact (reads_text h.name).bind ((reads_version a.version).bind
    ((reads_word32 a.hashAlgorithm).bind ((reads_attributes h.attributes).last rfl)))

theorem reads_assemblyRef {r : AssemblyRef} (h : BoundedText r.name) :
    Reads Reader.assemblyRef (Writer.assemblyRef r) r := by
  simp only [Writer.assemblyRef, List.append_assoc]
  exact (reads_text h).bind ((reads_version r.version).bind
    ((reads_optional fun key _ => reads_vector key).last rfl))

theorem reads_typeRef {r : TypeRef} (h : BoundedTypeRef r) :
    Reads Reader.typeRef (Writer.typeRef r) r := by
  simp only [Writer.typeRef, List.append_assoc]
  exact (reads_token r.scope).bind ((reads_text h.namespace_).bind ((reads_text h.name).last rfl))

theorem reads_memberRef {r : MemberRef} (h : BoundedMemberRef r) :
    Reads Reader.memberRef (Writer.memberRef r) r := by
  simp only [Writer.memberRef, List.append_assoc]
  exact (reads_token r.parent).bind ((reads_text h.name).bind ((reads_methodSig h.sig).last rfl))

theorem reads_field {f : FieldDef} (h : BoundedText f.name) :
    Reads Reader.field (Writer.field f) f := by
  simp only [Writer.field, List.append_assoc]
  exact (reads_text h).bind ((reads_visibility f.visibility).bind
    ((reads_flag f.isStatic).bind ((reads_typeSig f.sig).last rfl)))

theorem reads_localVar {l : LocalVar} (h : BoundedLocal l) :
    Reads Reader.localVar (Writer.localVar l) l :=
  (reads_typeSig l.sig).bind ((reads_optional fun name hname => reads_text (h name hname)).last rfl)

theorem reads_clauseKind (k : ClauseKind) : Reads Reader.clauseKind (Writer.clauseKind k) k := by
  refine Reads.offset_bind fun start => ?_
  cases k with
  | catch_ t => exact (reads_byte 0).bind ((reads_token t).last rfl)
  | finally_ => exact fun _ _ => rfl

theorem reads_clause (c : Clause) : Reads Reader.clause (Writer.clause c) c := by
  simp only [Writer.clause, List.append_assoc]
  exact (reads_clauseKind c.kind).bind ((reads_word32 c.tryOffset).bind
    ((reads_word32 c.tryLength).bind ((reads_word32 c.handlerOffset).bind
      ((reads_word32 c.handlerLength).last rfl))))

theorem reads_method {m : MethodDef} (h : BoundedMethod m) :
    Reads Reader.method (Writer.method m) m := by
  obtain ⟨h₀, h₁, h₂, h₃⟩ := bit_bits m.isStatic m.hideBySig m.specialName m.rtSpecialName
  simp only [Writer.method, List.append_assoc]
  refine (reads_text h.name).bind ((reads_visibility m.visibility).bind ((reads_byte _).bind
    ((reads_methodSig h.sig).bind ((reads_texts h.paramNames).bind
      ((reads_list h.locals.1 ?_ fun l hl => reads_localVar (h.locals.2 l hl)).bind
        ((reads_word16 m.maxStack).bind
          ((reads_list h.clauses ?_ fun c _ => reads_clause c).bind
            ((reads_attributes h.attributes).last ?_))))))))
  · intro l
    have := length_typeSig_pos l.sig
    rw [Writer.localVar, List.length_append]
    omega
  · intro c
    simp [Writer.clause, Bytes.ofWord32]
  · simp only [h₀, h₁, h₂, h₃]

theorem reads_base {base : Option Token} (h : base ≠ some ⟨0⟩) :
    Reads Reader.base (Writer.base base) base := by
  cases base with
  | none => exact (reads_token ⟨0⟩).last rfl
  | some t =>
    refine (reads_token t).last (if_neg fun hzero => h ?_)
    exact congrArg some (congrArg Token.mk hzero)

theorem reads_enclosing {enclosing : Option Nat} (h : ∀ i ∈ enclosing, i + 1 < 2 ^ 32) :
    Reads Reader.enclosing (Writer.enclosing enclosing) enclosing := by
  cases enclosing with
  | none => exact (reads_length (n := 0) (by decide)).bind (Reads.pure none)
  | some i =>
    have hread : Reads Reader.enclosing (_ ++ []) (some i) :=
      (reads_length (h i rfl)).bind (Reads.pure (some i))
    rwa [List.append_nil] at hread

theorem length_field_pos (f : FieldDef) : 0 < (Writer.field f).length := by
  have := length_text_pos f.name
  simp only [Writer.field, List.length_append]
  omega

theorem length_method_pos (m : MethodDef) : 0 < (Writer.method m).length := by
  have := length_text_pos m.name
  simp only [Writer.method, List.length_append]
  omega

theorem reads_type {t : TypeDef} (h : BoundedType t) (hbase : t.base ≠ some ⟨0⟩)
    (henclosing : ∀ i ∈ t.enclosing, i + 1 < 2 ^ 32) : Reads Reader.type (Writer.type t) t := by
  obtain ⟨h₀, h₁, h₂, -⟩ := bit_bits t.isAbstract t.isSealed t.beforeFieldInit false
  simp only [Writer.type, List.append_assoc, bits_three]
  refine (reads_text h.namespace_).bind ((reads_text h.name).bind
    ((reads_visibility t.visibility).bind ((reads_byte _).bind ((reads_base hbase).bind
      ((reads_enclosing henclosing).bind ((reads_attributes h.attributes).bind
        ((reads_list h.fields.1 length_field_pos fun f hf => reads_field (h.fields.2 f hf)).bind
          ((reads_list h.methods.1 length_method_pos
            fun m hm => reads_method (h.methods.2 m hm)).last ?_))))))))
  simp only [h₀, h₁, h₂]

/-! ## Modules -/

/-- In a valid nesting every enclosing index is inside the table. -/
theorem enclosing_lt_of_badNesting? {types : List TypeDef} (h : badNesting? types = none)
    {t : TypeDef} (ht : t ∈ types) {i : Nat} (hi : i ∈ t.enclosing) : i < types.length := by
  obtain ⟨index, hindex, rfl⟩ := List.getElem_of_mem ht
  have hends := List.findSome?_eq_none_iff.mp h (types[index], index)
    (List.mem_zipIdx_iff_getElem?.mpr (by simp [hindex]))
  simp only [Option.mem_def.mp hi, Option.bind_some] at hends
  obtain ⟨steps, hsteps⟩ : ∃ steps, types.length = steps + 1 := ⟨types.length - 1, by omega⟩
  refine Nat.lt_of_not_le fun hout => ?_
  have hnone : types[i]? = none := List.getElem?_eq_none (by omega)
  simp [hsteps, chainEnds, hnone] at hends

theorem reads_tables {m : Metadata} (h : Bounded m) (hbase : ∀ t ∈ m.types, t.base ≠ some ⟨0⟩)
    (henclosing : ∀ t ∈ m.types, ∀ i ∈ t.enclosing, i + 1 < 2 ^ 32) :
    Reads Reader.tables (encode m) m := by
  simp only [encode, List.append_assoc]
  refine (reads_word32 signature).bind ?_
  rw [if_neg (fun hne => hne rfl)]
  refine (reads_word16 formatVersion).bind ?_
  rw [if_neg (fun hne => hne rfl)]
  refine (reads_assembly h.assembly).bind ((reads_text h.moduleName).bind
    ((reads_vector m.mvid).bind
      ((reads_list h.assemblyRefs.1 ?_ fun r hr => reads_assemblyRef (h.assemblyRefs.2 r hr)).bind
        ((reads_list h.typeRefs.1 ?_ fun r hr => reads_typeRef (h.typeRefs.2 r hr)).bind
          ((reads_list h.memberRefs.1 ?_ fun r hr => reads_memberRef (h.memberRefs.2 r hr)).bind
            ((reads_texts h.userStrings).bind
              ((reads_list h.types.1 ?_ fun t ht =>
                reads_type (h.types.2 t ht) (hbase t ht) (henclosing t ht)).last rfl)))))))
  · intro r
    have := length_text_pos r.name
    simp only [Writer.assemblyRef, List.length_append]
    omega
  · intro r
    simp [Writer.typeRef, Writer.token, Bytes.ofWord32]
  · intro r
    simp [Writer.memberRef, Writer.token, Bytes.ofWord32]
  · intro t
    have := length_text_pos t.namespace_
    simp only [Writer.type, List.length_append]
    omega

/-- **Decoding inverts encoding, whatever follows.** -/
theorem decode_encode_append {m : Metadata} (hnesting : badNesting? m.types = none)
    (hbase : ∀ t ∈ m.types, t.base ≠ some ⟨0⟩) (hbounded : Bounded m) (rest : List UInt8) :
    decode (encode m ++ rest) = .ok m := by
  have henclosing : ∀ t ∈ m.types, ∀ i ∈ t.enclosing, i + 1 < 2 ^ 32 := by
    intro t ht i hi
    have hlt := enclosing_lt_of_badNesting? hnesting ht hi
    have hlen := hbounded.types.1
    omega
  unfold decode
  rw [reads_tables hbounded hbase henclosing 0 rest]
  simp only [bind, Except.bind, hnesting]
  rfl

/-- A class nested in another one that has a field of an array type and a method with a clause. -/
def nestedClasses : Metadata where
  moduleName := "m"
  userStrings := ["a", ""]
  types := [.placeholder,
    { name := "Outer", base := some ⟨0x01000001⟩
      fields := [{ name := "f", sig := .array (.array (.class_ ⟨0x02000002⟩)) }]
      methods := [{
        name := "M", hideBySig := true, sig := { hasThis := true, params := [.int32] }
        clauses := [⟨.catch_ ⟨0x01000001⟩, 0, 2, 2, 3⟩, ⟨.finally_, 0, 5, 5, 1⟩] }] },
    { name := "Inner", base := some ⟨0x01000001⟩, enclosing := some 1 }]

theorem boundedList_nil {α : Type} {bounded : α → Prop} : BoundedList bounded [] :=
  ⟨Nat.two_pow_pos 32, fun _ h => nomatch h⟩

theorem bounded_nestedClasses : Bounded nestedClasses := by
  have htext : ∀ s ∈ ["", "m", "a", "f", "M", "Outer", "Inner", "<Module>"], BoundedText s := by
    unfold BoundedText
    decide +kernel
  have hmethods : ∀ t ∈ nestedClasses.types, BoundedList BoundedMethod t.methods := by
    simp only [nestedClasses, TypeDef.placeholder, List.forall_mem_cons]
    refine ⟨boundedList_nil, ⟨by decide, ?_⟩, boundedList_nil, fun _ h => nomatch h⟩
    simp only [List.forall_mem_cons]
    exact ⟨⟨htext _ (by decide), by unfold BoundedSig; decide, boundedList_nil, boundedList_nil,
      by decide, boundedList_nil⟩, fun _ h => nomatch h⟩
  have hfields : ∀ t ∈ nestedClasses.types, BoundedList (fun f => BoundedText f.name) t.fields := by
    simp only [nestedClasses, TypeDef.placeholder, List.forall_mem_cons]
    refine ⟨boundedList_nil, ⟨by decide, ?_⟩, boundedList_nil, fun _ h => nomatch h⟩
    simp only [List.forall_mem_cons]
    exact ⟨htext _ (by decide), fun _ h => nomatch h⟩
  refine ⟨⟨htext _ (by decide), boundedList_nil⟩, htext _ (by decide), boundedList_nil,
    boundedList_nil, boundedList_nil, ⟨by decide, fun s hs => htext s ?_⟩, by decide,
    fun t ht => ⟨?_, ?_, ?_, hfields t ht, hmethods t ht⟩⟩
  · revert s
    decide
  · exact htext _ (by revert t; decide)
  · exact htext _ (by revert t; decide)
  · have hnone : t.attributes = [] := by revert t; decide
    rw [hnone]
    exact boundedList_nil

/-- The nested classes are read back in front of other bytes. -/
theorem decode_encode_nestedClasses :
    badNesting? nestedClasses.types = none ∧ (∀ t ∈ nestedClasses.types, t.base ≠ some ⟨0⟩) ∧
      Bounded nestedClasses ∧
      decode (encode nestedClasses ++ [0xFF, 0x00]) = .ok nestedClasses :=
  ⟨by decide, by decide, bounded_nestedClasses,
    decode_encode_append (by decide) (by decide) bounded_nestedClasses _⟩

end CilScope.Metadata
