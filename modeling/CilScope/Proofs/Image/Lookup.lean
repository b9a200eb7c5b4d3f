import CilScope.Proofs.Image.Tokens

/-!
# Looking up the tokens of an image

A listing finds the name of every token of a compiled module: what denotes an entity can be looked up
wherever the entity suits. With `denotes_of_in` and `names_of_uses` this is the whole story of a token,
from the request it was made for to the text it is shown as (`token_meanings_of_generate`).
-/

namespace CilScope.Image

open Metadata Lowering Listing

section

variable {p : Program} {options : CodeOptions} {image : Image} {t : Token} (site : String)

theorem row_eq_ok {α : Type} {n : Listing.Names} {table : Table} {rows : List α} {x : α}
    (h : rowAt? table rows t = some x) : n.row table rows t = .ok x := by
  obtain ⟨htable, hrow⟩ := rowAt?_eq_some h
  rw [Names.row, if_pos htable, hrow]
  rfl

theorem exists_typeToken_class {c : Library.Class} (h : DenotesClass options image t c) :
    ∃ text, Names.typeToken ⟨image.metadata, site⟩ t = .ok text := by
  obtain ⟨scope, hrow, hscope⟩ := h
  rw [Names.typeToken, (rowAt?_eq_some hrow).1]
  dsimp only
  rw [row_eq_ok hrow]
  show ∃ text, (Names.row _ _ _ scope >>= _) = Except.ok text
  rw [row_eq_ok hscope]
  exact ⟨_, rfl⟩

theorem exists_typeToken_type {index : Nat} (h : DenotesType p image t index) :
    ∃ text, Names.typeToken ⟨image.metadata, site⟩ t = .ok text := by
  obtain ⟨hindex, head, def_, -, hrow, -⟩ := h
  obtain ⟨htable, hdef⟩ := rowAt?_eq_some hrow
  rw [hindex, Option.bind_some] at hdef
  rw [Names.typeToken, htable, hindex]
  exact ⟨_, if_pos (List.getElem?_eq_some_iff.1 hdef).1⟩

theorem exists_sig_of_describes {sig : TypeSig} {type : StaticType}
    (h : Describes p options image sig type) :
    ∃ text, Names.sig ⟨image.metadata, site⟩ sig = .ok text := by
  refine exists_sig fun token htoken => ?_
  induction h with
  | lib h =>
    cases htoken
    exact exists_typeToken_class site h
  | class_ h =>
    cases htoken
    exact exists_typeToken_type site h
  | array _ ih => exact ih htoken
  | void | bool | int | string | object | null | unknown => cases htoken

theorem exists_method_of_describes {sig : MethodSig} {hasThis : Bool} {ret : StaticType}
    {params : List StaticType} (h : DescribesMethod p options image sig hasThis ret params)
    (parent name : String) :
    ∃ text, Names.method ⟨image.metadata, site⟩ sig parent name = .ok text := by
  obtain ⟨ret, hret⟩ := exists_sig_of_describes site h.ret
  obtain ⟨params, hparams⟩ : ∃ texts, sig.params.mapM (Names.sig ⟨image.metadata, site⟩) = .ok texts := by
    refine exists_mapM fun sig hsig => ?_
    obtain ⟨k, hk, rfl⟩ := List.mem_iff_getElem.1 hsig
    exact exists_sig_of_describes site (h.params.get hk (h.params.length_eq ▸ hk))
  exact ⟨_, by rw [Names.method, hparams, hret]; rfl⟩

theorem exists_methodToken_library {m : Library.Method}
    (h : DenotesLibraryMethod p options image t m) :
    ∃ text, Names.methodToken ⟨image.metadata, site⟩ t = .ok text := by
  obtain ⟨row, hrow, -, hparent, hsig⟩ := h
  obtain ⟨parent, hparent⟩ := exists_typeToken_class site hparent
  rw [Names.methodToken, (rowAt?_eq_some hrow).1]
  dsimp only
  rw [row_eq_ok hrow]
  show ∃ text, (Names.typeToken _ row.parent >>= _) = Except.ok text
  rw [hparent]
  exact exists_method_of_describes site hsig parent row.name

theorem exists_methodToken_method {owner : Nat} {m : Method}
    (h : DenotesMethod p options image t owner m) :
    ∃ text, Names.methodToken ⟨image.metadata, site⟩ t = .ok text := by
  obtain ⟨-, def_, body, before, behind, hrow, -, -, hdefines⟩ := h
  obtain ⟨htable, hdef⟩ := rowAt?_eq_some hrow
  rw [Names.methodToken, htable]
  dsimp only
  rw [hdef]
  exact exists_method_of_describes site hdefines.sig _ def_.name

theorem exists_fieldToken {owner : Nat} {f : Field} (h : DenotesField p options image t owner f) :
    ∃ text, Names.fieldToken ⟨image.metadata, site⟩ t = .ok text := by
  obtain ⟨-, def_, hrow, -, -, -, hsig⟩ := h
  obtain ⟨text, htext⟩ := exists_sig_of_describes site hsig
  rw [Names.fieldToken]
  dsimp only
  rw [(rowAt?_eq_some hrow).2]
  dsimp only
  rw [htext]
  exact ⟨_, rfl⟩

/-- The table that the token of an entity points into. -/
theorem table?_of_denotes {e : Entity} (h : Denotes p options image t e) :
    t.table? = some (match e with
      | .type _ => .typeDef
      | .field .. => .field
      | .method .. => .methodDef
      | .assembly _ => .assemblyRef
      | .class_ _ => .typeRef
      | .libraryMethod _ => .memberRef
      | .string _ => .userString) := by
  cases e with
  | type =>
    obtain ⟨-, _, _, -, hrow, -⟩ := h
    exact (rowAt?_eq_some hrow).1
  | field =>
    obtain ⟨-, _, hrow, -⟩ := h
    exact (rowAt?_eq_some hrow).1
  | method =>
    obtain ⟨-, _, _, _, _, hrow, -⟩ := h
    exact (rowAt?_eq_some hrow).1
  | assembly => exact (rowAt?_eq_some h).1
  | class_ =>
    obtain ⟨_, hrow, -⟩ := h
    exact (rowAt?_eq_some hrow).1
  | libraryMethod =>
    obtain ⟨_, hrow, -⟩ := h
    exact (rowAt?_eq_some hrow).1
  | string => exact (rowAt?_eq_some h).1

/-- The operand that denotes an entity has a text, by its table. -/
theorem exists_token {e : Entity} {op : Opcode} (h : Denotes p options image t e)
    (hsuits : e.Suits (.operand op)) : ∃ text, Names.token ⟨image.metadata, site⟩ t = .ok text := by
  have htable := table?_of_denotes h
  unfold Names.token
  cases e with
  | type | assembly => exact hsuits.elim
  | field owner f =>
    simp only [htable]
    exact exists_fieldToken site h
  | method owner m =>
    simp only [htable]
    exact exists_methodToken_method site h
  | class_ c =>
    simp only [htable]
    exact exists_typeToken_class site h
  | libraryMethod m =>
    simp only [htable]
    exact exists_methodToken_library site h
  | string s =>
    simp only [htable, row_eq_ok (n := ⟨image.metadata, site⟩) h]
    exact ⟨_, rfl⟩

/-- What denotes an entity can be looked up in every place that the entity suits. -/
theorem resolves_of_denotes {e : Entity} {use : Use} (h : Denotes p options image t e)
    (hsuits : e.Suits use) : Names.Resolves ⟨image.metadata, site⟩ use t := by
  cases use with
  | operand op => exact exists_token site h hsuits
  | caught | base | parent =>
    cases e with
    | class_ c => exact exists_typeToken_class site h
    | type | field | method | assembly | libraryMethod | string => exact hsuits.elim
  | signature =>
    cases e with
    | class_ c => exact exists_typeToken_class site h
    | type index => exact exists_typeToken_type site h
    | field | method | assembly | libraryMethod | string => exact hsuits.elim
  | attr =>
    cases e with
    | libraryMethod m => exact exists_methodToken_library site h
    | type | field | method | assembly | class_ | string => exact hsuits.elim
  | scope =>
    cases e with
    | assembly a => exact ⟨_, row_eq_ok h⟩
    | type | field | method | class_ | libraryMethod | string => exact hsuits.elim

end

/-- All tokens of a module that an image is loaded into lead to names. -/
theorem resolved_of_loadsInto {p : Program} {options : CodeOptions} {mvid : Vector UInt8 16}
    {last : References} {image : Image} (h : Written p options mvid last image)
    (hshort : image.metadata.Short) {m : Module} (hm : image.LoadsInto m) : Resolved m := by
  intro site use t huse
  obtain ⟨e, he, rfl, hsuits⟩ := names_of_uses h hm huse
  rw [hm.metadata]
  exact resolves_of_denotes site (denotes_of_in h hshort he) hsuits

/-- **Every token of a compiled module denotes what it was made for.** The bodies are lowered on the way to
references `last`, so whatever was referred to before is in the same place there. A token that was made for
an entity with references on this way leads to a row of the image that tells of this entity: a method of
the program to its definition, with the body of the same row, a method of the framework to its class and
its signature. No other tokens stand in a module that the image is loaded into, each is that of an entity
of the kind its place wants, and no listing of the module stops at an unknown token. -/
theorem token_meanings_of_generate {language : Language} {options : CodeOptions}
    {mvid : Vector UInt8 16} {unit : Source.CompilationUnit} {log log' : Log} {image : Image}
    (h : generate language options mvid unit log = .ok (some image, log'))
    (hshort : image.metadata.Short) :
    ∃ p declared last, (Program.declare language unit).run log = (p, declared) ∧
      (startReferences options.core).Grows last ∧
      (∀ owner, ∀ method ∈ (p.membersOf owner).methods, ∃ body before behind,
        image.bodies[method.row]? = some body ∧
        lowerMethod p options owner method before = .ok (body, behind) ∧
        before.references.Grows behind.references ∧ behind.references.Grows last) ∧
      (∀ (r : References) (e : Entity), r.Grows last → e.In p r →
        Denotes p options image (e.token r) e) ∧
      ∀ m : Module, image.LoadsInto m →
        (∀ use t, m.Uses use t → ∃ e : Entity, e.In p last ∧ e.Suits use ∧ t = e.token last) ∧
        ∀ listing site t, ofModule m listing ≠ .error (.unknownToken site t) := by
  obtain ⟨last, hwritten⟩ := written_of_generate Prod.mk.eta.symm h
  refine ⟨_, _, last, rfl, hwritten.start, fun owner method hmethod => ?_, fun r e hr he => ?_,
    fun m hm => ⟨fun use t huse => ?_, ofModule_ne_unknownToken (resolved_of_loadsInto hwritten hshort hm)⟩⟩
  · obtain ⟨body, hbody, ⟨before, behind, hlower, hgrows, hlast, -⟩, -⟩ := hwritten.method hmethod
    exact ⟨body, before, behind, hbody, hlower, hgrows, hlast⟩
  · rw [← Entity.token_of_grows hr he]
    exact denotes_of_in hwritten hshort (he.mono hr)
  · obtain ⟨e, he, ht, hsuits⟩ := names_of_uses hwritten hm huse
    exact ⟨e, he, hsuits, ht⟩

/-! ### A greeting -/

/-- The image with the bodies that can be decoded. -/
def decoded (image : Image) : Module where
  metadata := image.metadata
  bodies := image.bodies.map fun b =>
    (Instruction.decodeStream b.code).toOption.map fun is => ⟨0, UInt32.ofNat b.code.length, is⟩

theorem loadsInto_decoded (image : Image) : image.LoadsInto image.decoded where
  metadata := rfl
  body := by
    intro row body hbody
    rw [Module.body?, decoded, List.getElem?_map] at hbody
    cases hstored : image.bodies[row]? with
    | none =>
      rw [hstored] at hbody
      cases hbody
    | some stored =>
      rw [hstored, Option.map_some, Option.join_some] at hbody
      obtain ⟨is, his, rfl⟩ := Option.map_eq_some_iff.1 hbody
      refine ⟨stored, rfl, ?_⟩
      cases hdecode : Instruction.decodeStream stored.code with
      | error e =>
        rw [hdecode] at his
        cases his
      | ok is' =>
        rw [hdecode] at his
        cases his
        rfl

/-- Tests a greeting for emptiness. -/
def greetDecl : Source.MethodDecl where
  name := "Greet"
  ret := ⟨.void, {}⟩
  params := []
  access := none
  isStatic := true
  body := [.expr {} (.call {} (.member {} (.typeKeyword {} .string) "IsNullOrEmpty") [.str {} "hello"])]
  pos := {}
  endPos := {}

/-- A class with a field, the method and a nested class. -/
def greetUnit : Source.CompilationUnit where
  imports := []
  types := [⟨"", "P", .class_, none, [⟨"guests", ⟨.array .string, {}⟩, none, true, none, {}⟩], [greetDecl],
    [⟨"", "Q", .class_, none, [], [], [], {}⟩], {}⟩]

/-- The tables of the image are short, all its bodies decode, and no listing of it stops at an unknown
token. -/
theorem token_meanings_greeting : ∃ image log,
    generate .csharp escapeOptions (Vector.replicate 16 0) greetUnit (.forSnippet .csharp) =
      .ok (some image, log) ∧
    image.metadata.Short ∧ image.metadata.userStrings = ["hello"] ∧
    image.decoded.bodies.all (·.isSome) ∧
    ∀ listing site t, ofModule image.decoded listing ≠ .error (.unknownToken site t) := by
  have hgenerate : ((generate .csharp escapeOptions (Vector.replicate 16 0) greetUnit
      (.forSnippet .csharp)).toOption.bind (·.1)).any (fun image =>
        image.metadata.assemblyRefs.length < 2 ^ 24 - 1 ∧ image.metadata.typeRefs.length < 2 ^ 24 - 1 ∧
        image.metadata.memberRefs.length < 2 ^ 24 - 1 ∧
        image.metadata.userStrings.length < 2 ^ 24 - 1 ∧ image.metadata.types.length < 2 ^ 24 - 1 ∧
        image.metadata.fields.length < 2 ^ 24 - 1 ∧ image.metadata.methods.length < 2 ^ 24 - 1 ∧
        image.metadata.userStrings = ["hello"] ∧ image.decoded.bodies.all (·.isSome)) = true := by
    decide +kernel
  cases hok : generate .csharp escapeOptions (Vector.replicate 16 0) greetUnit
      (.forSnippet .csharp) with
  | error e =>
    rw [hok] at hgenerate
    cases hgenerate
  | ok result =>
    rw [hok] at hgenerate
    obtain ⟨_ | image, log⟩ := result
    · cases hgenerate
    · obtain ⟨hassemblies, htypeRefs, hmembers, hstrings, htypes, hfields, hmethods, htext, hall⟩ :=
        of_decide_eq_true hgenerate
      have hshort : image.metadata.Short :=
        ⟨hassemblies, htypeRefs, hmembers, hstrings, htypes, hfields, hmethods⟩
      obtain ⟨_, _, _, -, -, -, -, hlisted⟩ := token_meanings_of_generate hok hshort
      exact ⟨image, log, rfl, hshort, htext, hall, (hlisted _ (loadsInto_decoded image)).2⟩

end CilScope.Image
