import CilScope.Pipeline
import CilScope.Proofs.Artifact.RoundTrip
import CilScope.Proofs.Compiler.Verdict
import CilScope.Proofs.Image.Lookup
import CilScope.Proofs.Image.Pairing
import CilScope.Proofs.Listing.Exact

/-!
# What is compiled can be shown

The artifact of a program that is accepted can always be loaded, and the module that comes back is always
listed, unless a protected region was left without instructions (`Image.listed_of_generate`). The clause of
such a region has an empty range, for which the listing is refused. It takes a region that the draft takes for
unreachable (`Draft.Block.size_lt`); a handler never is without instructions (`Draft.Block.handler_lt`).
-/

namespace CilScope

/-- The clause protects no instruction. -/
def Clause.Hollow (c : Clause) : Prop := c.tryLength = 0

instance (c : Clause) : Decidable c.Hollow := inferInstanceAs (Decidable (c.tryLength = 0))

/-! ## Handlers are not empty -/

namespace Draft

variable {x : Exits} {d d' : Draft}

/-- A block that starts where control can come, and ends where it cannot, has an instruction. -/
theorem Block.size_lt (h : Block x d d') (hstart : d.unreachable = false) (hend : d'.unreachable = true) :
    d.code.size < d'.code.size := by
  induction h with
  | rest h =>
    rw [h.unreachable, hstart] at hend
    cases hend
  | add h =>
    rw [h.code, Array.size_push]
    exact Nat.lt_succ_self _
  | @seq _ d d₁ d' h h' ih ih' =>
    cases hmid : d₁.unreachable with
    | false => exact Nat.lt_of_le_of_lt h.size_le (ih' hmid hend)
    | true => exact Nat.lt_of_lt_of_le (ih hstart hmid) h'.size_le
  | @forward _ _ d' l _ _ _ _ ih =>
    rw [code_mark]
    refine ih hstart (Bool.eq_true_of_not_eq_false fun hlive => ?_)
    rw [(unreachable_mark d').2 (.inl hlive)] at hend
    cases hend
  | @backward _ d _ l _ _ _ _ ih =>
    rw [← code_mark (l := l) d]
    exact ih ((unreachable_mark d).2 (.inl hstart)) hend
  | protect kind _ hout _ hstop ih ih' => exact Nat.lt_trans (ih hstart hout) (ih' rfl hstop)

/-- The handlers that a block adds have instructions. -/
theorem Block.handler_lt (h : Block x d d') :
    ∀ c ∈ d'.clauses, c ∈ d.clauses ∨ c.handlerStart < c.handlerStop := by
  induction h with
  | rest h => exact fun c hc => .inl (h.clauses ▸ hc)
  | add h => exact fun c hc => .inl (h.clauses ▸ hc)
  | seq _ _ ih ih' => exact fun c hc => (ih' c hc).elim (ih c) .inr
  | forward l _ _ _ _ ih => exact fun c hc => ih c (clauses_mark _ ▸ hc)
  | @backward _ d _ l _ _ _ _ ih => exact fun c hc => (ih c hc).imp (clauses_mark d ▸ ·) id
  | protect kind _ _ hhandler hstop ih ih' =>
    intro c hc
    rcases Array.mem_push.1 hc with hc | rfl
    · exact (ih' c hc).elim (ih c) .inr
    · exact .inr (hhandler.size_lt rfl hstop)

variable {body : FinishedBody}

theorem hollow_iff {c : Clause} (h : c.tryOffset ≤ c.tryEnd) :
    c.Hollow ↔ ¬c.tryOffset < c.tryEnd := by
  rw [UInt32.not_lt, Clause.Hollow]
  constructor
  · intro hzero
    rw [Clause.tryEnd, hzero, UInt32.add_zero]
    exact UInt32.le_refl _
  · intro hle
    have heq : c.tryOffset + c.tryLength = c.tryOffset + 0 := by
      rw [UInt32.add_zero]
      exact UInt32.le_antisymm hle h
    exact (UInt32.add_right_inj _).1 heq

/-- The boundaries of a draft are instructions or the end of the code. -/
theorem startOf_boundary (hfinish : d.finish = .ok body) (hne : d.instructions ≠ []) {k : Nat}
    (hk : k ≤ d.code.size) : startOf d.instructions body.code.length k = Flow.codeEnd d.instructions ∨
      startOf d.instructions body.code.length k ∈ d.instructions.map Instruction.offset := by
  have hlength := length_instructions d
  rcases Nat.lt_or_eq_of_le hk with hlt | rfl
  · rw [← hlength] at hlt
    refine .inr (List.mem_map.2 ⟨d.instructions[k], List.getElem_mem hlt, ?_⟩)
    rw [startOf, List.getElem?_eq_getElem hlt]
    rfl
  · left
    have hpos : 0 < d.code.size := hlength ▸ List.length_pos_of_ne_nil hne
    obtain ⟨j, hj, hlaid⟩ := exists_laidAs hfinish (Array.getElem?_eq_getElem (Nat.sub_one_lt_of_lt hpos))
    rw [startOf_instructions hfinish (Nat.le_refl _), Flow.codeEnd, List.getLast?_eq_getElem?, hlength, hj,
      Option.map_some, Option.getD_some, hlaid.next, Nat.sub_add_cancel hpos]

/-- **The graph of a finished body can be built exactly if no clause protects nothing.** -/
theorem exists_build_iff (hfinish : d.finish = .ok body) (hlen : body.code.length < 2 ^ 32)
    (hblock : Block .body {} d) (hend : d.unreachable = true) :
    ((∃ g, Flow.Graph.build d.instructions body.clauses = .ok g) ↔ ∀ c ∈ body.clauses, ¬c.Hollow) ∧
      ∀ e, Flow.Graph.build d.instructions body.clauses = .error e → e = .badClause .emptyRange := by
  have hasc := (ascending_instructions hfinish hlen).1
  have hd := hblock.sound .empty
  have hne : d.instructions ≠ [] := by
    refine List.ne_nil_of_length_pos ?_
    rw [length_instructions]
    exact Nat.zero_lt_of_lt (hblock.size_lt rfl hend)
  have hbranch : ∀ i ∈ d.instructions, ∀ t ∈ i.target?, t ∈ d.instructions.map Instruction.offset := by
    intro i hi t ht
    obtain ⟨j, hj, hoffset⟩ := (regular_of_block hfinish hlen hblock hend).target i hi t ht
    exact List.mem_map.2 ⟨j, hj, hoffset⟩
  have hboundary : ∀ c ∈ body.clauses, ∀ b ∈ c.boundaries,
      b = Flow.codeEnd d.instructions ∨ b ∈ d.instructions.map Instruction.offset := by
    intro c hc b hb
    obtain ⟨c', hc', hcovers⟩ := covers_of_mem hfinish hlen hd hc
    obtain ⟨htry, hhandler, hstop⟩ := hd.clauses c' hc'
    rw [Clause.boundaries, hcovers.tryOffset, hcovers.tryEnd, hcovers.handlerOffset, hcovers.handlerEnd] at hb
    simp only [List.mem_cons, List.not_mem_nil, or_false] at hb
    rcases hb with rfl | rfl | rfl | rfl <;> exact startOf_boundary hfinish hne (by omega)
  refine ⟨?_, fun e => Flow.Graph.eq_emptyRange_of_build hasc hbranch hboundary⟩
  rw [Flow.Graph.exists_build_iff hne hasc]
  have hranges : ∀ c ∈ body.clauses, c.tryOffset ≤ c.tryEnd ∧ c.handlerOffset < c.handlerEnd := by
    intro c hc
    obtain ⟨c', hc', hcovers⟩ := covers_of_mem hfinish hlen hd hc
    obtain ⟨htry, hhandler, hstop⟩ := hd.clauses c' hc'
    have hlt := (hblock.handler_lt c' hc').resolve_left (Array.not_mem_empty c')
    rw [hcovers.tryOffset, hcovers.tryEnd, hcovers.handlerOffset, hcovers.handlerEnd,
      startOf_instructions hfinish (by omega), startOf_instructions hfinish (by omega),
      startOf_instructions hfinish (by omega), UInt32.le_iff_toNat_le, UInt32.lt_iff_toNat_lt,
      toNat_place hfinish hlen, toNat_place hfinish hlen, toNat_place hfinish hlen]
    refine ⟨place_mono _ htry, Nat.lt_of_not_le fun hle => ?_⟩
    have := (place_le_iff (by rw [length_settled]; omega)).1 hle
    omega
  constructor
  · exact fun h c hc hhollow => (hollow_iff (hranges c hc).1).1 hhollow (h.nonempty c hc).1
  · refine fun h => ⟨hbranch, fun c hc => ⟨?_, (hranges c hc).2⟩, hboundary⟩
    exact Decidable.not_not.1 fun hnot => h c hc ((hollow_iff (hranges c hc).1).2 hnot)

end Draft

namespace Image

open Lowering Metadata

variable {p : Program} {options : CodeOptions} {mvid : Vector UInt8 16} {last : References} {image : Image}

theorem Written.length_types (h : Written p options mvid last image) :
    image.metadata.types.length = p.types.size := by
  obtain ⟨bodies, hone, -, r, -, rfl, hmetadata⟩ := h.bodies
  have hlength : (declarations p).length = p.types.size - 1 := by
    rw [declarations, List.length_tail, List.length_zip, Array.length_toList, Array.length_toList,
      h.declared.size, Nat.min_self]
  have hpos : 0 < p.types.size := by
    rw [← h.declared.size, ← Array.length_toList, members_eq_cons h.declared]
    exact Nat.succ_pos _
  rw [hmetadata, types_buildMetadata, List.length_cons, typeDefs, List.length_zipWith, ← hone.length_eq,
    Nat.min_self, hlength]
  omega

/-- The chain of enclosing types ends, since a type stands behind the one around it. -/
theorem Written.rooted (h : Written p options mvid last image) (henclosed : Program.Enclosed p.types) :
    ∀ i < image.metadata.types.length, Rooted image.metadata.types i := by
  intro i
  induction i using Nat.strong_induction_on with
  | _ i ih =>
    intro hi
    cases houter : outer? image.metadata.types i with
    | none => exact ⟨0, .root hi houter⟩
    | some o =>
      have hlt : o < i := by
        rcases Nat.eq_zero_or_pos i with rfl | hpos
        · obtain ⟨bodies, -, -, r, -, -, hmetadata⟩ := h.bodies
          rw [hmetadata, types_buildMetadata] at houter
          cases houter
        · obtain ⟨head, own, hhead, htype, -⟩ := h.type hpos (h.length_types ▸ hi)
          rw [outer?_eq htype] at houter
          exact (henclosed i head hhead o houter).2
      obtain ⟨k, hk⟩ := ih o hlt (Nat.lt_trans hlt hi)
      exact ⟨k + 1, .up houter hk⟩

theorem Written.base_ne (h : Written p options mvid last image) :
    ∀ t ∈ image.metadata.types, t.base ≠ some ⟨0⟩ := by
  intro t ht
  rcases h.typeDef ht with rfl | ⟨head, members, own, rfl, -⟩
  · nofun
  · intro hbase
    have htable := congrArg Token.table? (Option.some.inj hbase)
    rw [References.classToken, Token.table?_ofRow] at htable
    cases htable

theorem Written.length_methods (h : Written p options mvid last image) :
    image.metadata.methods.length = image.bodies.length := by
  rw [h.methods, List.length_zipWith, h.stands.length_eq, Nat.min_self]

/-! ## Loading and listing -/

/-- An image that can be stored: its rows have numbers, and its counts and addresses fit their fields. -/
structure Storable (image : Image) : Prop where
  short : image.metadata.Short
  bounded : Metadata.Bounded image.metadata
  code : image.codeSection.length < 2 ^ 31

theorem length_le_layBodies {name : String} {body : FinishedBody} {named : List (String × FinishedBody)}
    (h : (name, body) ∈ named) (offset : Nat) :
    body.code.length ≤ (Artifact.layBodies offset named).1.length := by
  induction named generalizing offset with
  | nil => cases h
  | cons first rest ih =>
    obtain ⟨name', body'⟩ := first
    rw [Artifact.layBodies]
    simp only [List.length_append]
    rcases List.mem_cons.1 h with heq | h
    · cases heq
      omega
    · have := ih h (offset + Artifact.padding offset + body'.code.length)
      omega

/-- A body is no longer than the code section. -/
theorem length_le_codeSection (hcount : image.metadata.methods.length = image.bodies.length)
    {body : FinishedBody} (h : body ∈ image.bodies) : body.code.length ≤ image.codeSection.length := by
  have hsnd : image.namedBodies.map Prod.snd = image.bodies := by
    rw [namedBodies_eq_zip, List.map_snd_zip]
    rw [Artifact.bodyNames, List.length_map, hcount]
  obtain ⟨⟨name, _⟩, hmem, rfl⟩ := List.mem_map.1 (hsnd ▸ h)
  exact length_le_layBodies hmem 0

/-- What is known of the graph of a body that stands in the row of a method. -/
theorem graph_of_row {language : Language} {unit : Source.CompilationUnit} {log log' : Log}
    (h : generate language options mvid unit log = .ok (some image, log'))
    (hwritten : Written p options mvid last image) (hsize : image.codeSection.length < 2 ^ 31) {m : Module}
    (hm : image.LoadsInto m) {row type : Nat} {method : MethodDef} {body : Body}
    (hrow : m.metadata.methods[row]? = some (type, method)) (hbody : m.body? row = some body) :
    ∃ stored, image.bodies[row]? = some stored ∧
      ((∃ g, Flow.Graph.build body.instructions method.clauses = .ok g) ↔
        ∀ c ∈ stored.clauses, ¬c.Hollow) ∧
      ∀ e, Flow.Graph.build body.instructions method.clauses = .error e → e = .badClause .emptyRange := by
  obtain ⟨stored, hstored, hdecode⟩ := hm.body row body hbody
  rw [hm.metadata, hwritten.methods, List.getElem?_zipWith_eq_some] at hrow
  obtain ⟨⟨i, x⟩, stored', -, hstored', hmethod⟩ := hrow
  rw [hstored] at hstored'
  cases hstored'
  cases hmethod
  have hmem := List.mem_of_getElem? hstored
  have hlen : stored.code.length < 2 ^ 32 := by
    have := length_le_codeSection hwritten.length_methods hmem
    omega
  obtain ⟨d, hfinish, hshaped, hblock, hend⟩ := exists_draft_of_generate h hmem
  rw [Draft.instructions_of_decodeStream hfinish hshaped hlen hdecode]
  exact ⟨stored, hstored, Draft.exists_build_iff hfinish hlen hblock hend⟩

/-- **An image that can be stored is loaded, and listed unless a clause protects nothing.** -/
theorem listed_of_generate {language : Language} {unit : Source.CompilationUnit} {log log' : Log}
    (h : generate language options mvid unit log = .ok (some image, log')) (hstorable : image.Storable) :
    ∃ artifact m, image.assemble = .ok artifact ∧ artifact.load = .ok m ∧ ∀ listing,
      ((∃ text, Listing.ofModule m listing = .ok text) ↔
        ∀ body ∈ image.bodies, ∀ c ∈ body.clauses, ¬c.Hollow) ∧
      ∀ e, Listing.ofModule m listing = .error e → ∃ method, e = .body method (.badClause .emptyRange) := by
  obtain ⟨last, hwritten⟩ := written_of_generate Prod.mk.eta.symm h
  have hrooted := hwritten.rooted (Program.enclosed_of_declare Prod.mk.eta.symm)
  have hcount := hwritten.length_methods
  have hdecode : ∀ b ∈ image.bodies, ∃ is, Instruction.decodeStream b.code = .ok is := fun b hb =>
    (regular_of_generate h hb).1 (Nat.lt_of_le_of_lt (length_le_codeSection hcount hb) hstorable.code)
  obtain ⟨artifact, m, hassemble, hload, hmetadata, hlength, hbodies⟩ := load_assemble hcount
    (badNesting?_eq_none_iff.2 hrooted) hwritten.base_ne hstorable.bounded hdecode hstorable.code
  have hinto : image.LoadsInto m := by
    refine ⟨hmetadata, fun row body hbody => ?_⟩
    have hlt : row < image.bodies.length := by
      have hrow := (List.getElem?_eq_some_iff.1 (Option.join_eq_some_iff.1 hbody)).1
      rwa [hlength, hcount] at hrow
    obtain ⟨body', hbody', hloads⟩ := hbodies row _ (List.getElem?_eq_getElem hlt)
    rw [hbody] at hbody'
    cases hbody'
    exact ⟨_, List.getElem?_eq_getElem hlt, hloads.instructions⟩
  rw [← hmetadata] at hrooted
  refine ⟨artifact, m, hassemble, hload, fun listing => ?_⟩
  obtain ⟨hlisted, herror⟩ := Listing.ofModule_exact (resolved_of_loadsInto hwritten hstorable.short hinto)
    hrooted listing
  refine ⟨hlisted.trans ⟨fun hgraphed stored hstored => ?_, fun hfull row type method body hrow hbody => ?_⟩,
    fun e he => ?_⟩
  · obtain ⟨row, hrow⟩ := List.mem_iff_getElem?.1 hstored
    obtain ⟨body, hbody, -⟩ := hbodies row stored hrow
    have hlt : row < m.metadata.methods.length := by
      rw [hmetadata, hcount]
      exact (List.getElem?_eq_some_iff.1 hrow).1
    have hdef := List.getElem?_eq_getElem hlt
    obtain ⟨stored', hstored', hiff, -⟩ := graph_of_row h hwritten hstorable.code hinto hdef hbody
    rw [hrow] at hstored'
    cases hstored'
    exact hiff.1 (hgraphed row _ _ body hdef hbody)
  · obtain ⟨stored, hstored, hiff, -⟩ := graph_of_row h hwritten hstorable.code hinto hrow hbody
    exact hiff.2 (hfull stored (List.mem_of_getElem? hstored))
  · obtain ⟨hrow, hbody, hgraph⟩ := herror e he
    obtain ⟨-, -, -, hempty⟩ := graph_of_row h hwritten hstorable.code hinto hrow hbody
    exact ⟨_, by rw [hempty _ hgraph]⟩

/-- A protected region without statements behind a return. -/
def deadDecl : Source.MethodDecl where
  name := "Dead"
  ret := ⟨.void, {}⟩
  params := []
  access := none
  isStatic := true
  body := [.return_ {} none, .try_ {} [] none (some [])]
  pos := {}
  endPos := {}

/-- A class with the method. -/
def deadUnit : Source.CompilationUnit where
  imports := []
  types := [⟨"", "P", .class_, none, [], [deadDecl], [], {}⟩]

/-- The clause of the region protects nothing, though the program is accepted. -/
theorem exists_hollow : ∃ image log,
    generate .csharp escapeOptions (Vector.replicate 16 0) deadUnit (.forSnippet .csharp) =
      .ok (some image, log) ∧ ∃ body ∈ image.bodies, ∃ c ∈ body.clauses, c.Hollow := by
  have hgenerate : ((generate .csharp escapeOptions (Vector.replicate 16 0) deadUnit
      (.forSnippet .csharp)).toOption.bind (·.1)).any (fun image =>
        decide (∃ body ∈ image.bodies, ∃ c ∈ body.clauses, c.Hollow)) = true := by decide +kernel
  cases hok : generate .csharp escapeOptions (Vector.replicate 16 0) deadUnit (.forSnippet .csharp) with
  | error e =>
    rw [hok] at hgenerate
    cases hgenerate
  | ok result =>
    rw [hok] at hgenerate
    obtain ⟨_ | image, log⟩ := result
    · cases hgenerate
    · exact ⟨image, log, rfl, of_decide_eq_true hgenerate⟩

end Image

end CilScope
