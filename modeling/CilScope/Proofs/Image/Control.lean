import CilScope.Proofs.Draft.Alive
import CilScope.Proofs.Draft.Faithful
import CilScope.Proofs.Image.Bodies
import CilScope.Proofs.Lowering.Nesting

/-!
# Control stays where it belongs

Code is generated with a return or a leave only where the draft says that its end can be reached.
`Image.contained_of_generate` shows that this is enough: from the first instruction of a body control
comes to instructions of the body only, and never falls out of a protected region or a handler.
-/

namespace CilScope

/-! ## Paths of control -/

/-- The offset is in the protected range of the clause. -/
def Clause.Guards (c : Clause) (offset : UInt32) : Prop := c.tryOffset ≤ offset ∧ offset < c.tryEnd

/-- The offset is in the handler of the clause. -/
def Clause.Handles (c : Clause) (offset : UInt32) : Prop :=
  c.handlerOffset ≤ offset ∧ offset < c.handlerEnd

namespace Instruction

/-- The offsets that control can come to: it starts at the first one, falls through to the next
instruction, follows branches, and enters the handler of a protected range from anywhere in it. -/
inductive Reached (is : List Instruction) (clauses : List Clause) : UInt32 → Prop
  | start : Reached is clauses 0
  | falls {i : Instruction} (hi : i ∈ is) (h : Reached is clauses i.offset)
      (hfalls : i.opcode.fallsThrough) : Reached is clauses i.next
  | jumps {i : Instruction} {t : UInt32} (hi : i ∈ is) (h : Reached is clauses i.offset)
      (ht : i.target? = some t) : Reached is clauses t
  | handled {i : Instruction} {c : Clause} (hi : i ∈ is) (h : Reached is clauses i.offset)
      (hc : c ∈ clauses) (hguards : c.Guards i.offset) : Reached is clauses c.handlerOffset

/-- Control never runs off the code, and never falls out of a protected range or a handler. -/
structure Contained (is : List Instruction) (clauses : List Clause) : Prop where
  code : ∀ offset, Reached is clauses offset → ∃ i ∈ is, i.offset = offset
  region : ∀ i ∈ is, Reached is clauses i.offset → i.opcode.fallsThrough → ∀ c ∈ clauses,
    (c.Guards i.offset → c.Guards i.next) ∧ (c.Handles i.offset → c.Handles i.next)

end Instruction

namespace Draft

variable {d : Draft} {body : FinishedBody}

/-! ## The instructions of a body by their numbers -/

/-- `j` is how the instruction `i` with number `k` is laid out. -/
structure LaidAs (d : Draft) (k : Nat) (i : DraftInstruction) (j : Instruction) : Prop where
  offset : j.offset = UInt32.ofNat (place d.settled k)
  next : j.next = UInt32.ofNat (place d.settled (k + 1))
  opcode : j.opcode = i.opcode ∨ i.opcode.shortForm? = some j.opcode
  target : j.target? = (match i.operand with
    | .label l => d.target? l
    | _ => none).map fun k => UInt32.ofNat (place d.settled k)

theorem fallsThrough_shortForm? {op op' : Opcode} (h : op.shortForm? = some op') :
    op'.fallsThrough = op.fallsThrough := by
  cases op <;> cases h <;> rfl

theorem LaidAs.fallsThrough {k : Nat} {i : DraftInstruction} {j : Instruction}
    (h : LaidAs d k i j) : j.opcode.fallsThrough = i.opcode.fallsThrough :=
  h.opcode.elim (congrArg _) fallsThrough_shortForm?

theorem exists_laidAs (hfinish : d.finish = .ok body) {k : Nat} {i : DraftInstruction}
    (hi : d.code[k]? = some i) : ∃ j, d.instructions[k]? = some j ∧ LaidAs d k i j := by
  obtain ⟨hmap, hproper⟩ := settled_spec d
  rw [← Array.getElem?_toList, ← hmap, List.getElem?_map] at hi
  obtain ⟨s, hs, rfl⟩ := Option.map_eq_some_iff.1 hi
  have hmem := List.mem_of_getElem? hs
  refine ⟨_, by rw [getElem?_instructions, hs, Option.map_some], ?_⟩
  exact ⟨rfl, next_laid hs _, (s.opcode_eq (hproper s hmem)).symm.imp id And.right,
    target?_laid hfinish hmem _ _⟩

theorem laidAs_of_mem (hfinish : d.finish = .ok body) {j : Instruction} (hj : j ∈ d.instructions) :
    ∃ k i, d.code[k]? = some i ∧ d.instructions[k]? = some j ∧ LaidAs d k i j := by
  obtain ⟨k, hk⟩ := List.mem_iff_getElem?.1 hj
  have hlt : k < d.code.size := length_instructions d ▸ (List.getElem?_eq_some_iff.1 hk).1
  have hi : d.code[k]? = some d.code[k] := Array.getElem?_eq_getElem hlt
  obtain ⟨j', hj', hlaid⟩ := exists_laidAs hfinish hi
  rw [hk] at hj'
  cases hj'
  exact ⟨k, _, hi, hk, hlaid⟩

/-- The instruction at the offset of a place is the one with its number. -/
theorem laidAs_of_offset (hfinish : d.finish = .ok body) (hlen : body.code.length < 2 ^ 32)
    {j : Instruction} (hj : j ∈ d.instructions) {k : Nat} (hk : k < d.code.size)
    (h : j.offset = UInt32.ofNat (place d.settled k)) :
    ∃ i, d.code[k]? = some i ∧ d.instructions[k]? = some j ∧ LaidAs d k i j := by
  obtain ⟨k', i, hi, hj', hlaid⟩ := laidAs_of_mem hfinish hj
  have hk' : k' < d.code.size := (Array.getElem?_eq_some_iff.1 hi).1
  have heq := congrArg UInt32.toNat (hlaid.offset.symm.trans h)
  rw [toNat_place hfinish hlen, toNat_place hfinish hlen] at heq
  rw [← length_settled] at hk hk'
  obtain rfl : k' = k :=
    Nat.le_antisymm ((place_le_iff hk).1 heq.le) ((place_le_iff hk').1 heq.ge)
  exact ⟨i, hi, hj', hlaid⟩

theorem covers_of_mem (hfinish : d.finish = .ok body) (hlen : body.code.length < 2 ^ 32)
    (hd : Sound d) {clause : Clause} (h : clause ∈ body.clauses) :
    ∃ c ∈ d.clauses, Covers d.instructions body.code.length c clause := by
  rw [eq_bodyWith_of_finish hfinish] at h
  obtain ⟨c, hc, rfl⟩ := List.mem_map.1 h
  obtain ⟨htry, hhandler, hstop⟩ := hd.clauses c (Array.mem_toList_iff.1 hc)
  exact ⟨c, Array.mem_toList_iff.1 hc, covers_of_le hfinish hlen htry hhandler hstop⟩

/-! ## From drafts to bodies -/

section

variable {A : Nat → Prop}

/-- Control in the body comes to what is alive in the draft. -/
theorem alive_of_reached (hfinish : d.finish = .ok body) (hlen : body.code.length < 2 ^ 32)
    (hd : Sound d) (h : Alive A False d) (hzero : A 0) {offset : UInt32}
    (hreached : Instruction.Reached d.instructions body.clauses offset) :
    ∃ k, A k ∧ offset = UInt32.ofNat (place d.settled k) := by
  induction hreached with
  | start => exact ⟨0, hzero, rfl⟩
  | falls hj _ hfalls ih =>
    obtain ⟨k, hA, hoffset⟩ := ih
    obtain ⟨i, hi, -, hlaid⟩ := laidAs_of_offset hfinish hlen hj (h.lt k hA) hoffset
    rw [hlaid.fallsThrough] at hfalls
    exact ⟨k + 1, (h.falls k i hA hi hfalls).resolve_right And.right, hlaid.next⟩
  | jumps hj _ ht ih =>
    obtain ⟨k, hA, hoffset⟩ := ih
    obtain ⟨i, hi, -, hlaid⟩ := laidAs_of_offset hfinish hlen hj (h.lt k hA) hoffset
    rw [hlaid.target] at ht
    obtain ⟨k', htarget, rfl⟩ := Option.map_eq_some_iff.1 ht
    cases hl : i.operand with
    | label l =>
      rw [hl] at htarget
      exact ⟨k', (h.jumps k i l k' hA hi hl htarget).resolve_right And.right, rfl⟩
    | none | int | var | token =>
      rw [hl] at htarget
      cases htarget
  | handled hj _ hc hguards ih =>
    obtain ⟨k, hA, hoffset⟩ := ih
    obtain ⟨-, -, hk, -⟩ := laidAs_of_offset hfinish hlen hj (h.lt k hA) hoffset
    obtain ⟨c, hc, hcovers⟩ := covers_of_mem hfinish hlen hd hc
    obtain ⟨hle, hlt⟩ := (hcovers.covered k _ hk).1.1 hguards
    refine ⟨c.handlerStart, h.handled c hc k hA hle hlt, ?_⟩
    obtain ⟨-, hhandler, hstop⟩ := hd.clauses c hc
    rw [hcovers.handlerOffset, startOf_instructions hfinish (Nat.le_trans hhandler hstop)]

end

/-- **Control stays in a body** whose draft is a block that does not come to its end. -/
theorem contained_of_block (hfinish : d.finish = .ok body) (hlen : body.code.length < 2 ^ 32)
    (hblock : Block .body {} d) (hend : d.unreachable = true) :
    Instruction.Contained d.instructions body.clauses := by
  obtain ⟨A, h, hzero⟩ := hblock.exists_alive hend
  have hd := hblock.sound .empty
  have hthere {k : Nat} (hA : A k) : ∃ j, d.instructions[k]? = some j ∧
      j.offset = UInt32.ofNat (place d.settled k) := by
    obtain ⟨j, hj, hlaid⟩ := exists_laidAs hfinish (Array.getElem?_eq_getElem (h.lt k hA))
    exact ⟨j, hj, hlaid.offset⟩
  refine ⟨fun offset hreached => ?_, fun j hj hreached hfalls c hc => ?_⟩
  · obtain ⟨k, hA, rfl⟩ := alive_of_reached hfinish hlen hd h hzero hreached
    obtain ⟨j, hj, hoffset⟩ := hthere hA
    exact ⟨j, List.mem_of_getElem? hj, hoffset⟩
  · obtain ⟨k, hA, hoffset⟩ := alive_of_reached hfinish hlen hd h hzero hreached
    obtain ⟨i, hi, hk, hlaid⟩ := laidAs_of_offset hfinish hlen hj (h.lt k hA) hoffset
    rw [hlaid.fallsThrough] at hfalls
    obtain ⟨j', hk', hoffset'⟩ := hthere ((h.falls k i hA hi hfalls).resolve_right And.right)
    obtain ⟨c, hc, hcovers⟩ := covers_of_mem hfinish hlen hd hc
    -- the next instruction is in the range too, since it is not the one behind the range
    obtain ⟨hstart, hstop⟩ := h.confined c hc k i hA hi hfalls
    rw [hlaid.next, ← hoffset']
    obtain ⟨hguards, hhandles⟩ := hcovers.covered k j hk
    obtain ⟨hguards', hhandles'⟩ := hcovers.covered (k + 1) j' hk'
    exact ⟨fun hin => hguards'.2 (by have := hguards.1 hin; omega),
      fun hin => hhandles'.2 (by have := hhandles.1 hin; omega)⟩

end Draft

namespace Lowering

variable {program : Program} {options : CodeOptions} {owner : Nat} {method : Method}
  {shared shared' : Shared} {body : FinishedBody}

/-- The draft of a method that is lowered. -/
theorem exists_draft_of_lowerMethod
    (h : lowerMethod program options owner method shared = .ok (body, shared')) :
    ∃ d : Draft, d.finish = .ok body ∧ (∀ i ∈ d.code.toList, i.Shaped) ∧ Draft.Block .body {} d ∧
      d.unreachable = true := by
  obtain ⟨-, s, hs, hfinish, -⟩ := lowerMethod_eq_ok h
  obtain ⟨hblock, hend⟩ := block_methodBody (c := methodContext program options owner method)
    (s := shared.start) rfl rfl rfl
  have hframe := (framed_methodBody (typing_any program) _ shared.start
    (sees_any (methodContext program options owner method) _) (Nat.zero_le _)).1
  rw [hs] at hblock hend hframe
  have hfault := (Draft.finish_eq_ok hfinish).1
  exact ⟨s.draft, hfinish, hframe.draft.shaped hfault fun i hi => absurd hi List.not_mem_nil, hblock,
    hend⟩

theorem exists_lowerMethod_of_mem_lowerMethods {methods : List Method} {bodies : List FinishedBody}
    (h : lowerMethods program options owner methods shared = .ok (bodies, shared'))
    (hbody : body ∈ bodies) :
    ∃ method before behind, lowerMethod program options owner method before = .ok (body, behind) := by
  induction methods generalizing shared bodies with
  | nil =>
    cases h
    cases hbody
  | cons m rest ih =>
    obtain ⟨⟨first, behind⟩, hfirst, h⟩ := bind_eq_ok h
    obtain ⟨⟨others, last⟩, hothers, h⟩ := bind_eq_ok h
    cases h
    rcases List.mem_cons.1 hbody with rfl | hbody
    · exact ⟨m, shared, behind, hfirst⟩
    · exact ih hothers hbody

theorem exists_lowerMethod_of_mem_lowerTypes {types : List Members} {row : Nat}
    {bodies : List (List FinishedBody)}
    (h : lowerTypes program options row types shared = .ok (bodies, shared'))
    (hbody : body ∈ bodies.flatten) :
    ∃ owner method before behind,
      lowerMethod program options owner method before = .ok (body, behind) := by
  induction types generalizing row shared bodies with
  | nil =>
    cases h
    cases hbody
  | cons members rest ih =>
    obtain ⟨⟨own, behind⟩, hown, h⟩ := bind_eq_ok h
    obtain ⟨⟨others, last⟩, hothers, h⟩ := bind_eq_ok h
    cases h
    rw [List.flatten_cons, List.mem_append] at hbody
    rcases hbody with hbody | hbody
    · exact ⟨row, exists_lowerMethod_of_mem_lowerMethods hown hbody⟩
    · exact ih hothers hbody

end Lowering

namespace Image

open Lowering

/-- Every body of an image is that of a draft. -/
theorem exists_draft_of_generate {language : Language} {options : CodeOptions}
    {mvid : Vector UInt8 16} {unit : Source.CompilationUnit} {log log' : Log} {image : Image}
    {body : FinishedBody} (h : generate language options mvid unit log = .ok (some image, log'))
    (hbody : body ∈ image.bodies) :
    ∃ d : Draft, d.finish = .ok body ∧ (∀ i ∈ d.code.toList, i.Shaped) ∧ Draft.Block .body {} d ∧
      d.unreachable = true := by
  obtain ⟨⟨bodies, shared⟩, hbodies, h⟩ := bind_eq_ok h
  dsimp only at h
  split at h
  · cases h
  cases h
  obtain ⟨owner, method, before, behind, hlower⟩ :=
    exists_lowerMethod_of_mem_lowerTypes hbodies hbody
  exact exists_draft_of_lowerMethod hlower

/-- **Control never runs off a body or out of a region.** Every body of a program that is accepted
decodes unless a branch is too long to be written, and control from its first offset on comes to its
instructions only, and never falls out of a protected range or a handler. -/
theorem contained_of_generate {language : Language} {options : CodeOptions}
    {mvid : Vector UInt8 16} {unit : Source.CompilationUnit} {log log' : Log} {image : Image}
    (h : generate language options mvid unit log = .ok (some image, log')) {body : FinishedBody}
    (hbody : body ∈ image.bodies) :
    (body.code.length < 2 ^ 31 → ∃ is, Instruction.decodeStream body.code = .ok is) ∧
      (body.code.length < 2 ^ 32 → ∀ is, Instruction.decodeStream body.code = .ok is →
        Instruction.Contained is body.clauses) := by
  obtain ⟨d, hfinish, hshaped, hblock, hend⟩ := exists_draft_of_generate h hbody
  refine ⟨fun hlen => ⟨_, Draft.decodeStream_of_finish hfinish hshaped hlen⟩, fun hlen is hdecode => ?_⟩
  obtain rfl := Draft.instructions_of_decodeStream hfinish hshaped hlen hdecode
  exact Draft.contained_of_block hfinish hlen hblock hend

/-! ### A loop that is left through a handler -/

/-- Breaks out of a loop from inside a protected region. -/
def escapeDecl : Source.MethodDecl where
  name := "Escape"
  ret := ⟨.void, {}⟩
  params := []
  access := none
  isStatic := true
  body := [.while_ {} .while_ (some (.bool {} true)) [.try_ {} [.break_ {} none] none (some [])] none]
  pos := {}
  endPos := {}

/-- A class with the method. -/
def escapeUnit : Source.CompilationUnit where
  imports := []
  types := [⟨"", "P", .class_, none, [], [escapeDecl], [], {}⟩]

/-- Optimized code. -/
def escapeOptions : CodeOptions where
  optimize := true
  debug := false
  inferLocals := true
  core := ⟨4, 0, 0, 0⟩
  basicRuntime := false

/-- The method has a protected region, which control does not fall out of. -/
theorem contained_escape : ∃ image log body is,
    generate .csharp escapeOptions (Vector.replicate 16 0) escapeUnit (.forSnippet .csharp) =
      .ok (some image, log) ∧
    body ∈ image.bodies ∧ body.clauses.length = 1 ∧ Instruction.decodeStream body.code = .ok is ∧
    Instruction.Contained is body.clauses := by
  have hgenerate : ((generate .csharp escapeOptions (Vector.replicate 16 0) escapeUnit
      (.forSnippet .csharp)).toOption.bind (·.1)).any (fun image =>
        (image.bodies[0]?).any fun body =>
          body.code.length < 2 ^ 31 ∧ body.clauses.length = 1) = true := by decide +kernel
  cases hok : generate .csharp escapeOptions (Vector.replicate 16 0) escapeUnit
      (.forSnippet .csharp) with
  | error e =>
    rw [hok] at hgenerate
    cases hgenerate
  | ok result =>
    rw [hok] at hgenerate
    obtain ⟨_ | image, log⟩ := result
    · cases hgenerate
    · replace hgenerate : (image.bodies[0]?).any (fun body =>
        body.code.length < 2 ^ 31 ∧ body.clauses.length = 1) = true := hgenerate
      obtain ⟨body, hbody, hshort⟩ := (Option.any_eq_true ..).1 hgenerate
      rw [decide_eq_true_eq] at hshort
      obtain ⟨hdecodes, hcontained⟩ := contained_of_generate hok (List.mem_of_getElem? hbody)
      obtain ⟨is, his⟩ := hdecodes hshort.1
      exact ⟨image, log, body, is, rfl, List.mem_of_getElem? hbody, hshort.2, his,
        hcontained (Nat.lt_trans hshort.1 (by decide)) is his⟩

end Image

end CilScope
