import CilScope.Proofs.Image.Regions
import CilScope.Proofs.Image.Tables
import CilScope.Proofs.Lowering.Finally

/-!
# Ways out of a handler that always runs

`Image.finallies_of_generate`: in the bodies of a program that is accepted, the handlers of the `finally`
blocks stand in the order in which the blocks end. Control goes out of one by an `endfinally` or by a throw,
and otherwise by a leave only, which is there only if the block returns or jumps to a loop around it. Such
blocks are accepted, so the last case happens.
-/

namespace CilScope

namespace Instruction

/-- Control goes out of the handler of the clause by an `endfinally`, a throw or a leave only. -/
structure Confined (is : List Instruction) (c : Clause) : Prop where
  falls : ∀ i ∈ is, c.Handles i.offset → i.opcode.fallsThrough → c.Handles i.next
  branch : ∀ i ∈ is, c.Handles i.offset → i.opcode ∉ [.leave, .leaveS] → ∀ t, i.target? = some t →
    c.Handles t
  stop : ∀ i ∈ is, c.Handles i.offset → i.opcode.fallsThrough = false →
    i.opcode ∈ [.endfinally, .throw, .rethrow] ∨ ∃ t, i.target? = some t

/-- No branch and no leave goes out of the handler of the clause. -/
def Sealed (is : List Instruction) (c : Clause) : Prop :=
  ∀ i ∈ is, c.Handles i.offset → ∀ t, i.target? = some t → c.Handles t

/-- The handler of the clause is that of a block that always runs. -/
def Serves (is : List Instruction) (c : Clause) (block : List Source.Stmt) : Prop :=
  Confined is c ∧ (Source.staysAll [] block → Sealed is c)

/-- A branch has a target. -/
theorem exists_target_of_fits {i : Instruction} (h : i.Fits ∨ i.IsLongBranch)
    (hkind : i.opcode.operandKind = .branch ∨ i.opcode.operandKind = .shortBranch) :
    ∃ t, i.target? = some t := by
  rcases h with h | ⟨-, t, ht⟩
  · cases ho : i.operand with
    | target t => exact ⟨t, by rw [target?, ho]⟩
    | none | int | var | token => rcases hkind with hkind | hkind <;> simp [Fits, hkind, ho] at h
  · exact ⟨t, by rw [target?, ht]⟩

end Instruction

/-- What control cannot go on from. -/
theorem Opcode.cases_of_not_fallsThrough {op : Opcode} (h : op.fallsThrough = false) :
    op = .ret ∨ op ∈ [.endfinally, .throw, .rethrow] ∨
      (op.operandKind = .branch ∨ op.operandKind = .shortBranch) := by
  revert h
  cases op <;> decide

namespace Draft

variable {d : Draft} {body : FinishedBody} {c : DraftClause} {clause : Clause}

/-- The handler of a clause that ends with an `endfinally`. -/
theorem confined_of_finishes (hfinish : d.finish = .ok body) (hlen : body.code.length < 2 ^ 32)
    (hshaped : ∀ i ∈ d.code.toList, i.Shaped)
    (hregular : Instruction.Regular d.instructions body.clauses) (hclause : clause ∈ body.clauses)
    (hcovers : Covers d.instructions body.code.length c clause) (h : Finishes d c) :
    Instruction.Confined d.instructions clause := by
  obtain ⟨last, hstop, -, hlast⟩ := h
  refine ⟨fun j hj hin hfalls => ?_, fun j hj hin hleave t ht => ?_, fun j hj hin hfalls => ?_⟩
  · obtain ⟨k, i, hi, hk, hlaid⟩ := laidAs_of_mem hfinish hj
    rw [hcovers.handles_iff hk] at hin
    rw [hlaid.fallsThrough] at hfalls
    -- the last instruction does not fall through, so there is another one behind this one
    have hne : k ≠ last := by
      rintro rfl
      rw [hlast] at hi
      cases hi
      cases hfalls
    have hlt : k + 1 < c.handlerStop := by
      have := hin.2
      omega
    have hsize := (Array.getElem?_eq_some_iff.1 hlast).1
    obtain ⟨j', hk', hlaid'⟩ := exists_laidAs hfinish
      (Array.getElem?_eq_getElem (show k + 1 < d.code.size by omega))
    rw [hlaid.next, ← hlaid'.offset, hcovers.handles_iff hk']
    exact ⟨Nat.le_succ_of_le hin.1, hlt⟩
  · exact (hregular.stays j hj hleave t ht clause hclause).2 hin
  · rcases Opcode.cases_of_not_fallsThrough hfalls with hret | hthrow | hbranch
    · exact absurd (.inr hin) (hregular.ret j hj hret clause hclause)
    · exact .inl hthrow
    · exact .inr (Instruction.exists_target_of_fits (fits_instructions hfinish hshaped hlen j hj).1 hbranch)

/-- The handler of a clause whose branches stay in it. -/
theorem sealed_of_shut (hfinish : d.finish = .ok body) (hd : Sound d) (hend : d.unreachable = true)
    (hcovers : Covers d.instructions body.code.length c clause) {m : Nat} (h : Shut m d c) :
    Instruction.Sealed d.instructions clause := by
  intro j hj hin offset ht
  obtain ⟨k, i, l, t, j', hi, hk, -, hl, htarget, hk', rfl⟩ := exists_target hfinish hd hend hj ht
  rw [hcovers.handles_iff hk] at hin
  rw [hcovers.handles_iff hk']
  obtain ⟨-, t', ht', hin'⟩ := h k i l hin hi hl
  rw [htarget] at ht'
  cases ht'
  exact hin'

/-- The handlers of a finished draft serve the blocks that they are sealed for. -/
theorem serves_of_seals (hfinish : d.finish = .ok body) (hlen : body.code.length < 2 ^ 32)
    (hshaped : ∀ i ∈ d.code.toList, i.Shaped) (hblock : Block .body {} d) (hend : d.unreachable = true)
    {blocks : List (List Source.Stmt)} (h : List.Forall₂ (Lowering.Seals 0 d)
      (d.clauses.toList.filter (·.kind = .finally_)) blocks) :
    List.Forall₂ (Instruction.Serves d.instructions) (body.clauses.filter (·.kind = .finally_)) blocks := by
  have hd := hblock.sound .empty
  have hregular := regular_of_block hfinish hlen hblock hend
  have hclauses : body.clauses = d.clauses.toList.map (Draft.clause (offsets d.settled)) := by
    rw [eq_bodyWith_of_finish hfinish]
    rfl
  have hall : ∀ c ∈ d.clauses.toList.filter (·.kind = .finally_), ∀ block, Lowering.Seals 0 d c block →
      Instruction.Serves d.instructions (Draft.clause (offsets d.settled) c) block := by
    intro c hc block hseals
    have hmem := List.mem_of_mem_filter hc
    obtain ⟨htry, hhandler, hstop⟩ := hd.clauses c (Array.mem_toList_iff.1 hmem)
    have hcovers := covers_of_le hfinish hlen htry hhandler hstop
    have hclause : Draft.clause (offsets d.settled) c ∈ body.clauses := by
      rw [hclauses]
      exact List.mem_map_of_mem hmem
    exact ⟨confined_of_finishes hfinish hlen hshaped hregular hclause hcovers hseals.finishes,
      fun hstays => sealed_of_shut hfinish hd hend hcovers (hseals.shut hstays)⟩
  rw [hclauses, List.filter_map, List.forall₂_map_left_iff]
  exact (List.forall₂_iff_get.2 ⟨h.length_eq, fun i hi hi' =>
    hall _ (List.get_mem ..) _ (h.get hi hi')⟩)

end Draft

namespace Lowering

variable {program : Program} {options : CodeOptions} {owner : Nat} {method : Method}
  {shared shared' : Shared} {body : FinishedBody}

/-- The handlers of a method that is lowered serve its blocks. -/
theorem serves_of_lowerMethod
    (h : lowerMethod program options owner method shared = .ok (body, shared')) :
    (body.code.length < 2 ^ 31 → ∃ is, Instruction.decodeStream body.code = .ok is) ∧
      (body.code.length < 2 ^ 32 → ∀ is, Instruction.decodeStream body.code = .ok is →
        List.Forall₂ (Instruction.Serves is) (body.clauses.filter (·.kind = .finally_))
          method.finallies) := by
  obtain ⟨-, s, rfl, hfinish, -⟩ := lowerMethod_eq_ok h
  let c := methodContext program options owner method
  obtain ⟨hblock, hend⟩ := block_methodBody (c := c) (s := shared.start) rfl rfl rfl
  have hseals := seals_methodBody (c := c) (s := shared.start) rfl rfl rfl
  have hframe := (framed_methodBody (typing_any program) c shared.start (sees_any c _) (Nat.zero_le _)).1
  have hshaped := hframe.draft.shaped (Draft.finish_eq_ok hfinish).1 fun i hi => absurd hi List.not_mem_nil
  refine ⟨fun hlen => ⟨_, Draft.decodeStream_of_finish hfinish hshaped hlen⟩, fun hlen is hdecode => ?_⟩
  obtain rfl := Draft.instructions_of_decodeStream hfinish hshaped hlen hdecode
  exact Draft.serves_of_seals hfinish hlen hshaped hblock hend hseals

end Lowering

namespace Image

/-- **Control goes out of a `finally` only by an `endfinally`, a throw, or a leave that its block asks for.**
The bodies of a program that is accepted are those of its methods. Each decodes unless a branch is too long
to be written, and then its handlers that always run are those of the blocks of its method: what is not a
leave stays in them, and if the block neither returns nor jumps to a loop around it, so do the leaves. -/
theorem finallies_of_generate {language : Language} {options : CodeOptions} {mvid : Vector UInt8 16}
    {unit : Source.CompilationUnit} {log log' declared : Log} {program : Program} {image : Image}
    (hprogram : (Program.declare language unit).run log = (program, declared))
    (h : generate language options mvid unit log = .ok (some image, log')) :
    List.Forall₂ (fun (_, method) body =>
        (body.code.length < 2 ^ 31 → ∃ is, Instruction.decodeStream body.code = .ok is) ∧
          (body.code.length < 2 ^ 32 → ∀ is, Instruction.decodeStream body.code = .ok is →
            List.Forall₂ (Instruction.Serves is) (body.clauses.filter (·.kind = .finally_))
              method.finallies))
      (Program.methodRows program.members.toList) image.bodies := by
  obtain ⟨last, hwritten⟩ := written_of_generate hprogram h
  refine hwritten.stands.imp fun (owner, method) body hstands => ?_
  obtain ⟨before, behind, hlower, -⟩ := hstands
  exact Lowering.serves_of_lowerMethod hlower

/-- The program with one method that breaks out of a protected region. -/
def escapeProgram : Program := ((Program.declare .csharp escapeUnit).run (.forSnippet .csharp)).1

/-- The break leaves the protected region, and nothing leaves the handler. -/
theorem finallies_escape : ∃ image log body is clause,
    generate .csharp escapeOptions (Vector.replicate 16 0) escapeUnit (.forSnippet .csharp) =
      .ok (some image, log) ∧
    image.bodies[0]? = some body ∧ Instruction.decodeStream body.code = .ok is ∧
    body.clauses.filter (·.kind = .finally_) = [clause] ∧
    Instruction.Confined is clause ∧ Instruction.Sealed is clause := by
  have hmethod : ((Program.methodRows escapeProgram.members.toList)[0]?).any (fun m =>
      m.2.finallies.map (Source.staysAll []) = [true]) = true := by decide +kernel
  have hgenerate : ((generate .csharp escapeOptions (Vector.replicate 16 0) escapeUnit
      (.forSnippet .csharp)).toOption.bind (·.1)).any (fun image =>
        (image.bodies[0]?).any fun body => decide (body.code.length < 2 ^ 31)) = true := by decide +kernel
  obtain ⟨⟨owner, method⟩, hrow, hstays⟩ := (Option.any_eq_true ..).1 hmethod
  rw [decide_eq_true_eq] at hstays
  obtain ⟨block, hblocks, hblock⟩ := List.map_eq_singleton_iff.1 hstays
  cases hok : generate .csharp escapeOptions (Vector.replicate 16 0) escapeUnit
      (.forSnippet .csharp) with
  | error e =>
    rw [hok] at hgenerate
    cases hgenerate
  | ok result =>
    rw [hok] at hgenerate
    obtain ⟨_ | image, log⟩ := result
    · cases hgenerate
    · obtain ⟨body, hbody, hshort⟩ := (Option.any_eq_true ..).1 (show (image.bodies[0]?).any
        (fun body => decide (body.code.length < 2 ^ 31)) = true from hgenerate)
      rw [decide_eq_true_eq] at hshort
      have hall := finallies_of_generate (show (Program.declare .csharp escapeUnit).run
        (.forSnippet .csharp) = (escapeProgram, _) from rfl) hok
      obtain ⟨hlt, hrow⟩ := List.getElem?_eq_some_iff.1 hrow
      obtain ⟨hlt', hbody'⟩ := List.getElem?_eq_some_iff.1 hbody
      have hserved := hall.get hlt hlt'
      rw [List.get_eq_getElem, List.get_eq_getElem, hrow, hbody'] at hserved
      obtain ⟨is, his⟩ := hserved.1 hshort
      have hserves := hserved.2 (Nat.lt_trans hshort (by decide)) is his
      rw [show method.finallies = [block] from hblocks] at hserves
      obtain ⟨clause, rest, hserves, hnil, hclauses⟩ := List.forall₂_cons_right_iff.1 hserves
      obtain rfl := List.forall₂_nil_right_iff.1 hnil
      exact ⟨image, log, body, is, clause, rfl, hbody, his, hclauses, hserves.1, hserves.2 hblock⟩

/-! ### A return from a handler -/

/-- Returns from inside a `finally` block. -/
def quitDecl : Source.MethodDecl :=
  { escapeDecl with name := "Quit", body := [.try_ {} [] none (some [.return_ {} none])] }

/-- A class with the method. -/
def quitUnit : Source.CompilationUnit where
  imports := []
  types := [⟨"", "P", .class_, none, [], [quitDecl], [], {}⟩]

/-- The method is accepted, and its handler is left for the end of the method. -/
theorem finally_left_by_return : ∃ image log body is clause i t,
    generate .csharp escapeOptions (Vector.replicate 16 0) quitUnit (.forSnippet .csharp) =
      .ok (some image, log) ∧
    image.bodies[0]? = some body ∧ Instruction.decodeStream body.code = .ok is ∧
    clause ∈ body.clauses ∧ clause.kind = .finally_ ∧ i ∈ is ∧ clause.Handles i.offset ∧
    i.opcode = .leaveS ∧ i.target? = some t ∧ ¬clause.Handles t := by
  have hgenerate : ((generate .csharp escapeOptions (Vector.replicate 16 0) quitUnit
      (.forSnippet .csharp)).toOption.bind (·.1)).any (fun image =>
        (image.bodies[0]?).any fun body => (Instruction.decodeStream body.code).toOption.any fun is =>
          body.clauses.any fun c => c.kind = .finally_ ∧ is.any fun i =>
            (c.handlerOffset ≤ i.offset ∧ i.offset < c.handlerEnd) ∧ i.opcode = .leaveS ∧
              i.target?.any fun t => ¬(c.handlerOffset ≤ t ∧ t < c.handlerEnd)) = true := by
    decide +kernel
  cases hok : generate .csharp escapeOptions (Vector.replicate 16 0) quitUnit
      (.forSnippet .csharp) with
  | error e =>
    rw [hok] at hgenerate
    cases hgenerate
  | ok result =>
    rw [hok] at hgenerate
    obtain ⟨_ | image, log⟩ := result
    · cases hgenerate
    · obtain ⟨body, hbody, hgenerate⟩ := (Option.any_eq_true ..).1 (show (image.bodies[0]?).any _ = true
        from hgenerate)
      obtain ⟨is, his, hgenerate⟩ := (Option.any_eq_true ..).1 hgenerate
      obtain ⟨clause, hclause, hgenerate⟩ := List.any_eq_true.1 hgenerate
      obtain ⟨hkind, hgenerate⟩ := of_decide_eq_true hgenerate
      obtain ⟨i, hi, hgenerate⟩ := List.any_eq_true.1 hgenerate
      obtain ⟨hin, hleave, hgenerate⟩ := of_decide_eq_true hgenerate
      obtain ⟨t, ht, hout⟩ := (Option.any_eq_true ..).1 hgenerate
      rw [decide_eq_true_eq] at hout
      refine ⟨image, log, body, is, clause, i, t, rfl, hbody, ?_, hclause, hkind, hi, hin, hleave, ht, hout⟩
      cases hdecode : Instruction.decodeStream body.code with
      | error e =>
        rw [hdecode] at his
        cases his
      | ok is' =>
        rw [hdecode] at his
        cases his
        rfl

end Image

end CilScope
