import CilScope.Proofs.Image.Pairing
import CilScope.Proofs.Listing.Jumps

/-!
# The words of jumps in compiled bodies

The structured listing of every body of a program that is accepted has words that are true of the while
blocks around them (`worded_of_generate`). A jump out of two loops at once is shown by what it does to the
outer one, also where the inner one stands around it (`continue_of_outer`).
-/

namespace CilScope.Image

/-- **`continue` and `break` are true of every compiled body.** In the structured listing of a body of a
program that is accepted, a branch shown as `continue` goes to the head of a while block around it, and one
shown as `break` goes to what follows one; the block is the innermost one that has the target at its head
or right behind it. -/
theorem worded_of_generate {language : Language} {options : CodeOptions} {mvid : Vector UInt8 16}
    {unit : Source.CompilationUnit} {log log' : Log} {image : Image}
    (h : generate language options mvid unit log = .ok (some image, log')) {body : FinishedBody}
    (hbody : body ∈ image.bodies) (hlen : body.code.length < 2 ^ 32) {b : Body}
    (hdecode : Instruction.decodeStream body.code = .ok b.instructions) {n : Listing.Names}
    {m : MethodDef} {s s' : Text.Sink} (hwrite : Listing.writeBody true n m b s = .ok ((), s')) :
    ∃ head, Listing.Worded n m b.instructions [] head 0 s' b.instructions.length := by
  obtain ⟨d, hfinish, hshaped, -, -⟩ := exists_draft_of_generate h hbody
  have hinstructions := Draft.instructions_of_decodeStream hfinish hshaped hlen hdecode
  obtain ⟨hasc, hend⟩ := Draft.ascending_instructions hfinish hlen
  rw [← hinstructions] at hasc hend
  exact Listing.writeBody_worded hasc hend hwrite

/-! ### A jump out of two loops -/

/-- Continues the outer one of two loops from inside the inner one. -/
def resumeDecl : Source.MethodDecl where
  name := "Resume"
  ret := ⟨.void, {}⟩
  params := []
  access := none
  isStatic := true
  body := [.while_ {} .do_ (some (.bool {} false)) [.while_ {} .while_ (some (.bool {} false))
    [.if_ {} (.bool {} true) [.continue_ {} (some .do_)] none] none] none]
  pos := {}
  endPos := {}

/-- A class with the method. -/
def resumeUnit : Source.CompilationUnit where
  imports := []
  types := [⟨"", "P", .class_, none, [], [resumeDecl], [], {}⟩]

/-- Code that is not optimized. -/
def resumeOptions : CodeOptions := { escapeOptions with optimize := false }

/-- The code of the method. -/
def resumeCode : List Instruction :=
  [⟨0, .nop, .none⟩, ⟨1, .ldcI40, .none⟩, ⟨2, .brfalseS, .target 19⟩, ⟨4, .nop, .none⟩,
    ⟨5, .ldcI40, .none⟩, ⟨6, .brfalseS, .target 17⟩, ⟨8, .nop, .none⟩, ⟨9, .ldcI41, .none⟩,
    ⟨10, .brfalseS, .target 15⟩, ⟨12, .nop, .none⟩, ⟨13, .brS, .target 1⟩, ⟨15, .brS, .target 5⟩,
    ⟨17, .brS, .target 1⟩, ⟨19, .nop, .none⟩, ⟨20, .ret, .none⟩]

/-- The method is accepted, its body has this code, and the body can be listed. -/
theorem exists_resume : ∃ image log body,
    generate .visualBasic resumeOptions (Vector.replicate 16 0) resumeUnit (.forSnippet .visualBasic) =
      .ok (some image, log) ∧
    body ∈ image.bodies ∧ body.code.length < 2 ^ 32 ∧ body.clauses = [] ∧
    Instruction.decodeStream body.code = .ok resumeCode ∧
    (Listing.writeBody false ⟨image.metadata, "P::Resume"⟩ default ⟨0, 0, resumeCode⟩ {}).isOk := by
  have hgenerate : ((generate .visualBasic resumeOptions (Vector.replicate 16 0) resumeUnit
      (.forSnippet .visualBasic)).toOption.bind (·.1)).any (fun image =>
        (image.bodies[0]?).any fun body => decide (body.code.length < 2 ^ 32 ∧ body.clauses = [] ∧
          (Instruction.decodeStream body.code).toOption = some resumeCode ∧
          (Listing.writeBody false ⟨image.metadata, "P::Resume"⟩ default ⟨0, 0, resumeCode⟩ {}).isOk)) =
        true := by
    decide +kernel
  cases hok : generate .visualBasic resumeOptions (Vector.replicate 16 0) resumeUnit
      (.forSnippet .visualBasic) with
  | error e =>
    rw [hok] at hgenerate
    cases hgenerate
  | ok result =>
    rw [hok] at hgenerate
    obtain ⟨_ | image, log⟩ := result
    · cases hgenerate
    · obtain ⟨body, hbody, hgenerate⟩ := (Option.any_eq_true ..).1 (show (image.bodies[0]?).any _ = true
        from hgenerate)
      obtain ⟨hlen, hclauses, hdecode, hflat⟩ := of_decide_eq_true hgenerate
      refine ⟨image, log, body, rfl, List.mem_of_getElem? hbody, hlen, hclauses, ?_, hflat⟩
      cases hstream : Instruction.decodeStream body.code with
      | error e =>
        rw [hstream] at hdecode
        cases hdecode
      | ok is =>
        rw [hstream] at hdecode
        exact congrArg Except.ok (Option.some.inj hdecode)

/-- The words are true of the while blocks around them. -/
theorem worded_resume : ∃ image log body s',
    generate .visualBasic resumeOptions (Vector.replicate 16 0) resumeUnit (.forSnippet .visualBasic) =
      .ok (some image, log) ∧
    body ∈ image.bodies ∧ body.code.length < 2 ^ 32 ∧
    Instruction.decodeStream body.code = .ok resumeCode ∧
    Listing.writeBody true ⟨image.metadata, "P::Resume"⟩ default ⟨0, 0, resumeCode⟩ {} = .ok ((), s') ∧
    ∃ head, Listing.Worded ⟨image.metadata, "P::Resume"⟩ default resumeCode [] head 0 s'
      resumeCode.length := by
  obtain ⟨image, log, body, hok, hbody, hlen, -, hdecode, hflat⟩ := exists_resume
  cases hwrite : Listing.writeBody false ⟨image.metadata, "P::Resume"⟩ default ⟨0, 0, resumeCode⟩ {} with
  | error e =>
    rw [hwrite] at hflat
    cases hflat
  | ok p =>
    obtain ⟨-, -, -, s', -, -, hstructured, -⟩ := Listing.writeBody_structured (b := ⟨0, 0, resumeCode⟩)
      (by decide) hwrite
    exact ⟨image, log, body, s', hok, hbody, hlen, hdecode, hstructured,
      worded_of_generate hok hbody hlen hdecode hstructured⟩

/-- The graph of the method. -/
def resumeGraph : Flow.Graph where
  offsets := .ofCode resumeCode.toArray
  blocks := #[⟨0, 1, [1], []⟩, ⟨1, 3, [2, 8], [0, 5, 7]⟩, ⟨3, 4, [3], [1]⟩, ⟨4, 6, [4, 7], [2, 6]⟩,
    ⟨6, 9, [5, 6], [3]⟩, ⟨9, 11, [1], [4]⟩, ⟨11, 12, [3], [4]⟩, ⟨12, 13, [1], [3]⟩, ⟨13, 15, [], [1]⟩]
  blockOf := #[0, 1, 1, 2, 3, 3, 4, 4, 4, 5, 5, 6, 7, 8, 8]

/-- The inner loop of the method: the instruction at index 10 is shown as `continue` inside it. -/
def innerLoop : List Listing.Item :=
  [.heading ⟨.loop, 4, 12⟩, .opening, .instruction 4 none, .instruction 5 (some .break_),
    .instruction 6 none, .instruction 7 none, .instruction 8 (some .endif),
    .heading ⟨.conditional 8 none, 9, 11⟩, .opening, .instruction 9 none,
    .instruction 10 (some .continue_), .closing (some (.conditional 8 none)),
    .instruction 11 (some .continue_), .closing (some .loop)]

/-- What is shown as `continue` inside the inner loop goes to the head of the outer one. -/
theorem continue_of_outer : ∃ image log body g,
    generate .visualBasic resumeOptions (Vector.replicate 16 0) resumeUnit (.forSnippet .visualBasic) =
      .ok (some image, log) ∧
    body ∈ image.bodies ∧ Instruction.decodeStream body.code = .ok resumeCode ∧
    Flow.Graph.build resumeCode body.clauses = .ok g ∧
    innerLoop <:+: Listing.outline resumeCode body.clauses g ∧
    ∃ target, resumeCode[10].target? = some target ∧ Flow.StandsAt resumeCode 1 target ∧
      ¬Flow.StandsAt resumeCode 4 target := by
  obtain ⟨image, log, body, hok, hbody, -, hclauses, hdecode, -⟩ := exists_resume
  have hbuild : Flow.Graph.build resumeCode [] = .ok resumeGraph := by cbv
  have hregions : Listing.regions resumeCode [] resumeGraph = [.mk ⟨.loop, 1, 13⟩
      [.mk ⟨.loop, 4, 12⟩ [.mk ⟨.conditional 8 none, 9, 11⟩ [] []] []] []] := by cbv
  refine ⟨image, log, body, resumeGraph, hok, hbody, hdecode, hclauses ▸ hbuild, ?_, 1, rfl, rfl, ?_⟩
  · rw [hclauses, Listing.outline, hregions]
    exact ⟨[.instruction 0 none, .heading ⟨.loop, 1, 13⟩, .opening, .instruction 1 none,
      .instruction 2 (some .break_), .instruction 3 none], [.instruction 12 (some .continue_),
      .closing (some .loop), .instruction 13 none, .instruction 14 none], by cbv⟩
  · unfold Flow.StandsAt
    decide

end CilScope.Image
