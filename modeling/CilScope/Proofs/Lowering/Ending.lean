import CilScope.Proofs.Draft.Reached
import CilScope.Proofs.Lowering.Nesting

/-!
# Methods whose end can be reached

Behind the statements of a method with a value, the lowering reports a missing return if the draft says
that the next instruction can be reached. `log_declaredBody` says when that is: whenever control comes
to the end of the statements, and at most then if it comes to every branch in their code.
-/

namespace CilScope.Lowering

open Draft (Exits)

variable {p : Program} {T : StaticType → Prop} {L : Exit → Prop} {c : Context} {s : State}
  {decl : Source.MethodDecl}

/-- The statements of a declared method, without its end. -/
def opening (decl : Source.MethodDecl) : Gen Unit := do
  point decl.pos
  blockMark
  inScope (statements decl.body)

theorem mainPart_eq (decl : Source.MethodDecl) :
    mainPart decl = opening decl >>= fun _ => finalReturn decl := by
  simp only [mainPart, opening, bind_assoc]

theorem walk_opening (hT : Typing p T) (decl : Source.MethodDecl) :
    Walk p T L .declares (opening decl) fun _ => True :=
  (walk_point _).seq (walk_blockMark.seq (.inScope (walk_statements hT _ _)))

/-- The code of the statements is a block, and the common exit is not bound in it. -/
theorem block_opening (decl : Source.MethodDecl) (hloops : c.loops = []) (hdraft : s.draft = {})
    (hexit : s.exit = none) :
    ∃ x : Exits, Draft.Block x {} (opening decl c s).2.draft ∧
      ∀ l, x.Allows l → (opening decl c s).2.draft.target? l = none := by
  have hp : Permits c.program .body c s := by
    refine ⟨rfl, fun _ => trivial, by simp [hloops], by simp [hloops], by simp [hexit], ?_⟩
    rw [hdraft]
    exact .empty
  have hT := typing_any c.program
  have hwalk : Walk c.program _ (fun _ => False) .declares (opening decl) fun _ => True := walk_opening hT decl
  obtain ⟨hlays, -⟩ := hwalk.laid .body c s hp fun _ => False.elim
  refine ⟨_, hdraft ▸ hlays.block, fun l hl => ?_⟩
  rcases hl with hl | hl | ⟨slot, hl⟩
  · cases hl
  · cases hl
  · -- the common exit was opened on the way
    rcases hlays.shared l slot hl with ⟨hopen, -⟩ | ⟨-, hunbound⟩
    · rw [hexit] at hopen
      cases hopen
    · exact hunbound.2

/-! ## What is reported -/

theorem log_point (pos : Source.Position) : (point pos c s).2.log = s.log := by
  have happly : point pos c s =
      (if c.options.debug = true then edit (·.point pos) else pure () : Gen Unit) c s := rfl
  rw [happly]
  split <;> rfl

theorem log_loadDefault (t : StaticType) : (loadDefault t c s).2.log = s.log := by
  unfold loadDefault
  split <;> rfl

theorem log_commonExit : (commonExit c s).2.log = s.log := by
  have hget : (get : Gen State) c s = (s, s) := rfl
  rw [commonExit, apply_bind, hget]
  dsimp only
  cases s.exit with
  | none => rfl
  | some e =>
    obtain ⟨label, slot⟩ := e
    cases slot <;> rfl

/-- A missing return is reported where the draft can be reached. -/
theorem log_finalReturn (hret : c.method.ret ≠ .void) (hmuted : c.muted = false) :
    (finalReturn decl c s).2.log =
      if s.draft.isReachable then s.log.report decl.pos (.notAllPathsReturn c.method.name)
      else s.log := by
  have happly : finalReturn decl c s = (if s.draft.isReachable then (do
      point decl.endPos
      if c.method.ret = .void then blockMark
      else
        report decl.pos (.notAllPathsReturn c.method.name)
        loadDefault c.method.ret
      emit .ret) else pure () : Gen Unit) c s := rfl
  rw [happly]
  split
  · show (loadDefault c.method.ret c (report decl.pos (.notAllPathsReturn c.method.name) c
      (point decl.endPos c s).2).2).2.log = _
    rw [log_loadDefault, report_apply, hmuted, log_point]
    rfl
  · rfl

/-- **A missing return is reported if the end of the statements can be reached**, and only then if
control comes to every branch in their code. -/
theorem log_declaredBody (hloops : c.loops = []) (hdraft : s.draft = {}) (hexit : s.exit = none)
    (hret : c.method.ret ≠ .void) (hmuted : c.muted = false) {s₁ : State}
    (hs₁ : (opening decl c s).2 = s₁) :
    (s₁.draft.Reached s₁.draft.code.size → (declaredBody decl c s).2.log =
        s₁.log.report decl.pos (.notAllPathsReturn c.method.name)) ∧
      (s₁.draft.Lively → ¬s₁.draft.Reached s₁.draft.code.size →
        (declaredBody decl c s).2.log = s₁.log) := by
  subst hs₁
  obtain ⟨x, hblock, hfree⟩ := block_opening decl hloops hdraft hexit
  have hlog : (declaredBody decl c s).2.log =
      if (opening decl c s).2.draft.isReachable then
        (opening decl c s).2.log.report decl.pos (.notAllPathsReturn c.method.name)
      else (opening decl c s).2.log := by
    rw [declaredBody_eq, mainPart_eq, apply_bind, apply_bind, log_commonExit, log_finalReturn hret hmuted]
  rw [hlog]
  refine ⟨fun hend => ?_, fun hlive hend => ?_⟩
  · rw [if_pos (hblock.isReachable_of_reached hfree hend)]
  · rw [if_neg fun hreachable => hend (hblock.reached_of_isReachable hlive hreachable)]

end CilScope.Lowering
