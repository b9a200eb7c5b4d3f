import CilScope.Proofs.Lowering.Settled
import CilScope.Proofs.References

/-!
# Probing leaves no traces

To probe an expression is to compile it aside. The draft and the log are put back by `probe` itself; what
is left to show is that compiling an expression declares no local, assigns none and opens no common exit.
`Glance` says what it may do instead, `Walk.glances` that every walk with no more freedom than to read
does nothing else, and `probe_evaluate_frame` is the whole frame of a probe, with its answer.
-/

namespace CilScope.Lowering

open Source (Expr)

/-! ## Notes that locals are read -/

/-- The scopes with the note that the locals in some slots are read. -/
def noteRead (slots : List UInt16) (scopes : List (List Local)) : List (List Local) :=
  scopes.map (·.map fun l => if l.slot ∈ slots then { l with read := true } else l)

@[simp] theorem noteRead_nil (scopes : List (List Local)) : noteRead [] scopes = scopes := by
  simp [noteRead]

theorem noteRead_append (slots slots' : List UInt16) (scopes : List (List Local)) :
    noteRead (slots ++ slots') scopes = noteRead slots' (noteRead slots scopes) := by
  have hlocal (l : Local) : (if l.slot ∈ slots ++ slots' then { l with read := true } else l) =
      (fun l : Local => if l.slot ∈ slots' then { l with read := true } else l)
        (if l.slot ∈ slots then { l with read := true } else l) := by
    by_cases h : l.slot ∈ slots <;> by_cases h' : l.slot ∈ slots' <;> simp [h, h']
  simp only [noteRead, List.map_map, Function.comp_def, hlocal]

/-! ## Steps that only look -/

/-- From `s` to `s'` some locals are noted as read and something more is referred to. The draft and the
log are left to who takes the step. -/
structure Glance (s s' : State) : Prop where
  scopes : ∃ slots, s'.scopes = noteRead slots s.scopes
  references : s.references.Grows s'.references
  exit : s'.exit = s.exit

namespace Glance

variable {s s' s'' : State}

theorem of_eq (hscopes : s'.scopes = s.scopes) (hreferences : s'.references = s.references)
    (hexit : s'.exit = s.exit) : Glance s s' :=
  ⟨⟨[], by rw [hscopes, noteRead_nil]⟩, hreferences ▸ .refl _, hexit⟩

theorem refl (s : State) : Glance s s := of_eq rfl rfl rfl

theorem refer {references : References} {draft : Draft} (h : s.references.Grows references) :
    Glance s { s with references, draft } :=
  ⟨⟨[], (noteRead_nil _).symm⟩, h, rfl⟩

theorem trans (h : Glance s s') (h' : Glance s' s'') : Glance s s'' := by
  obtain ⟨slots, hscopes⟩ := h.scopes
  obtain ⟨slots', hscopes'⟩ := h'.scopes
  exact ⟨⟨slots ++ slots', by rw [hscopes', hscopes, noteRead_append]⟩,
    h.references.trans h'.references, h'.exit.trans h.exit⟩

end Glance

/-- The step takes no more than a glance, and its result has `Q`. -/
def Glances (p : Program) {α : Type} (g : Gen α) (Q : α → Prop) : Prop :=
  ∀ c s, c.program = p → Glance s (g c s).2 ∧ Q (g c s).1

namespace Glances

variable {p : Program} {α β : Type}

theorem bind {g : Gen α} {k : α → Gen β} {Q : α → Prop} {R : β → Prop} (hg : Glances p g Q)
    (hk : ∀ a, Q a → Glances p (k a) R) : Glances p (g >>= k) R := by
  intro c s hp
  obtain ⟨hglance, hQ⟩ := hg c s hp
  obtain ⟨hglance', hR⟩ := hk _ hQ c (g c s).2 hp
  exact ⟨hglance.trans hglance', hR⟩

theorem seq {g : Gen Unit} {k : Gen β} {R : β → Prop} (hg : Glances p g fun _ => True)
    (hk : Glances p k R) : Glances p (g >>= fun _ => k) R :=
  hg.bind fun _ _ => hk

theorem look {f : Context → State → α} {Q : α → Prop} (h : ∀ c s, c.program = p → Q (f c s)) :
    Glances p (fun c s => (f c s, s)) Q :=
  fun c s hp => ⟨.refl s, h c s hp⟩

theorem pure {a : α} {Q : α → Prop} (h : Q a) : Glances p (Pure.pure a) Q := look fun _ _ _ => h

theorem edit (f : Draft → Draft) : Glances p (edit f) fun _ => True :=
  fun _ _ _ => ⟨.of_eq rfl rfl rfl, trivial⟩

theorem newLabel : Glances p newLabel fun _ => True := fun _ _ _ => ⟨.of_eq rfl rfl rfl, trivial⟩

theorem report (pos : Source.Position) (cause : Cause) :
    Glances p (report pos cause) fun _ => True := by
  intro c s _
  rw [report_apply]
  dsimp only
  split <;> exact ⟨.of_eq rfl rfl rfl, trivial⟩

theorem mention {g : Gen Unit} (h : Mention g) : Glances p g fun _ => True := by
  intro c s _
  cases h with
  | box k => exact ⟨.refer (s.references.grows_useClass k), trivial⟩
  | string text => exact ⟨.refer (s.references.grows_useString text), trivial⟩
  | @method op m => exact ⟨.refer (s.references.grows_useMethod m), trivial⟩

theorem markRead (slot : UInt16) {f : Local → Local} (h : ∀ l, f l = { l with read := true }) :
    Glances p (updateLocal slot f) fun _ => True := by
  refine fun c s _ => ⟨⟨⟨[slot], ?_⟩, .refl _, rfl⟩, trivial⟩
  show (s.scopes.map fun scope => scope.map fun l => if l.slot = slot then f l else l) = _
  simp only [h, noteRead, List.mem_singleton]

theorem coerce (source target : StaticType) (pos : Source.Position) :
    Glances p (coerce source target pos) fun _ => True := by
  have hname (t : StaticType) : Glances p (typeName t) fun _ => True :=
    look (f := fun c _ => c.program.typeName t) fun _ _ _ => trivial
  unfold Lowering.coerce box
  split
  · exact (hname _).bind fun _ _ => (hname _).bind fun _ _ => .report _ _
  · split
    · split
      · exact .mention (.box .int32)
      · split
        · exact .mention (.box .boolean)
        · exact .pure trivial
    · exact .pure trivial

theorem probe {g : Gen α} {Q : α → Prop} (hg : Glances p g Q) : Glances p (probe g) Q := by
  intro c s hp
  obtain ⟨hglance, hQ⟩ := hg { c with muted := true } { s with draft := {} } hp
  exact ⟨⟨hglance.scopes, hglance.references, hglance.exit⟩, hQ⟩

end Glances

/-- **Walks that may only read take no more than a glance.** -/
theorem Walk.glances {p : Program} {L : Exit → Prop} {b : Freedom} {α : Type} {g : Gen α} {Q : α → Prop}
    (h : Walk p (fun _ => True) L b g Q) (hb : b = .reads) : Glances p g Q := by
  induction h with
  | look f h => exact .look fun c s hp => h c s (hp ▸ sees_any c s)
  | bind _ _ ihg ihk => exact (ihg hb).bind fun a ha => ihk a ha hb
  | weaken _ h ih => exact fun c s hp => And.imp_right (h _) (ih hb c s hp)
  | report pos cause => exact .report pos cause
  | resolveType t =>
    intro c s _
    rw [resolveType_apply]
    dsimp only
    split <;> exact ⟨.of_eq rfl rfl rfl, trivial⟩
  | point pos => exact .edit _
  | emission => exact .edit _
  | mention h => exact .mention h
  | ret => exact .edit _
  | branch => exact .edit _
  | probe _ ih => exact (ih rfl).probe
  | updateLocal slot f _ hread => exact .markRead slot (hread hb)
  | shortCircuit isOr _ _ ihl ihr =>
    refine Glances.newLabel.bind fun shortcut _ => Glances.newLabel.bind fun stop _ => ?_
    refine (ihl (fun _ => True) shortcut isOr trivial hb).seq ?_
    refine (ihr (fun _ => True) hb).bind fun t _ => (Glances.coerce t .bool _).seq ?_
    exact (Glances.edit _).seq ((Glances.edit _).seq
      ((Glances.edit _).seq ((Glances.edit _).seq (.pure trivial))))
  | jumpOnBoth isOr w _ _ _ ihl ihr =>
    unfold Lowering.jumpOnBoth
    split
    · exact (ihl (fun _ => True) _ w trivial hb).seq (ihr (fun _ => True) _ w trivial hb)
    · refine Glances.newLabel.bind fun skip _ => (ihl (fun _ => True) skip _ trivial hb).seq ?_
      exact (ihr (fun _ => True) _ w trivial hb).seq (.edit _)
  | declareLocal | inScope | loopJump | leaveMethod | ifStatement | whileLoop | doLoop
  | tryStatement => cases hb

/-! ## Expressions -/

theorem glances_evaluate (p : Program) (e : Expr) : Glances p (evaluate e) fun _ => True :=
  ((walks_compile (typing_any p) e).value (L := fun _ => False)).glances rfl

/-- **A probe is seen by nobody, and it tells the truth.** Behind it the draft, the log and the common exit
are as before it, and so are the locals but for notes that they are read. What is referred to stays in its
places, with its rows. And the expression, compiled from there, has the type that the probe has found. -/
theorem probe_evaluate_frame (e : Expr) (c : Context) (s : State) :
    ∃ slots references,
      (probe (evaluate e) c s).2 = { s with scopes := noteRead slots s.scopes, references } ∧
      s.references.Grows references ∧ (s.references.Closed → s.references.RowsGrow references) ∧
      (evaluate e c (probe (evaluate e) c s).2).1 = (probe (evaluate e) c s).1 := by
  obtain ⟨⟨⟨slots, hscopes⟩, hgrows, hexit⟩, -⟩ := (glances_evaluate c.program e).probe c s rfl
  have hlog := log_probe_evaluate e c s
  have hview : (probe (evaluate e) c s).2.view = s.view := (settled_evaluate e).probe.view c s rfl
  refine ⟨slots, (probe (evaluate e) c s).2.references, ?_, hgrows, hgrows.rows, ?_⟩
  · have hdraft : (probe (evaluate e) c s).2.draft = s.draft := rfl
    cases hs : (probe (evaluate e) c s).2
    simp only [hs] at hscopes hexit hlog hdraft
    rw [hscopes, hexit, hlog, hdraft]
  · rw [probe_evaluate]
    exact (settled_evaluate e).same c c.muted s _ rfl hview

/-- Probing `n + "!"` refers to `string.Concat` and to the text, and leaves no other traces. -/
theorem probe_concatenation :
    let e : Expr := .binary {} .add (.name {} "n") (.str {} "!")
    let c : Context := { program := default, options := default, owner := 0, method := .cctor }
    let s : State :=
      { references := .start ⟨4, 0, 0, 0⟩
        log := default
        scopes := [[{ name := "n", slot := 0, type := .string, pos := {} }]] }
    s.references.Closed ∧ (probe (evaluate e) c s).1 = .string ∧ ∃ slots references,
      (probe (evaluate e) c s).2 = { s with scopes := noteRead slots s.scopes, references } ∧
      references.strings = ["!"] ∧ references.methods.length = 1 ∧ s.references.RowsGrow references ∧
      (evaluate e c (probe (evaluate e) c s).2).1 = .string := by
  intro e c s
  have hclosed : s.references.Closed := References.closed_start _
  have htype : (probe (evaluate e) c s).1 = .string := by decide
  obtain ⟨slots, references, heq, -, hrows, hagain⟩ := probe_evaluate_frame e c s
  have hreferences : (probe (evaluate e) c s).2.references = references := by rw [heq]
  refine ⟨hclosed, htype, slots, references, heq, ?_, ?_, hrows hclosed, hagain.trans htype⟩
  · rw [← hreferences]
    decide
  · rw [← hreferences]
    decide

end CilScope.Lowering
