import CilScope.Proofs.Draft.Twin
import CilScope.Proofs.Lowering.Tokens
import CilScope.Proofs.Spelling.Program

/-!
# Two runs of lowering

Two runs of lowering the same method, where the second one varies the spelling and may leave out the debug
information, do the same things in the same order. `Paired` says so of two steps: from states that are
alike they come to states that are alike, and the labels they make on the way are new pairs. The steps of
expressions touch neither the loops around nor the common exit of returns, so nothing need be known of
these while an expression is probed; a flag says whether they are known.
-/

namespace CilScope

/-- The options of the second run. -/
def CodeOptions.vary (v : Variation) (options : CodeOptions) : CodeOptions :=
  { options with debug := options.debug && v.debug }

namespace Lowering

/-! ## States that are alike -/

/-- The local with its name respelled. -/
def Local.respell (f : String → String) (l : Local) : Local := { l with name := f l.name }

/-- Loops that are the same up to the pairing of labels. -/
structure LoopFrame.Twin (ρ : Pairing) (x x' : LoopFrame) : Prop where
  kind : x'.kind = x.kind
  exit : ρ x.exit x'.exit
  next : ρ x.next x'.next
  tryDepth : x'.tryDepth = x.tryDepth

/-- Contexts of the two runs. The loops are compared if `b`. -/
structure Context.Twin (v : Variation) (b : Bool) (ρ : Pairing) (c c' : Context) : Prop where
  program : c.program.Alike v.spell c'.program
  options : c'.options = c.options.vary v
  owner : c'.owner = c.owner
  method : c'.method = c.method.respell v.spell
  loops : b = true → List.Forall₂ (LoopFrame.Twin ρ) c.loops c'.loops
  tryDepth : c'.tryDepth = c.tryDepth
  catchDepth : c'.catchDepth = c.catchDepth
  muted : c'.muted = c.muted

/-- The common exit of returns in the two runs. -/
def ExitTwin (ρ : Pairing) : Option (Label × Option UInt16) → Option (Label × Option UInt16) → Prop :=
  Option.Rel fun e e' => ρ e.1 e'.1 ∧ e'.2 = e.2

/-- States of the two runs. The common exit of returns is compared if `b`. -/
structure State.Twin (v : Variation) (b : Bool) (ρ : Pairing) (s s' : State) : Prop where
  references : s'.references = s.references
  log : s.log.Alike v.spell s'.log
  draft : s.draft.Twin v ρ s'.draft
  scopes : s'.scopes = s.scopes.map (·.map (·.respell v.spell))
  exit : b = true → ExitTwin ρ s.exit s'.exit

section

variable {v : Variation} {b : Bool} {ρ ρ' : Pairing}

theorem Context.Twin.mono {c c' : Context} (h : c.Twin v b ρ c') (hρ : ρ ≤ ρ') : c.Twin v b ρ' c' :=
  { h with
    loops := fun hb => (h.loops hb).imp fun _ _ hx =>
      { hx with exit := hρ _ _ hx.exit, next := hρ _ _ hx.next } }

theorem ExitTwin.mono {e e' : Option (Label × Option UInt16)} (h : ExitTwin ρ e e') (hρ : ρ ≤ ρ') :
    ExitTwin ρ' e e' := by
  cases h with
  | some h => exact .some ⟨hρ _ _ h.1, h.2⟩
  | none => exact .none

end

/-! ## Steps that go together -/

/-- From states that are alike, with at least the labels of `ρ` paired, the two steps come to states that
are alike, with results that `R` relates. Where nothing is known of the common exit, it stays as it is. -/
def Paired (v : Variation) (b : Bool) (ρ : Pairing) {α α' : Type} (g : Gen α) (g' : Gen α')
    (R : Pairing → α → α' → Prop) : Prop :=
  ∀ ρ₁ c c' s s', ρ ≤ ρ₁ → Context.Twin v b ρ₁ c c' → State.Twin v b ρ₁ s s' →
    ∃ ρ₂, ρ₁ ≤ ρ₂ ∧ State.Twin v b ρ₂ (g c s).2 (g' c' s').2 ∧ R ρ₂ (g c s).1 (g' c' s').1 ∧
      (b = false → (g c s).2.exit = s.exit ∧ (g' c' s').2.exit = s'.exit)

/-- Steps that go together and have the same result. -/
abbrev Same (v : Variation) (b : Bool) (ρ : Pairing) {α : Type} (g g' : Gen α) : Prop :=
  Paired v b ρ g g' fun _ => Eq

namespace Paired

variable {v : Variation} {b : Bool} {ρ ρ' : Pairing} {α α' β β' : Type} {R : Pairing → α → α' → Prop}
  {S : Pairing → β → β' → Prop}

theorem mono {g : Gen α} {g' : Gen α'} (hg : Paired v b ρ g g' R) (hρ : ρ ≤ ρ') :
    Paired v b ρ' g g' R :=
  fun ρ₁ c c' s s' hρ₁ hc hs => hg ρ₁ c c' s s' (hρ.trans hρ₁) hc hs

theorem imp {g : Gen α} {g' : Gen α'} {R' : Pairing → α → α' → Prop} (hg : Paired v b ρ g g' R)
    (h : ∀ ρ' a a', ρ ≤ ρ' → R ρ' a a' → R' ρ' a a') : Paired v b ρ g g' R' := by
  intro ρ₁ c c' s s' hρ₁ hc hs
  obtain ⟨ρ₂, hρ₂, hs', hR, hexit⟩ := hg ρ₁ c c' s s' hρ₁ hc hs
  exact ⟨ρ₂, hρ₂, hs', h ρ₂ _ _ (hρ₁.trans hρ₂) hR, hexit⟩

/-- Looking around without changing anything. -/
theorem look {q : Context → State → α} {q' : Context → State → α'}
    (h : ∀ ρ₁ c c' s s', ρ ≤ ρ₁ → Context.Twin v b ρ₁ c c' → State.Twin v b ρ₁ s s' →
      R ρ₁ (q c s) (q' c' s')) :
    Paired v b ρ (fun c s => (q c s, s)) (fun c s => (q' c s, s)) R :=
  fun ρ₁ c c' s s' hρ₁ hc hs => ⟨ρ₁, le_rfl, hs, h ρ₁ c c' s s' hρ₁ hc hs, fun _ => ⟨rfl, rfl⟩⟩

theorem pure {a : α} {a' : α'} (h : ∀ ρ', ρ ≤ ρ' → R ρ' a a') :
    Paired v b ρ (Pure.pure a) (Pure.pure a') R :=
  look fun ρ₁ _ _ _ _ hρ₁ _ _ => h ρ₁ hρ₁

theorem done {a : α} : Same v b ρ (Pure.pure a) (Pure.pure a) := pure fun _ _ => rfl

theorem bind {g : Gen α} {g' : Gen α'} {k : α → Gen β} {k' : α' → Gen β'} (hg : Paired v b ρ g g' R)
    (hk : ∀ ρ' a a', ρ ≤ ρ' → R ρ' a a' → Paired v b ρ' (k a) (k' a') S) :
    Paired v b ρ (g >>= k) (g' >>= k') S := by
  intro ρ₁ c c' s s' hρ₁ hc hs
  obtain ⟨ρ₂, hρ₂, hs₂, hR, hexit⟩ := hg ρ₁ c c' s s' hρ₁ hc hs
  obtain ⟨ρ₃, hρ₃, hs₃, hS, hexit'⟩ :=
    hk ρ₂ _ _ (hρ₁.trans hρ₂) hR ρ₂ c c' _ _ le_rfl (hc.mono hρ₂) hs₂
  refine ⟨ρ₃, hρ₂.trans hρ₃, hs₃, hS, fun hb => ?_⟩
  exact ⟨(hexit' hb).1.trans (hexit hb).1, (hexit' hb).2.trans (hexit hb).2⟩

/-- The same result goes into both rests. -/
theorem same_bind {g g' : Gen α} {k : α → Gen β} {k' : α → Gen β'} (hg : Same v b ρ g g')
    (hk : ∀ ρ' a, ρ ≤ ρ' → Paired v b ρ' (k a) (k' a) S) : Paired v b ρ (g >>= k) (g' >>= k') S :=
  hg.bind fun ρ' a _ hρ' ha => ha ▸ hk ρ' a hρ'

theorem seq {g g' : Gen Unit} {k : Gen β} {k' : Gen β'} (hg : Same v b ρ g g')
    (hk : Paired v b ρ k k' S) : Paired v b ρ (g >>= fun _ => k) (g' >>= fun _ => k') S :=
  hg.same_bind fun _ _ hρ' => hk.mono hρ'

theorem discard {g : Gen α} {g' : Gen α'} (hg : Paired v b ρ g g' R) :
    Same v b ρ (discard g) (discard g') := by
  show Same v b ρ (g >>= fun _ => Pure.pure ()) (g' >>= fun _ => Pure.pure ())
  exact hg.bind fun _ _ _ _ _ => done

theorem ite {c c' : Prop} [Decidable c] [Decidable c'] (h : c' ↔ c) {g h₀ : Gen α} {g' h₀' : Gen α'}
    (hg : c → Paired v b ρ g g' R) (hh : ¬c → Paired v b ρ h₀ h₀' R) :
    Paired v b ρ (if c then g else h₀) (if c' then g' else h₀') R := by
  by_cases hc : c
  · rw [if_pos hc, if_pos (h.2 hc)]
    exact hg hc
  · rw [if_neg hc, if_neg fun hc' => hc (h.1 hc')]
    exact hh hc

/-- A look at the context. -/
theorem read_bind {k : Context → Gen β} {k' : Context → Gen β'}
    (hk : ∀ ρ' c c', ρ ≤ ρ' → Context.Twin v b ρ' c c' → Paired v b ρ' (k c) (k' c') S) :
    Paired v b ρ (read >>= k) (read >>= k') S :=
  bind (look (R := fun ρ' c c' => Context.Twin v b ρ' c c') fun _ _ _ _ _ _ hc _ => hc) hk

/-- A look at the state. -/
theorem get_bind {k : State → Gen β} {k' : State → Gen β'}
    (hk : ∀ ρ' s s', ρ ≤ ρ' → State.Twin v b ρ' s s' → Paired v b ρ' (k s) (k' s') S) :
    Paired v b ρ (get >>= k) (get >>= k') S :=
  bind (look (R := fun ρ' s s' => State.Twin v b ρ' s s') fun _ _ _ _ _ _ _ hs => hs) hk

theorem forM {xs xs' : List α} {Q : α → α → Prop} (hxs : List.Forall₂ Q xs xs') {k k' : α → Gen Unit}
    (h : ∀ x x', Q x x' → Same v b ρ (k x) (k' x')) : Same v b ρ (xs.forM k) (xs'.forM k') := by
  induction hxs with
  | nil => exact done
  | cons hx _ ih => exact (h _ _ hx).seq ih

theorem mapM {xs xs' : List α} {Q : α → α → Prop} (hxs : List.Forall₂ Q xs xs') {k k' : α → Gen β}
    (h : ∀ x x', Q x x' → Same v b ρ (k x) (k' x')) : Same v b ρ (xs.mapM k) (xs'.mapM k') := by
  induction hxs with
  | nil => exact done
  | cons hx _ ih =>
    rw [List.mapM_cons, List.mapM_cons]
    exact (h _ _ hx).same_bind fun _ _ hρ' => (ih.mono hρ').same_bind fun _ _ _ => done

/-- A loop over lists. -/
theorem forIn {xs xs' : List α} {Q : α → α → Prop} (hxs : List.Forall₂ Q xs xs')
    {k k' : α → PUnit → Gen (ForInStep PUnit)}
    (h : ∀ x x', Q x x' → Same v b ρ (k x ⟨⟩) (k' x' ⟨⟩)) :
    Same v b ρ (ForIn.forIn xs ⟨⟩ k) (ForIn.forIn xs' ⟨⟩ k') := by
  induction hxs with
  | nil => exact done
  | cons hx _ ih =>
    rw [List.forIn_cons, List.forIn_cons]
    refine (h _ _ hx).same_bind fun ρ' r hρ' => ?_
    cases r with
    | done => exact done
    | yield => exact ih.mono hρ'

/-- Steps inside other loops, regions and handlers. -/
theorem withReader {g : Gen α} {g' : Gen α'} {q q' : Context → Context}
    (hq : ∀ ρ' c c', ρ ≤ ρ' → Context.Twin v b ρ' c c' → Context.Twin v b ρ' (q c) (q' c'))
    (hg : Paired v b ρ g g' R) : Paired v b ρ (withReader q g) (withReader q' g') R :=
  fun ρ₁ c c' s s' hρ₁ hc hs => hg ρ₁ (q c) (q' c') s s' hρ₁ (hq ρ₁ c c' hρ₁ hc) hs

end Paired

variable {v : Variation} {b : Bool} {ρ : Pairing} {α α' : Type} {R : Pairing → α → α' → Prop}

/-! ## Diagnostics -/

/-- The language is the same, and it does not see the change of spelling. -/
theorem paired_language : Paired v b ρ language language
    fun _ language language' => language' = language ∧ Respelling language v.spell :=
  Paired.look fun _ _ _ _ _ _ hc _ => ⟨hc.program.language, hc.program.spelling⟩

theorem same_language : Same v b ρ language language :=
  paired_language.imp fun _ _ _ _ h => h.1.symm

theorem same_report (pos : Source.Position) {cause cause' : Cause}
    (h : cause'.respell v.spell = cause.respell v.spell) :
    Same v b ρ (report pos cause) (report pos cause') := by
  intro ρ₁ c c' s s' _ hc hs
  rw [report_apply, report_apply, hc.muted]
  cases c.muted with
  | true => exact ⟨ρ₁, le_rfl, hs, rfl, fun _ => ⟨rfl, rfl⟩⟩
  | false => exact ⟨ρ₁, le_rfl, { hs with log := hs.log.report pos h }, rfl, fun _ => ⟨rfl, rfl⟩⟩

/-- Reporting what the second run respells. -/
theorem same_report_respell (pos : Source.Position) (cause : Cause) :
    Same v b ρ (report pos cause) (report pos (cause.respell v.spell)) :=
  same_report pos (v.spelling.respell_cause cause)

theorem same_refuse (pos : Source.Position) {cause cause' : Cause}
    (h : cause'.respell v.spell = cause.respell v.spell) :
    Same v b ρ (refuse pos cause) (refuse pos cause') :=
  (same_report pos h).seq .done

theorem same_refuse_respell (pos : Source.Position) (cause : Cause) :
    Same v b ρ (refuse pos cause) (refuse pos (cause.respell v.spell)) :=
  same_refuse pos (v.spelling.respell_cause cause)

theorem paired_typeName (t : StaticType) :
    Paired v b ρ (typeName t) (typeName t) fun _ name name' => v.spell name' = v.spell name :=
  Paired.look fun _ _ _ _ _ _ hc _ => hc.program.typeName_congr t

/-! ## Code -/

theorem paired_make {q : Draft → Draft × α} {q' : Draft → Draft × α'}
    (h : ∀ ρ₁ d d', ρ ≤ ρ₁ → Draft.Twin v ρ₁ d d' →
      ∃ ρ₂, ρ₁ ≤ ρ₂ ∧ Draft.Twin v ρ₂ (q d).1 (q' d').1 ∧ R ρ₂ (q d).2 (q' d').2) :
    Paired v b ρ (make q) (make q') R := by
  intro ρ₁ c c' s s' hρ₁ _ hs
  obtain ⟨ρ₂, hρ₂, hd, hR⟩ := h ρ₁ s.draft s'.draft hρ₁ hs.draft
  exact ⟨ρ₂, hρ₂, { hs with draft := hd, exit := fun hb => (hs.exit hb).mono hρ₂ }, hR,
    fun _ => ⟨rfl, rfl⟩⟩

theorem same_edit {q q' : Draft → Draft}
    (h : ∀ ρ₁ d d', ρ ≤ ρ₁ → Draft.Twin v ρ₁ d d' → Draft.Twin v ρ₁ (q d) (q' d')) :
    Same v b ρ (edit q) (edit q') :=
  fun ρ₁ _ _ s s' hρ₁ _ hs => ⟨ρ₁, le_rfl, { hs with draft := h ρ₁ s.draft s'.draft hρ₁ hs.draft }, rfl,
    fun _ => ⟨rfl, rfl⟩⟩

/-- Appending an instruction without label. -/
theorem same_push {op : Opcode} {operand : DraftOperand} {q : Draft → Draft} (hq : Pushes op operand q)
    (hoperand : ∀ l, operand ≠ .label l) : Same v b ρ (edit q) (edit q) := by
  obtain ⟨fault, pops, pushes, hq⟩ := hq
  refine same_edit fun ρ₁ d d' _ hd => ?_
  rw [hq, hq]
  refine Draft.Twin.push ?_ op (.same hoperand) pops pushes
  exact { hd with fault := by rw [hd.fault] }

theorem same_emit (op : Opcode) : Same v b ρ (emit op) (emit op) :=
  same_push (pushes_push ..) fun _ => DraftOperand.noConfusion

theorem same_emitToken (op : Opcode) (t : Token) :
    Same v b ρ (edit (·.emitToken op t)) (edit (·.emitToken op t)) :=
  same_push (pushes_push ..) fun _ => DraftOperand.noConfusion

theorem same_emitCallToken (op : Opcode) (t : Token) (pops pushes : UInt32) :
    Same v b ρ (edit (·.emitCall op t pops pushes)) (edit (·.emitCall op t pops pushes)) :=
  same_push (pushes_push ..) fun _ => DraftOperand.noConfusion

theorem same_loadInt (n : Int32) : Same v b ρ (edit (·.loadInt n)) (edit (·.loadInt n)) := by
  obtain ⟨op, operand, hpushes, rfl | rfl⟩ := pushes_loadInt n <;>
    exact same_push hpushes fun _ => DraftOperand.noConfusion

theorem same_access (first : List Opcode) (short long : Opcode) (index : UInt16) (pops pushes : UInt32) :
    Same v b ρ (edit (·.access first short long index pops pushes))
      (edit (·.access first short long index pops pushes)) := by
  obtain ⟨op, operand, hpushes, rfl | rfl⟩ := pushes_access first short long index pops pushes <;>
    exact same_push hpushes fun _ => DraftOperand.noConfusion

theorem same_loadLocal (i : UInt16) : Same v b ρ (edit (·.loadLocal i)) (edit (·.loadLocal i)) :=
  same_access _ _ _ i _ _

theorem same_storeLocal (i : UInt16) : Same v b ρ (edit (·.storeLocal i)) (edit (·.storeLocal i)) :=
  same_access _ _ _ i _ _

theorem same_loadArg (i : UInt16) : Same v b ρ (edit (·.loadArg i)) (edit (·.loadArg i)) :=
  same_access _ _ _ i _ _

theorem same_storeArg (i : UInt16) : Same v b ρ (edit (·.storeArg i)) (edit (·.storeArg i)) :=
  same_push (pushes_storeArg i) fun _ => DraftOperand.noConfusion

theorem paired_newLabel : Paired v b ρ newLabel newLabel fun ρ' l l' => ρ' l l' :=
  paired_make fun ρ₁ _ _ _ hd => ⟨_, ρ₁.le_add _ _, hd.newLabel, .inr ⟨rfl, rfl⟩⟩

theorem same_mark {l l' : Label} (hl : ρ l l') : Same v b ρ (mark l) (mark l') :=
  same_edit fun _ _ _ hρ₁ hd => hd.mark (hρ₁ _ _ hl)

theorem same_branch (op : Opcode) {l l' : Label} (hl : ρ l l') :
    Same v b ρ (branch op l) (branch op l') :=
  same_edit fun _ _ _ hρ₁ hd => hd.branch op (hρ₁ _ _ hl)

theorem same_isReachable : Same v b ρ isReachable isReachable :=
  Paired.look fun _ _ _ _ _ _ _ hs => by rw [Draft.isReachable, Draft.isReachable, hs.draft.unreachable]

theorem same_beginTry : Same v b ρ (make Draft.beginTry) (make Draft.beginTry) :=
  paired_make fun ρ₁ _ _ _ hd => ⟨ρ₁, le_rfl, hd.anchor.1, hd.anchor.2.symm⟩

theorem same_beginHandler (tryStart : Nat) (kind : ClauseKind) :
    Same v b ρ (make (·.beginHandler tryStart kind)) (make (·.beginHandler tryStart kind)) :=
  paired_make fun ρ₁ _ _ _ hd =>
    ⟨ρ₁, le_rfl, (hd.beginHandler tryStart kind).1, (hd.beginHandler tryStart kind).2.symm⟩

theorem same_endHandler (handler : OpenHandler) :
    Same v b ρ (edit (·.endHandler handler)) (edit (·.endHandler handler)) :=
  same_edit fun _ _ _ _ hd => hd.endHandler handler

/-- A statement that only the first run may note. -/
theorem same_point (pos : Source.Position) : Same v b ρ (point pos) (point pos) := by
  refine Paired.read_bind fun ρ' c c' _ hc => ?_
  rw [show c'.options.debug = (c.options.debug && v.debug) by rw [hc.options, CodeOptions.vary]]
  cases c.options.debug with
  | false => exact .done
  | true =>
    cases hv : v.debug with
    | true => exact same_edit fun _ _ _ _ hd => hd.point hv pos
    | false =>
      exact fun ρ₁ _ _ s s' _ _ hs => ⟨ρ₁, le_rfl, { hs with draft := hs.draft.point_left hv pos }, rfl,
        fun _ => ⟨rfl, rfl⟩⟩

theorem same_blockMark : Same v b ρ blockMark blockMark := by
  refine Paired.read_bind fun ρ' c c' _ hc => ?_
  rw [show c'.options.optimize = c.options.optimize by rw [hc.options, CodeOptions.vary]]
  cases c.options.optimize with
  | true => exact .done
  | false => exact same_emit .nop

theorem same_loadDefault (t : StaticType) : Same v b ρ (loadDefault t) (loadDefault t) :=
  .ite Iff.rfl (fun _ => same_loadInt 0) fun _ => same_emit .ldnull

/-! ## References -/

/-- Referring to something of the framework. -/
theorem same_refer {u : References → References} {q : References → α} :
    Same v b ρ (fun _ s => (q (u s.references), { s with references := u s.references }))
      (fun _ s => (q (u s.references), { s with references := u s.references })) :=
  fun ρ₁ _ _ _ _ _ _ hs => ⟨ρ₁, le_rfl, { hs with references := congrArg u hs.references },
    congrArg (fun r => q (u r)) hs.references.symm, fun _ => ⟨rfl, rfl⟩⟩

theorem same_classToken (k : Library.Class) : Same v b ρ (classToken k) (classToken k) :=
  same_refer (u := (·.useClass k)) (q := (·.classToken k))

theorem same_methodToken (m : Library.Method) : Same v b ρ (methodToken m) (methodToken m) :=
  same_refer (u := (·.useMethod m)) (q := (·.methodToken m))

theorem same_stringToken (text : String) : Same v b ρ (stringToken text) (stringToken text) :=
  same_refer (u := (·.useString text)) (q := (·.stringToken text))

theorem same_typeSig (t : StaticType) : Same v b ρ (typeSig t) (typeSig t) :=
  same_refer (u := (·.useType t)) (q := (·.typeSig t))

theorem same_resolveType (t : Source.TypeUse) :
    Same v b ρ (resolveType t) (resolveType (t.respell v.spell)) := by
  intro ρ₁ c c' s s' _ hc hs
  obtain ⟨htype, hlog⟩ :=
    Program.alongside_resolve hc.program.toAlike c.owner t.pos t.name s.log s'.log hs.log
  rw [resolveType_apply, resolveType_apply, hc.muted, hc.owner]
  cases c.muted with
  | true => exact ⟨ρ₁, le_rfl, hs, htype, fun _ => ⟨rfl, rfl⟩⟩
  | false => exact ⟨ρ₁, le_rfl, { hs with log := hlog }, htype, fun _ => ⟨rfl, rfl⟩⟩

/-! ## Probing -/

/-- What is probed knows nothing of the loops and the exit around it. -/
theorem paired_probe {g : Gen α} {g' : Gen α'} {Q : α → α' → Prop}
    (hg : Paired v false (fun _ _ => False) g g' fun _ => Q) :
    Paired v b ρ (probe g) (probe g') fun _ => Q := by
  intro ρ₁ c c' s s' _ hc hs
  obtain ⟨ρ₂, -, hs₂, hQ, hexit⟩ := hg _ { c with muted := true } { c' with muted := true }
    { s with draft := {} } { s' with draft := {} } le_rfl
    { hc with loops := nofun, muted := rfl } { hs with draft := .empty v, exit := nofun }
  obtain ⟨hexit, hexit'⟩ := hexit rfl
  refine ⟨ρ₁, le_rfl, ⟨hs₂.references, hs₂.log, hs.draft, hs₂.scopes, fun hb => ?_⟩, hQ,
    fun _ => ⟨hexit, hexit'⟩⟩
  show ExitTwin ρ₁ (g _ _).2.exit (g' _ _).2.exit
  rw [hexit, hexit']
  exact hs.exit hb

/-! ## Locals -/

theorem findLocal?_respell {language : Language} {f : String → String} (h : Respelling language f)
    (scopes : List (List Local)) (name : String) :
    findLocal? language (scopes.map (·.map (·.respell f))) (f name) =
      (findLocal? language scopes name).map (·.respell f) := by
  rw [findLocal?, findLocal?, List.findSome?_map, List.map_findSome?]
  refine congrArg (List.findSome? · scopes) (funext fun scope => ?_)
  rw [Function.comp, Function.comp, List.find?_map]
  refine congrArg (fun q => (scope.find? q).map (·.respell f)) (funext fun l => ?_)
  exact h.sameName_congr (h.idem l.name) (h.idem name)

theorem paired_declareLocal (name : String) (type : StaticType) (pos : Source.Position) :
    Paired v b ρ (declareLocal name type pos) (declareLocal (v.spell name) type pos)
      fun _ l l' => l' = l.map (·.respell v.spell) := by
  intro ρ₁ c c' s s' hρ₁ hc hs
  have hfind : findLocal? c'.program.language s'.scopes (v.spell name) =
      (findLocal? c.program.language s.scopes name).map (·.respell v.spell) := by
    rw [hc.program.language, hs.scopes]
    exact findLocal?_respell hc.program.spelling s.scopes name
  cases hl : findLocal? c.program.language s.scopes name with
  | some l =>
    rw [hl, Option.map_some] at hfind
    rw [declareLocal_taken hl, declareLocal_taken hfind]
    exact (same_report_respell pos (.duplicateLocal name)).seq (.pure fun _ _ => rfl) ρ₁ c c' s s'
      hρ₁ hc hs
  | none =>
    rw [hl, Option.map_none] at hfind
    rw [declareLocal_apply hl, declareLocal_apply hfind]
    have hname : (if c'.options.debug then some (v.spell name) else none) =
        if v.debug then (if c.options.debug then some name else none).map v.spell else none := by
      rw [hc.options, CodeOptions.vary]
      cases c.options.debug <;> cases v.debug <;> rfl
    obtain ⟨hd, hslot⟩ := hs.draft.declareLocal ((s.references.useType type).typeSig type)
      (if c.options.debug then some name else none)
    rw [hs.references, hname]
    refine ⟨ρ₁, le_rfl, ⟨rfl, hs.log, hd, ?_, hs.exit⟩, ?_, fun _ => ⟨rfl, rfl⟩⟩
    · rw [hs.scopes, hslot]
      cases s.scopes with
      | nil => rfl
      | cons scope outer => simp [extend, Local.respell]
    · rw [hslot]
      rfl

theorem same_updateLocal (slot : UInt16) {q : Local → Local}
    (hq : ∀ l, q (l.respell v.spell) = (q l).respell v.spell) :
    Same v b ρ (updateLocal slot q) (updateLocal slot q) := by
  intro ρ₁ c c' s s' _ _ hs
  refine ⟨ρ₁, le_rfl, { hs with scopes := ?_ }, rfl, fun _ => ⟨rfl, rfl⟩⟩
  show s'.scopes.map (fun scope => scope.map fun l => if l.slot = slot then q l else l) = _
  rw [hs.scopes, List.map_map]
  show _ = (s.scopes.map fun scope => scope.map fun l => if l.slot = slot then q l else l).map _
  rw [List.map_map]
  refine List.map_congr_left fun scope _ => ?_
  rw [Function.comp, Function.comp, List.map_map, List.map_map]
  refine List.map_congr_left fun l _ => ?_
  show (if l.slot = slot then q (l.respell v.spell) else l.respell v.spell) =
    (if l.slot = slot then q l else l).respell v.spell
  split
  · exact hq l
  · rfl

theorem same_markRead (slot : UInt16) : Same v b ρ (markRead slot) (markRead slot) :=
  same_updateLocal slot fun _ => rfl

theorem same_markAssigned (slot : UInt16) (literal : Bool) :
    Same v b ρ (markAssigned slot literal) (markAssigned slot literal) :=
  same_updateLocal slot fun _ => rfl

theorem same_complain (closed : List Local) :
    Same v b ρ (complain closed) (complain (closed.map (·.respell v.spell))) := by
  refine same_language.same_bind fun ρ' language _ => ?_
  have hall : List.Forall₂ (fun l l' => l' = Local.respell v.spell l) closed
      (closed.map (·.respell v.spell)) :=
    List.forall₂_map_right_iff.2 (List.forall₂_same.2 fun _ _ => rfl)
  refine (Paired.forIn hall fun l l' hl => ?_).seq .done
  subst hl
  have hcomplaint : (l.respell v.spell).complaint? language =
      (l.complaint? language).map (·.respell v.spell) := by
    unfold Local.complaint? Local.respell
    dsimp only
    split
    · rfl
    · split
      · rfl
      · split <;> rfl
  rw [hcomplaint]
  cases l.complaint? language with
  | none => exact .done
  | some cause => exact (same_report_respell l.pos cause).seq .done

theorem same_inScope {g g' : Gen Unit} (hg : Same v b ρ g g') : Same v b ρ (inScope g) (inScope g') := by
  intro ρ₁ c c' s s' hρ₁ hc hs
  obtain ⟨ρ₂, hρ₂, hs₂, -, hexit⟩ := hg ρ₁ c c' { s with scopes := [] :: s.scopes }
    { s' with scopes := [] :: s'.scopes } hρ₁ hc
    { hs with scopes := congrArg (List.cons []) hs.scopes }
  rw [inScope_apply, inScope_apply]
  generalize (g c { s with scopes := [] :: s.scopes }).2 = s₂ at hs₂ hexit ⊢
  generalize (g' c' { s' with scopes := [] :: s'.scopes }).2 = s₂' at hs₂ hexit ⊢
  have hclosed : s₂'.scopes.headD [] = (s₂.scopes.headD []).map (·.respell v.spell) := by
    rw [hs₂.scopes]
    cases s₂.scopes <;> rfl
  dsimp only
  rw [hclosed]
  have hcomplain : Same v b ρ₂ (complain (s₂.scopes.headD []))
      (complain ((s₂.scopes.headD []).map (·.respell v.spell))) := same_complain _
  obtain ⟨ρ₃, hρ₃, hs₃, hR, hexit'⟩ := hcomplain ρ₂ c c' { s₂ with scopes := s₂.scopes.tail }
    { s₂' with scopes := s₂'.scopes.tail } le_rfl (hc.mono hρ₂)
    { hs₂ with scopes := by rw [hs₂.scopes, List.map_tail] }
  exact ⟨ρ₃, hρ₂.trans hρ₃, hs₃, hR, fun hb =>
    ⟨(hexit' hb).1.trans (hexit hb).1, (hexit' hb).2.trans (hexit hb).2⟩⟩

theorem same_nested {g g' : Gen Unit} (hg : Same v b ρ g g') : Same v b ρ (nested g) (nested g') :=
  same_inScope (same_blockMark.seq hg)

end Lowering

end CilScope
