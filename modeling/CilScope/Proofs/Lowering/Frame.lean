import CilScope.Proofs.Draft.Growth
import CilScope.Proofs.Lowering.Walk

/-!
# What lowering leaves alone

Every step of lowering only adds: to the draft, to the log, and to the innermost scope. `Frame` says
what two states of one walk have in common, and `Walk.framed` shows it of all walks by induction over
the kinds of steps. Walks that may not declare locals leave more alone: `Walk.quiet`, and the log where they
are muted, `Walk.mute`.
-/

namespace CilScope.Lowering

/-- What of a local never changes: its name, its slot and its type. -/
def Local.view (l : Local) : String × UInt16 × StaticType := (l.name, l.slot, l.type)

/-- What of the scopes never changes. -/
def State.view (s : State) : List (List (String × UInt16 × StaticType)) :=
  s.scopes.map (·.map Local.view)

/-- The scopes with more locals in the innermost one. -/
def extend {α : Type} (new : List α) : List (List α) → List (List α)
  | [] => []
  | scope :: outer => (scope ++ new) :: outer

theorem extend_nil {α : Type} (scopes : List (List α)) : extend [] scopes = scopes := by
  cases scopes with
  | nil => rfl
  | cons scope outer => rw [extend, List.append_nil]

theorem extend_extend {α : Type} (xs ys : List α) (scopes : List (List α)) :
    extend ys (extend xs scopes) = extend (xs ++ ys) scopes := by
  cases scopes with
  | nil => rfl
  | cons scope outer => simp only [extend, List.append_assoc]

/-- What the steps from `s` to `s'` keep, if they bind labels from index `n` on only, and declare no
locals in the innermost scope unless `b`. -/
structure Frame (T : StaticType → Prop) (n : Nat) (b : Freedom) (s s' : State) : Prop where
  draft : s.draft.Grows n s'.draft
  log : s.log.hasErrors → s'.log.hasErrors
  scopes : ∃ new, (b ≠ .declares → new = []) ∧ (∀ v ∈ new, T v.2.2) ∧ s'.view = extend new s.view
  exit : ∀ e, s.exit = some e → s'.exit = some e

namespace Frame

variable {T : StaticType → Prop} {n : Nat} {b : Freedom} {s s' s'' : State}

/-- Steps that change neither the scopes nor the exit. -/
theorem of_eq (hdraft : s.draft.Grows n s'.draft) (hlog : s.log.hasErrors → s'.log.hasErrors)
    (hscopes : s'.scopes = s.scopes) (hexit : s'.exit = s.exit) : Frame T n b s s' where
  draft := hdraft
  log := hlog
  scopes := ⟨[], fun _ => rfl, by simp, by rw [extend_nil, State.view, hscopes, State.view]⟩
  exit := fun e he => by rw [hexit, he]

theorem refl (s : State) : Frame T n b s s := of_eq (.refl n _) id rfl rfl

theorem trans (h : Frame T n b s s') (h' : Frame T n b s' s'') : Frame T n b s s'' where
  draft := h.draft.trans h'.draft
  log := fun hs => h'.log (h.log hs)
  scopes := by
    obtain ⟨new, hb, hT, hview⟩ := h.scopes
    obtain ⟨new', hb', hT', hview'⟩ := h'.scopes
    refine ⟨new ++ new', fun hf => by rw [hb hf, hb' hf]; rfl, fun v hv => ?_, ?_⟩
    · rcases List.mem_append.1 hv with hv | hv
      · exact hT v hv
      · exact hT' v hv
    · rw [hview', hview, extend_extend]
  exit := fun e he => h'.exit e (h.exit e he)

end Frame

/-- A type that a local in scope has is one that the view shows. -/
theorem exists_view {s : State} {scope : List Local} {l : Local} (hscope : scope ∈ s.scopes)
    (hl : l ∈ scope) : ∃ vs ∈ s.view, l.view ∈ vs :=
  ⟨scope.map Local.view, List.mem_map_of_mem hscope, List.mem_map_of_mem hl⟩

theorem exists_local {s : State} {vs : List (String × UInt16 × StaticType)}
    {v : String × UInt16 × StaticType} (hvs : vs ∈ s.view) (hv : v ∈ vs) :
    ∃ scope ∈ s.scopes, ∃ l ∈ scope, l.view = v := by
  obtain ⟨scope, hscope, rfl⟩ := List.mem_map.1 hvs
  obtain ⟨l, hl, rfl⟩ := List.mem_map.1 hv
  exact ⟨scope, hscope, l, hl, rfl⟩

/-- All types stay among those of `T` if those of new locals are. -/
theorem Sees.extended {p : Program} {T : StaticType → Prop} {c : Context} {s s' : State}
    {new : List (String × UInt16 × StaticType)} (h : Sees p T c s) (hT : ∀ v ∈ new, T v.2.2)
    (hview : s'.view = extend new s.view) : Sees p T c s' where
  program := h.program
  owner := h.owner
  params := h.params
  ret := h.ret
  locals := by
    intro scope hscope l hl
    obtain ⟨vs, hvs, hv⟩ := exists_view hscope hl
    -- every type in view was there before, or is that of a new local
    have hold (vs) (hvs : vs ∈ s.view) (hv : l.view ∈ vs) : T l.type := by
      obtain ⟨scope', hscope', l', hl', heq⟩ := exists_local hvs hv
      have := h.locals scope' hscope' l' hl'
      rwa [show l'.type = l.type from congrArg (·.2.2) heq] at this
    rw [hview] at hvs
    cases hs : s.view with
    | nil => rw [hs] at hvs; exact absurd hvs List.not_mem_nil
    | cons inner outer =>
      rw [hs, extend] at hvs
      rcases List.mem_cons.1 hvs with rfl | hvs
      · rcases List.mem_append.1 hv with hv | hv
        · exact hold inner (by rw [hs]; exact List.mem_cons_self ..) hv
        · exact hT _ hv
      · exact hold vs (by rw [hs]; exact List.mem_cons_of_mem _ hvs) hv

theorem Sees.frame {p : Program} {T : StaticType → Prop} {c : Context} {s s' : State} {n : Nat}
    {b : Freedom} (h : Sees p T c s) (hf : Frame T n b s s') : Sees p T c s' := by
  obtain ⟨new, -, hT, hview⟩ := hf.scopes
  exact h.extended hT hview

theorem typing_any (p : Program) : Typing p fun _ => True := by
  constructor <;> intros <;> trivial

theorem sees_any (c : Context) (s : State) : Sees c.program (fun _ => True) c s :=
  ⟨rfl, trivial, fun _ _ => trivial, trivial, fun _ _ _ _ => trivial⟩

/-! ## Framed steps -/

theorem apply_bind {α β : Type} (g : Gen α) (k : α → Gen β) (c : Context) (s : State) :
    (g >>= k) c s = k (g c s).1 c (g c s).2 := rfl

/-- A step that stays within its frame, and whose result has `Q`. -/
def Framed (p : Program) (T : StaticType → Prop) (n : Nat) (b : Freedom) {α : Type} (g : Gen α)
    (Q : α → Prop) : Prop :=
  ∀ c s, Sees p T c s → n ≤ s.draft.labels.size → Frame T n b s (g c s).2 ∧ Q (g c s).1

namespace Framed

variable {p : Program} {T : StaticType → Prop} {n : Nat} {b : Freedom} {α β : Type}

theorem bind {g : Gen α} {k : α → Gen β} {Q : α → Prop} {R : β → Prop} (hg : Framed p T n b g Q)
    (hk : ∀ a, Q a → Framed p T n b (k a) R) : Framed p T n b (g >>= k) R := by
  intro c s hs hn
  obtain ⟨hframe, hQ⟩ := hg c s hs hn
  obtain ⟨hframe', hR⟩ := hk _ hQ c _ (hs.frame hframe) (Nat.le_trans hn hframe.draft.labels)
  exact ⟨hframe.trans hframe', hR⟩

theorem seq {g : Gen Unit} {k : Gen β} {R : β → Prop} (hg : Framed p T n b g fun _ => True)
    (hk : Framed p T n b k R) : Framed p T n b (g >>= fun _ => k) R :=
  hg.bind fun _ _ => hk

theorem look {f : Context → State → α} {Q : α → Prop} (h : ∀ c s, Sees p T c s → Q (f c s)) :
    Framed p T n b (fun c s => (f c s, s)) Q :=
  fun c s hs _ => ⟨.refl s, h c s hs⟩

theorem pure {a : α} {Q : α → Prop} (h : Q a) : Framed p T n b (Pure.pure a) Q :=
  look fun _ _ _ => h

theorem edit {f : Draft → Draft} (h : ∀ d : Draft, d.Grows n (f d)) :
    Framed p T n b (edit f) fun _ => True :=
  fun _ s _ _ => ⟨.of_eq (h s.draft) id rfl rfl, trivial⟩

theorem make {f : Draft → Draft × α} (h : ∀ d : Draft, d.Grows n (f d).1) :
    Framed p T n b (make f) fun _ => True :=
  fun _ s _ _ => ⟨.of_eq (h s.draft) id rfl rfl, trivial⟩

theorem newLabel : Framed p T n b newLabel fun l => n ≤ l.index :=
  fun _ s _ hn => ⟨.of_eq (Draft.grows_newLabel s.draft n) id rfl rfl, hn⟩

theorem mark {l : Label} (h : n ≤ l.index) : Framed p T n b (mark l) fun _ => True :=
  edit fun d => Draft.grows_mark d h

theorem branch {op : Opcode} {l : Label} (h : op.operandKind = .branch) :
    Framed p T n b (branch op l) fun _ => True :=
  edit fun d => Draft.grows_branch d h n

/-- A loop over a list. -/
theorem forIn {xs : List α} {f : α → PUnit → Gen (ForInStep PUnit)}
    (h : ∀ x, Framed p T n b (f x ⟨⟩) fun _ => True) :
    Framed p T n b (ForIn.forIn xs ⟨⟩ f) fun _ => True := by
  induction xs with
  | nil => exact pure trivial
  | cons x xs ih =>
    rw [List.forIn_cons]
    refine (h x).bind fun r _ => ?_
    cases r with
    | done => exact pure trivial
    | yield => exact ih

/-- Steps inside other loops, regions and handlers. -/
theorem withReader {g : Gen α} {Q : α → Prop} {f : Context → Context}
    (hf : ∀ c s, Sees p T c s → Sees p T (f c) s) (hg : Framed p T n b g Q) :
    Framed p T n b (withReader f g) Q :=
  fun c s hs hn => hg (f c) s (hf c s hs) hn

end Framed

/-! ## The kinds of steps -/

section

variable {p : Program} {T : StaticType → Prop} {n : Nat} {b : Freedom}

theorem hasErrors_report {log : Log} (pos : Source.Position) (cause : Cause)
    (h : log.hasErrors) : (log.report pos cause).hasErrors := by
  simp only [Log.hasErrors, Log.report, Array.any_push] at h ⊢
  rw [h, Bool.true_or]

theorem report_apply (pos : Source.Position) (cause : Cause) (c : Context) (s : State) :
    report pos cause c s =
      ((), if c.muted then s else { s with log := s.log.report pos cause }) := by
  show (if c.muted = true then (Pure.pure PUnit.unit : Gen PUnit) else _) c s = _
  cases c.muted <;> rfl

theorem framed_report (pos : Source.Position) (cause : Cause) :
    Framed p T n b (report pos cause) fun _ => True := by
  intro c s _ _
  refine ⟨?_, trivial⟩
  rw [report_apply]
  dsimp only
  split
  · exact .refl s
  · exact .of_eq (.refl n _) (hasErrors_report pos cause) rfl rfl

/-- The type a written type means, and the log behind the look-up. -/
theorem resolve_spec (hT : Typing p T) (i : Nat) (pos : Source.Position) (log : Log) :
    ∀ t : Source.TypeName, T ((p.resolve i pos t).run log).1 ∧
      (log.hasErrors → ((p.resolve i pos t).run log).2.hasErrors)
  | .void => ⟨hT.void, id⟩
  | .int => ⟨hT.int, id⟩
  | .bool => ⟨hT.bool, id⟩
  | .string => ⟨hT.string, id⟩
  | .object => ⟨hT.object, id⟩
  | .array e => by
    obtain ⟨ht, hlog⟩ := resolve_spec hT i pos log e
    simp only [Outline.resolve, StateT.run_bind]
    generalize (p.resolve i pos e).run log = r at ht hlog ⊢
    obtain ⟨t, log'⟩ := r
    cases t with
    | unknown => exact ⟨hT.unknown, hlog⟩
    | _ => exact ⟨hT.array ht, hlog⟩
  | .named name => by
    cases hl : p.lookup? i name with
    | some t =>
      have heq : (p.resolve i pos (.named name)).run log = (t, log) := by
        simp only [Outline.resolve, hl]
        rfl
      rw [heq]
      exact ⟨hT.found hl, id⟩
    | none =>
      have heq : (p.resolve i pos (.named name)).run log =
          (.unknown, log.report pos (.typeNotFound name)) := by
        simp only [Outline.resolve, hl]
        rfl
      rw [heq]
      exact ⟨hT.unknown, hasErrors_report _ _⟩

theorem token_of_mem_field {op : Opcode} (h : op ∈ [.ldfld, .stfld, .ldsfld, .stsfld]) :
    op.operandKind = .token := by
  revert op
  decide

theorem token_of_mem_call {op : Opcode} (h : op ∈ [.call, .callvirt, .newobj]) :
    op.operandKind = .token := by
  revert op
  decide

theorem resolveType_apply (t : Source.TypeUse) (c : Context) (s : State) :
    resolveType t c s =
      (((c.program.resolve c.owner t.pos t.name).run s.log).1,
        if c.muted then s
        else { s with log := ((c.program.resolve c.owner t.pos t.name).run s.log).2 }) := by
  have heq : resolveType t c s = ((do
      unless c.muted do
        modify fun s' => { s' with log := ((c.program.resolve c.owner t.pos t.name).run s.log).2 }
      return ((c.program.resolve c.owner t.pos t.name).run s.log).1 : Gen StaticType)) c s := rfl
  rw [heq]
  cases c.muted <;> rfl

theorem framed_resolveType (hT : Typing p T) (t : Source.TypeUse) :
    Framed p T n b (resolveType t) T := by
  intro c s hs _
  obtain ⟨ht, hlog⟩ := resolve_spec hT c.owner t.pos s.log t.name
  rw [resolveType_apply, hs.program]
  refine ⟨?_, ht⟩
  dsimp only
  split
  · exact .refl s
  · exact .of_eq (.refl n _) hlog rfl rfl

theorem Emission.appends {f : Draft → Draft} (h : Emission p f) (d : Draft) :
    ∃ i, Draft.Appends i d (f d) := by
  cases h with
  | emit h _ => exact ⟨_, Draft.appends_emit d h⟩
  | loadInt v => exact (Draft.appends_loadInt d v).imp fun _ h => h.1
  | loadLocal i => exact (Draft.appends_loadLocal d i).imp fun _ h => h.1
  | storeLocal i => exact (Draft.appends_storeLocal d i).imp fun _ h => h.1
  | loadArg i => exact (Draft.appends_loadArg d i).imp fun _ h => h.1
  | storeArg i => exact (Draft.appends_storeArg d i).imp fun _ h => h.1
  | field hop => exact ⟨_, Draft.appends_emitToken d (token_of_mem_field hop) _⟩
  | method hop => exact ⟨_, Draft.appends_emitCall d (token_of_mem_call hop) _ _ _⟩

/-- Appending an instruction that refers to the framework. -/
theorem Mention.apply {g : Gen Unit} (h : Mention g) (c : Context) (s : State) :
    ∃ i r d, Draft.Appends i s.draft d ∧ g c s = ((), { s with references := r, draft := d }) := by
  cases h with
  | box k => exact ⟨_, _, _, Draft.appends_emitToken s.draft rfl _, rfl⟩
  | string text => exact ⟨_, _, _, Draft.appends_emitToken s.draft rfl _, rfl⟩
  | method pops pushes hm hop =>
    exact ⟨_, _, _, Draft.appends_emitCall s.draft (token_of_mem_call hop) _ _ _, rfl⟩

theorem view_updateLocal (slot : UInt16) {f : Local → Local}
    (h : ∀ l, (f l).name = l.name ∧ (f l).slot = l.slot ∧ (f l).type = l.type) (c : Context)
    (s : State) : (updateLocal slot f c s).2.view = s.view := by
  have hview (l : Local) : (if l.slot = slot then f l else l).view = l.view := by
    split
    · obtain ⟨hname, hslot, htype⟩ := h l
      simp only [Local.view, hname, hslot, htype]
    · rfl
  show (s.scopes.map fun scope => scope.map fun l => if l.slot = slot then f l else l).map
    (·.map Local.view) = s.scopes.map (·.map Local.view)
  simp only [List.map_map, Function.comp_def, hview]

theorem framed_updateLocal (slot : UInt16) {f : Local → Local}
    (h : ∀ l, (f l).name = l.name ∧ (f l).slot = l.slot ∧ (f l).type = l.type) :
    Framed p T n b (updateLocal slot f) fun _ => True := by
  intro c s _ _
  refine ⟨⟨.refl n _, id, ⟨[], fun _ => rfl, by simp, ?_⟩, fun _ he => he⟩, trivial⟩
  rw [extend_nil, view_updateLocal slot h c s]

theorem framed_probe {α : Type} {g : Gen α} {Q : α → Prop} (hg : Framed p T 0 .reads g Q) :
    Framed p T n b (probe g) Q := by
  intro c s hs _
  -- what the step does to its empty draft is thrown away
  obtain ⟨hframe, hQ⟩ := hg { c with muted := true } { s with draft := {} }
    ⟨hs.program, hs.owner, hs.params, hs.ret, hs.locals⟩ (Nat.zero_le _)
  obtain ⟨new, hnew, -, hview⟩ := hframe.scopes
  exact ⟨⟨.refl n _, hframe.log, ⟨new, fun _ => hnew nofun, by simp [hnew nofun], hview⟩, hframe.exit⟩,
    hQ⟩

section

variable {name : String} {type : StaticType} {pos : Source.Position} {c : Context} {s : State}

/-- A name that is free is declared in the innermost scope. -/
theorem declareLocal_apply (h : findLocal? c.program.language s.scopes name = none) :
    let r := s.references.useType type
    let d := s.draft.declareLocal (r.typeSig type) (if c.options.debug then some name else none)
    let new : Local := { name, slot := d.2, type, pos }
    declareLocal name type pos c s =
      (some new, { s with references := r, draft := d.1, scopes := extend [new] s.scopes }) := by
  show (if (findLocal? c.program.language s.scopes name).isSome = true then _ else _ :
    Gen (Option Local)) c s = _
  rw [h]
  obtain ⟨references, log, draft, scopes, exit⟩ := s
  cases scopes <;> rfl

theorem declareLocal_taken {l : Local}
    (h : findLocal? c.program.language s.scopes name = some l) :
    declareLocal name type pos c s =
      (report pos (.duplicateLocal name) >>= fun _ => Pure.pure none : Gen (Option Local)) c s := by
  show (if (findLocal? c.program.language s.scopes name).isSome = true then _ else _ :
    Gen (Option Local)) c s = _
  rw [h]
  rfl

end

theorem view_extend (new : List Local) (scopes : List (List Local)) :
    (extend new scopes).map (·.map Local.view) =
      extend (new.map Local.view) (scopes.map (·.map Local.view)) := by
  cases scopes with
  | nil => rfl
  | cons scope outer => simp only [extend, List.map_cons, List.map_append]

theorem framed_declareLocal (name : String) {type : StaticType} (pos : Source.Position)
    (h : T type) : Framed p T n .declares (declareLocal name type pos) fun _ => True := by
  intro c s hs hn
  refine ⟨?_, trivial⟩
  cases hl : findLocal? c.program.language s.scopes name with
  | some l =>
    rw [declareLocal_taken hl]
    exact ((framed_report pos _).seq (.pure (Q := fun _ => True) trivial) c s hs hn).1
  | none =>
    rw [declareLocal_apply hl]
    refine ⟨Draft.grows_declareLocal _ _ _ n, id, ⟨_, by simp, ?_, view_extend _ _⟩, fun _ he => he⟩
    intro v hv
    rw [List.map_singleton, List.mem_singleton] at hv
    rw [hv]
    exact h

/-- The complaints about the locals of a scope that is closed. -/
def complain (closed : List Local) : Gen Unit := do
  let language ← language
  for l in closed do
    if let some cause := l.complaint? language then report l.pos cause

/-- The complaints at the end of a scope change the log alone. -/
theorem complain_apply (closed : List Local) (c : Context) (s : State) :
    ∃ log, complain closed c s = ((), { s with log }) := by
  have hlanguage (s : State) : language c s = (c.program.language, s) := rfl
  induction closed generalizing s with
  | nil => exact ⟨s.log, rfl⟩
  | cons l closed ih =>
    unfold complain at ih ⊢
    simp only [apply_bind, hlanguage, List.forIn_cons] at ih ⊢
    cases l.complaint? c.program.language with
    | none => exact ih s
    | some cause =>
      have hreport : (report l.pos cause c s).2 =
          { s with log := (report l.pos cause c s).2.log } := by
        rw [report_apply]
        cases c.muted <;> rfl
      obtain ⟨log, hlog⟩ := ih (report l.pos cause c s).2
      refine ⟨log, hlog.trans ?_⟩
      rw [hreport]

theorem framed_complain (closed : List Local) :
    Framed p T n b (complain closed) fun _ => True := by
  refine (Framed.look (Q := fun _ => True) fun _ _ _ => trivial).bind fun language _ => ?_
  refine (Framed.forIn fun l => ?_).bind fun _ _ => .pure trivial
  split
  · exact (framed_report _ _).seq (.pure trivial)
  · exact .pure trivial

theorem inScope_apply (g : Gen Unit) (c : Context) (s : State) :
    let s' := (g c { s with scopes := [] :: s.scopes }).2
    inScope g c s = complain (s'.scopes.headD []) c { s' with scopes := s'.scopes.tail } := rfl

/-- A scope of its own: what is declared inside is gone behind it. -/
theorem framed_inScope {g : Gen Unit} (hg : Framed p T n .declares g fun _ => True) :
    Framed p T n b (inScope g) fun _ => True := by
  intro c s hs hn
  refine ⟨?_, trivial⟩
  have hs' : Sees p T c { s with scopes := [] :: s.scopes } :=
    ⟨hs.program, hs.owner, hs.params, hs.ret, fun scope hscope => by
      rcases List.mem_cons.1 hscope with rfl | hscope
      · exact fun l hl => absurd hl List.not_mem_nil
      · exact hs.locals scope hscope⟩
  obtain ⟨hframe, -⟩ := hg c _ hs' hn
  rw [inScope_apply]
  generalize (g c { s with scopes := [] :: s.scopes }).2 = s' at hframe ⊢
  have hclosed : Frame T n b s { s' with scopes := s'.scopes.tail } := by
    obtain ⟨new, -, -, hview⟩ := hframe.scopes
    refine ⟨hframe.draft, hframe.log, ⟨[], fun _ => rfl, by simp, ?_⟩, hframe.exit⟩
    have htail := congrArg List.tail hview
    rw [extend_nil]
    simpa only [State.view, List.map_tail, List.map_cons, extend, List.tail_cons] using htail
  refine hclosed.trans (framed_complain _ c _ (hs.frame hclosed) ?_).1
  exact Nat.le_trans hn hclosed.draft.labels

theorem framed_typeSig (t : StaticType) : Framed p T n b (typeSig t) fun _ => True :=
  fun _ _ _ _ => ⟨.of_eq (.refl n _) id rfl rfl, trivial⟩

theorem framed_classToken (k : Library.Class) : Framed p T n b (classToken k) fun _ => True :=
  fun _ _ _ _ => ⟨.of_eq (.refl n _) id rfl rfl, trivial⟩

theorem framed_emit {op : Opcode} (h : op.operandKind = .none) :
    Framed p T n b (emit op) fun _ => True :=
  .edit fun d => (Draft.appends_emit d h).grows n

theorem framed_jump (kind : Option Source.LoopKind) (exit : Bool) (pos : Source.Position) :
    Framed p T n b (jump kind exit pos) fun _ => True := by
  refine (Framed.look (f := fun c _ => c) (Q := fun _ => True) fun _ _ _ => trivial).bind
    fun c _ => ?_
  split
  · refine .branch ?_
    split <;> rfl
  · exact framed_report _ _

/-- The label and the local of a new exit. -/
def openExit (ret : StaticType) : Gen (Label × Option UInt16) := do
  let label ← newLabel
  if ret = .void then return (label, none)
  else
    let sig ← typeSig ret
    let slot ← make (·.declareLocal sig none)
    return (label, some slot)

theorem sharedExit_apply (ret : StaticType) (c : Context) (s : State) :
    sharedExit ret c s = match s.exit with
      | some e => (e, s)
      | none => ((openExit ret c s).1,
          { (openExit ret c s).2 with exit := some (openExit ret c s).1 }) := by
  show (match s.exit with | some exit => Pure.pure exit | none => _ :
    Gen (Label × Option UInt16)) c s = _
  cases s.exit with
  | some e => rfl
  | none =>
    by_cases h : ret = .void
    · simp only [openExit, if_pos h]; rfl
    · simp only [openExit, if_neg h]; rfl

theorem framed_openExit (ret : StaticType) : Framed p T n b (openExit ret) fun _ => True := by
  refine Framed.newLabel.bind fun label _ => ?_
  split
  · exact .pure trivial
  · refine (framed_typeSig ret).bind fun sig _ => ?_
    exact (Framed.make fun d => Draft.grows_declareLocal d sig none n).bind fun _ _ => .pure trivial

theorem framed_sharedExit (ret : StaticType) : Framed p T n b (sharedExit ret) fun _ => True := by
  intro c s hs hn
  refine ⟨?_, trivial⟩
  rw [sharedExit_apply]
  cases he : s.exit with
  | some e => exact .refl s
  | none =>
    obtain ⟨hframe, -⟩ := framed_openExit ret c s hs hn
    exact ⟨hframe.draft, hframe.log, hframe.scopes, fun e h => by rw [he] at h; cases h⟩

theorem framed_leaveMethod (ret : StaticType) :
    Framed p T n b (leaveMethod ret) fun _ => True := by
  refine (Framed.look (f := fun c _ => c) (Q := fun _ => True) fun _ _ _ => trivial).bind
    fun c _ => ?_
  split
  · exact framed_emit rfl
  · refine (framed_sharedExit ret).bind fun ⟨label, slot⟩ _ => ?_
    cases slot with
    | none => exact .branch rfl
    | some slot =>
      refine (Framed.edit fun d => ?_).seq (.branch rfl)
      obtain ⟨i, hi, -⟩ := Draft.appends_storeLocal d slot
      exact hi.grows n

/-! ## Labels of its own -/

theorem framed_isReachable : Framed p T n b isReachable fun _ => True :=
  Framed.look (f := fun _ s => s.draft.isReachable) fun _ _ _ => trivial

theorem framed_mention {g : Gen Unit} (h : Mention g) : Framed p T n b g fun _ => True := by
  intro c s _ _
  obtain ⟨i, r, d, hi, heq⟩ := h.apply c s
  rw [heq]
  exact ⟨.of_eq (hi.grows n) id rfl rfl, trivial⟩

theorem framed_coerce (source target : StaticType) (pos : Source.Position) :
    Framed p T n b (coerce source target pos) fun _ => True := by
  have hname (t : StaticType) : Framed p T n b (typeName t) fun _ => True :=
    Framed.look (f := fun c _ => c.program.typeName t) fun _ _ _ => trivial
  unfold coerce box
  split
  · exact (hname _).bind fun _ _ => (hname _).bind fun _ _ => framed_report _ _
  · split
    · split
      · exact framed_mention (.box .int32)
      · split
        · exact framed_mention (.box .boolean)
        · exact .pure trivial
    · exact .pure trivial

theorem framed_blockMark : Framed p T n b blockMark fun _ => True := by
  refine (Framed.look (f := fun c _ => c) (Q := fun _ => True) fun _ _ _ => trivial).bind
    fun c _ => ?_
  split
  · exact .pure trivial
  · exact framed_emit rfl

theorem framed_nested {g : Gen Unit} (hg : Framed p T n .declares g fun _ => True) :
    Framed p T n b (nested g) fun _ => True :=
  framed_inScope (framed_blockMark.seq hg)

theorem framed_shortCircuit (isOr : Bool) {lhs rhs : ExprCode}
    (hl : ∀ l w, Framed p T n b (lhs.jump l w) fun _ => True)
    (hr : Framed p T n b rhs.value T) (hT : Typing p T) :
    Framed p T n b (shortCircuit isOr lhs rhs) T := by
  refine Framed.newLabel.bind fun shortcut hshortcut => Framed.newLabel.bind fun stop hstop => ?_
  refine (hl shortcut isOr).seq (hr.bind fun t _ => (framed_coerce _ _ _).seq ?_)
  refine (Framed.branch rfl).seq ((Framed.mark hshortcut).seq ?_)
  refine (Framed.edit fun d => ?_).seq ((Framed.mark hstop).seq (.pure hT.bool))
  obtain ⟨i, hi, -⟩ := Draft.appends_loadInt d (if isOr then 1 else 0)
  exact hi.grows n

theorem framed_jumpOnBoth (isOr : Bool) {lhs rhs : ExprCode}
    (hl : ∀ l w, Framed p T n b (lhs.jump l w) fun _ => True)
    (hr : ∀ l w, Framed p T n b (rhs.jump l w) fun _ => True) (l : Label) (w : Bool) :
    Framed p T n b (jumpOnBoth isOr lhs rhs l w) fun _ => True := by
  unfold jumpOnBoth
  split
  · exact (hl l w).seq (hr l w)
  · refine Framed.newLabel.bind fun skip hskip => ?_
    exact (hl skip _).seq ((hr l w).seq (.mark hskip))

theorem framed_ifStatement {cond : ExprCode} {then_ : Gen Unit} {else_ : Option (Gen Unit)}
    (hc : ∀ l w, Framed p T n b (cond.jump l w) fun _ => True)
    (ht : Framed p T n .declares then_ fun _ => True)
    (he : ∀ g, else_ = some g → Framed p T n .declares g fun _ => True) :
    Framed p T n b (ifStatement cond then_ else_) fun _ => True := by
  refine Framed.newLabel.bind fun otherwise hotherwise => ?_
  refine (hc otherwise false).seq ((framed_nested ht).seq ?_)
  cases else_ with
  | none => exact .mark hotherwise
  | some else_ =>
    have hrest {stop : Label} (hstop : n ≤ stop.index) : Framed p T n b (do
        mark otherwise
        nested else_
        mark stop) fun _ => True :=
      (Framed.mark hotherwise).seq ((framed_nested (he else_ rfl)).seq (.mark hstop))
    refine Framed.newLabel.bind fun stop hstop => framed_isReachable.bind fun r _ => ?_
    cases r with
    | true => exact (Framed.branch rfl).seq (hrest hstop)
    | false => exact hrest hstop

theorem framed_inLoop (kind : Source.LoopKind) (exit next : Label) {g : Gen Unit}
    (hg : Framed p T n b g fun _ => True) :
    Framed p T n b (inLoop kind exit next g) fun _ => True :=
  .withReader (fun _ _ hs => ⟨hs.program, hs.owner, hs.params, hs.ret, hs.locals⟩) hg

/-- Where `continue` goes: to the step if there is one, else to the head. -/
def nextLabel (step : Option (Gen Unit)) (head : Label) : Gen Label :=
  match step with
  | some _ => newLabel
  | none => pure head

/-- The test at the top of a loop, unless it is always true. -/
def loopTest (cond : Option Source.Expr) (exit : Label) : Gen Unit :=
  match cond with
  | none | some (.bool _ true) => pure ()
  | some cond => (compile cond).jump exit false

/-- The step at the end of a round. -/
def loopStep (step : Option (Gen Unit)) (next : Label) : Gen Unit :=
  match step with
  | some step => do
    mark next
    step
  | none => pure ()

theorem whileLoop_eq (kind : Source.LoopKind) (cond : Option Source.Expr) (body : Gen Unit)
    (step : Option (Gen Unit)) :
    whileLoop kind cond body step = (do
      let head ← newLabel
      let exit ← newLabel
      let next ← nextLabel step head
      mark head
      loopTest cond exit
      inLoop kind exit next (nested body)
      loopStep step next
      branch .br head
      mark exit) := by
  cases cond with
  | none => cases step <;> rfl
  | some e =>
    cases e with
    | bool pos v => cases v <;> cases step <;> rfl
    | int | str | null | this | name | typeKeyword | member | call | new | index | unary | binary =>
      cases step <;> rfl

theorem framed_whileLoop (kind : Source.LoopKind) {cond : Option Source.Expr} {body : Gen Unit}
    {step : Option (Gen Unit)}
    (hc : ∀ e, cond = some e → ∀ l w, Framed p T n b ((compile e).jump l w) fun _ => True)
    (hb : Framed p T n .declares body fun _ => True)
    (hs : ∀ g, step = some g → Framed p T n b g fun _ => True) :
    Framed p T n b (whileLoop kind cond body step) fun _ => True := by
  rw [whileLoop_eq]
  refine Framed.newLabel.bind fun head hhead => Framed.newLabel.bind fun exit hexit => ?_
  have hnext : Framed p T n b (nextLabel step head) fun l => n ≤ l.index := by
    cases step with
    | none => exact .pure hhead
    | some => exact .newLabel
  have htest : Framed p T n b (loopTest cond exit) fun _ => True := by
    unfold loopTest
    split
    · exact .pure trivial
    · exact .pure trivial
    · exact hc _ rfl exit false
  refine hnext.bind fun next hlabel => (Framed.mark hhead).seq (htest.seq ?_)
  refine (framed_inLoop kind exit next (framed_nested hb)).seq (Framed.seq ?_ ?_)
  · cases step with
    | none => exact .pure trivial
    | some step => exact (Framed.mark hlabel).seq (hs step rfl)
  · exact (Framed.branch rfl).seq (.mark hexit)

theorem framed_doLoop {body : Gen Unit} {cond : Source.Expr} (until_ : Bool)
    (hb : Framed p T n .declares body fun _ => True)
    (hc : ∀ l w, Framed p T n b ((compile cond).jump l w) fun _ => True) :
    Framed p T n b (doLoop body cond until_) fun _ => True := by
  refine Framed.newLabel.bind fun head hhead => Framed.newLabel.bind fun exit hexit =>
    Framed.newLabel.bind fun next hnext => ?_
  refine (Framed.mark hhead).seq ((framed_inLoop .do_ exit next (framed_nested hb)).seq ?_)
  exact (Framed.mark hnext).seq ((hc head _).seq (.mark hexit))

theorem framed_leaveTo (stop : Label) : Framed p T n b (leaveTo stop) fun _ => True := by
  refine framed_isReachable.bind fun r _ => ?_
  cases r with
  | true => exact .branch rfl
  | false => exact .pure trivial

theorem framed_caughtType (hT : Typing p T) (head : Source.CatchHead) :
    Framed p T n b (caughtType head) T := by
  unfold caughtType
  split
  · refine (framed_resolveType hT _).bind fun t ht => ?_
    split
    · exact .pure ht
    · exact (framed_report _ _).seq (.pure ht)
  · refine (Framed.look (f := fun c _ => c.program.language) (Q := fun _ => True)
      fun _ _ _ => trivial).bind fun language _ => .pure ?_
    split
    · exact hT.object
    · exact hT.lib _

theorem framed_catchHandler (hT : Typing p T) (region : Nat) (head : Source.CatchHead)
    {body : Gen Unit} (hb : Framed p T n .declares body fun _ => True) (stop : Label) :
    Framed p T n b (catchHandler region head body stop) fun _ => True := by
  refine (framed_caughtType hT head).bind fun caught hcaught => ?_
  refine (framed_classToken _).bind fun token _ => ?_
  refine (Framed.make fun d => Draft.grows_beginHandler d _ _ n).bind fun handler _ => ?_
  refine (Framed.withReader (f := fun c => { c with catchDepth := c.catchDepth + 1 })
    (fun _ _ hs => ⟨hs.program, hs.owner, hs.params, hs.ret, hs.locals⟩)
    (framed_inScope ?_)).seq ?_
  · have hpop : Framed p T n .declares (do emit .pop; blockMark; body) fun _ => True :=
      (framed_emit rfl).seq (framed_blockMark.seq hb)
    cases head.var with
    | none => exact hpop
    | some name =>
      refine (framed_declareLocal name _ hcaught).bind fun var _ => ?_
      cases var with
      | none => exact hpop
      | some var =>
        refine (Framed.edit fun d => ?_).seq (framed_blockMark.seq hb)
        obtain ⟨i, hi, -⟩ := Draft.appends_storeLocal d var.slot
        exact hi.grows n
  · exact (framed_leaveTo stop).seq (.edit fun d => Draft.grows_endHandler d _ n)

theorem framed_tryStatement (hT : Typing p T) {body : Gen Unit}
    {handler : Option (Source.CatchHead × Gen Unit)} {finally_ : Option (Gen Unit)}
    (hb : Framed p T n .declares body fun _ => True)
    (hh : ∀ head g, handler = some (head, g) → Framed p T n .declares g fun _ => True)
    (hf : ∀ g, finally_ = some g → Framed p T n .declares g fun _ => True) :
    Framed p T n b (tryStatement body handler finally_) fun _ => True := by
  refine Framed.newLabel.bind fun stop hstop => ?_
  refine (Framed.withReader (f := fun c => { c with tryDepth := c.tryDepth + 1 })
    (fun _ _ hs => ⟨hs.program, hs.owner, hs.params, hs.ret, hs.locals⟩) ?_).seq (.mark hstop)
  -- what stands behind the protected body is `last`, in both shapes of the statement
  have hbare {last : Gen Unit} (hlast : Framed p T n b last fun _ => True) :
      Framed p T n b (do nested body; leaveTo stop; last) fun _ => True :=
    (framed_nested hb).seq ((framed_leaveTo stop).seq hlast)
  have hcaught {last : Gen Unit} (hlast : Framed p T n b last fun _ => True)
      {head : Source.CatchHead} {g : Gen Unit} (hg : Framed p T n .declares g fun _ => True) :
      Framed p T n b (do
        let region ← make Draft.beginTry
        nested body
        leaveTo stop
        catchHandler region head g stop
        last) fun _ => True := by
    refine (Framed.make fun d => Draft.grows_beginTry d n).bind fun region _ => ?_
    refine (framed_nested hb).seq ((framed_leaveTo stop).seq ?_)
    exact (framed_catchHandler hT region head hg stop).seq hlast
  cases finally_ with
  | none =>
    cases handler with
    | none => exact hbare (.pure trivial)
    | some h => exact hcaught (.pure trivial) (hh _ _ rfl)
  | some g =>
    have hend (outer : Nat) : Framed p T n b (do
        let handler ← make (·.beginHandler outer .finally_)
        nested g
        emit .endfinally
        edit (·.endHandler handler)) fun _ => True := by
      refine (Framed.make fun d => Draft.grows_beginHandler d _ _ n).bind fun handler _ => ?_
      refine (framed_nested (hf _ rfl)).seq ((framed_emit rfl).seq ?_)
      exact .edit fun d => Draft.grows_endHandler d handler n
    cases handler with
    | none =>
      exact (Framed.make fun d => Draft.grows_beginTry d n).bind fun outer _ => hbare (hend outer)
    | some h =>
      exact (Framed.make fun d => Draft.grows_beginTry d n).bind fun outer _ =>
        hcaught (hend outer) (hh _ _ rfl)

end

/-- **Every walk stays within its frame.** -/
theorem Walk.framed {p : Program} {T : StaticType → Prop} (hT : Typing p T) {L : Exit → Prop}
    {b : Freedom} {α : Type} {g : Gen α} {Q : α → Prop} (h : Walk p T L b g Q) :
    ∀ n, Framed p T n b g Q := by
  induction h with
  | look f h => exact fun n => .look h
  | bind _ _ ihg ihk => exact fun n => (ihg n).bind fun a ha => ihk a ha n
  | weaken _ h ih => exact fun n c s hs hn => ⟨(ih n c s hs hn).1, h _ (ih n c s hs hn).2⟩
  | report pos cause => exact fun n => framed_report pos cause
  | resolveType t => exact fun n => framed_resolveType hT t
  | point pos => exact fun n => .edit fun d => Draft.grows_point d pos n
  | emission h =>
    refine fun n => .edit fun d => ?_
    obtain ⟨i, hi⟩ := h.appends d
    exact hi.grows n
  | mention h => exact fun n => framed_mention h
  | ret _ => exact fun n => framed_emit rfl
  | branch hop _ => exact fun n => .branch hop
  | probe _ ih => exact fun n => framed_probe (ih 0)
  | updateLocal slot f h => exact fun n => framed_updateLocal slot h
  | shortCircuit isOr _ _ ihl ihr =>
    exact fun n => framed_shortCircuit isOr (fun l w => ihl (fun _ => True) l w trivial n)
      (ihr (fun _ => True) n) hT
  | jumpOnBoth isOr w _ _ _ ihl ihr =>
    exact fun n => framed_jumpOnBoth isOr (fun l w => ihl (fun _ => True) l w trivial n)
      (fun l w => ihr (fun _ => True) l w trivial n) _ w
  | declareLocal name pos h => exact fun n => framed_declareLocal name pos h
  | inScope _ ih => exact fun n => framed_inScope (ih n)
  | loopJump kind exit pos => exact fun n => framed_jump kind exit pos
  | leaveMethod _ => exact fun n => framed_leaveMethod _
  | ifStatement _ _ _ ihc iht ihe =>
    exact fun n => framed_ifStatement (fun l w => ihc (fun _ => True) l w trivial n)
      (iht (fun _ => True) n) fun g hg => ihe g hg (fun _ => True) n
  | whileLoop kind _ _ _ ihc ihb ihs =>
    exact fun n => framed_whileLoop kind
      (fun e he l w => ihc e he (fun _ => True) l w trivial n) (ihb (fun _ => True) n)
      fun g hg => ihs g hg (fun _ => True) n
  | doLoop until_ _ _ ihb ihc =>
    exact fun n => framed_doLoop until_ (ihb (fun _ => True) n)
      fun l w => ihc (fun _ => True) l w trivial n
  | tryStatement _ _ _ ihb ihh ihf =>
    exact fun n => framed_tryStatement hT (ihb (fun _ => True) n)
      (fun head g hg => ihh head g hg (fun _ => True) n) fun g hg => ihf g hg (fun _ => True) n

/-! ## Methods -/

section

variable {p : Program} {T : StaticType → Prop} {b : Freedom}

/-- Without returns inside regions there is no common exit. -/
theorem commonExit_apply {c : Context} {s : State} (h : s.exit = none) : (commonExit c s).2 = s := by
  have hget : (get : Gen State) c s = (s, s) := rfl
  rw [commonExit, apply_bind, hget]
  simp only [h]
  rfl

/-- The common exit binds a label that the statements have made, so it frames no label at all. -/
theorem framed_commonExit : Framed p T 0 b commonExit fun _ => True := by
  have hret : Framed p T 0 b (emit .ret) fun _ => True := framed_emit rfl
  refine (Framed.look (f := fun _ s => s) (Q := fun _ => True) fun _ _ _ => trivial).bind fun s _ => ?_
  split
  · rename_i label slot _
    refine (Framed.mark (Nat.zero_le _)).seq ?_
    cases slot with
    | none => exact hret
    | some slot =>
      refine (Framed.edit fun d => ?_).seq hret
      obtain ⟨i, hi, -⟩ := Draft.appends_loadLocal d slot
      exact hi.grows 0
  · exact .pure trivial

/-- **The body of every method only adds to what there is.** -/
theorem framed_methodBody (hT : Typing p T) : Framed p T 0 .declares methodBody fun _ => True := by
  refine (Framed.look (f := fun c _ => c) (Q := fun _ => True) fun _ _ _ => trivial).bind fun c _ => ?_
  split
  · rw [declaredBody_eq]
    exact ((walk_mainPart (L := fun _ => True) hT _ trivial).framed hT 0).seq framed_commonExit
  · exact (walk_ctorBody (L := fun _ => True) hT trivial).framed hT 0
  · exact (walk_cctorBody (L := fun _ => True) hT trivial).framed hT 0

end

/-! ## Steps that declare nothing -/

/-- No local is declared, and no common exit is opened. -/
structure Still (s s' : State) : Prop where
  locals : s'.draft.locals = s.draft.locals
  view : s'.view = s.view
  exit : s'.exit = s.exit

theorem Still.trans {s s' s'' : State} (h : Still s s') (h' : Still s' s'') : Still s s'' :=
  ⟨h'.locals.trans h.locals, h'.view.trans h.view, h'.exit.trans h.exit⟩

/-- Steps that declare nothing, and whose result has `Q`. -/
def Quiet (p : Program) (T : StaticType → Prop) {α : Type} (g : Gen α) (Q : α → Prop) : Prop :=
  ∀ c s, Sees p T c s → Still s (g c s).2 ∧ Q (g c s).1

namespace Quiet

variable {p : Program} {T : StaticType → Prop} {α β : Type}

theorem bind {g : Gen α} {k : α → Gen β} {Q : α → Prop} {R : β → Prop} (hg : Quiet p T g Q)
    (hk : ∀ a, Q a → Quiet p T (k a) R) : Quiet p T (g >>= k) R := by
  intro c s hs
  obtain ⟨hstill, hQ⟩ := hg c s hs
  have hs' : Sees p T c (g c s).2 :=
    hs.extended (by simp) (show (g c s).2.view = extend [] s.view by rw [extend_nil, hstill.view])
  obtain ⟨hstill', hR⟩ := hk _ hQ c _ hs'
  exact ⟨hstill.trans hstill', hR⟩

theorem seq {g : Gen Unit} {k : Gen β} {R : β → Prop} (hg : Quiet p T g fun _ => True)
    (hk : Quiet p T k R) : Quiet p T (g >>= fun _ => k) R :=
  hg.bind fun _ _ => hk

theorem look {f : Context → State → α} {Q : α → Prop} (h : ∀ c s, Sees p T c s → Q (f c s)) :
    Quiet p T (fun c s => (f c s, s)) Q :=
  fun c s hs => ⟨⟨rfl, rfl, rfl⟩, h c s hs⟩

theorem pure {a : α} {Q : α → Prop} (h : Q a) : Quiet p T (Pure.pure a) Q := look fun _ _ _ => h

theorem edit {f : Draft → Draft} (h : ∀ d : Draft, (f d).locals = d.locals) :
    Quiet p T (edit f) fun _ => True :=
  fun _ s _ => ⟨⟨h s.draft, rfl, rfl⟩, trivial⟩

theorem newLabel : Quiet p T newLabel fun _ => True := fun _ _ _ => ⟨⟨rfl, rfl, rfl⟩, trivial⟩

theorem mark (l : Label) : Quiet p T (mark l) fun _ => True := edit fun d => Draft.locals_mark d

theorem branch (op : Opcode) (l : Label) : Quiet p T (branch op l) fun _ => True :=
  edit fun d => Draft.locals_branch d

theorem report (pos : Source.Position) (cause : Cause) :
    Quiet p T (report pos cause) fun _ => True := by
  intro c s _
  rw [report_apply]
  dsimp only
  split <;> exact ⟨⟨rfl, rfl, rfl⟩, trivial⟩

theorem mention {g : Gen Unit} (h : Mention g) : Quiet p T g fun _ => True := by
  intro c s _
  obtain ⟨i, r, d, hi, heq⟩ := h.apply c s
  rw [heq]
  exact ⟨⟨hi.locals, rfl, rfl⟩, trivial⟩

end Quiet

theorem quiet_coerce {p : Program} {T : StaticType → Prop} (source target : StaticType)
    (pos : Source.Position) : Quiet p T (coerce source target pos) fun _ => True := by
  have hname (t : StaticType) : Quiet p T (typeName t) fun _ => True :=
    Quiet.look (f := fun c _ => c.program.typeName t) fun _ _ _ => trivial
  unfold coerce box
  split
  · exact (hname _).bind fun _ _ => (hname _).bind fun _ _ => .report _ _
  · split
    · split
      · exact .mention (.box .int32)
      · split
        · exact .mention (.box .boolean)
        · exact .pure trivial
    · exact .pure trivial

theorem quiet_jump {p : Program} {T : StaticType → Prop} (kind : Option Source.LoopKind)
    (exit : Bool) (pos : Source.Position) : Quiet p T (jump kind exit pos) fun _ => True := by
  refine (Quiet.look (f := fun c _ => c) (Q := fun _ => True) fun _ _ _ => trivial).bind
    fun c _ => ?_
  split
  · exact .branch _ _
  · exact .report _ _

/-- **Walks that may not declare locals declare none.** -/
theorem Walk.quiet {p : Program} {T : StaticType → Prop} (hT : Typing p T) {L : Exit → Prop}
    {b : Freedom} {α : Type} {g : Gen α} {Q : α → Prop} (h : Walk p T L b g Q) (hb : b ≠ .declares) :
    Quiet p T g Q := by
  induction h with
  | look f h => exact .look h
  | bind _ _ ihg ihk => exact (ihg hb).bind fun a ha => ihk a ha hb
  | weaken _ h ih => exact fun c s hs => ⟨(ih hb c s hs).1, h _ (ih hb c s hs).2⟩
  | report pos cause => exact .report pos cause
  | resolveType t =>
    intro c s hs
    obtain ⟨ht, -⟩ := resolve_spec hT c.owner t.pos s.log t.name
    rw [resolveType_apply, hs.program]
    dsimp only
    split <;> exact ⟨⟨rfl, rfl, rfl⟩, ht⟩
  | point pos => exact .edit fun _ => rfl
  | emission h =>
    refine .edit fun d => ?_
    obtain ⟨i, hi⟩ := h.appends d
    exact hi.locals
  | mention h => exact .mention h
  | ret _ => exact .edit fun d => (Draft.appends_ret d).locals
  | branch hop _ => exact .branch _ _
  | probe _ ih =>
    intro c s hs
    obtain ⟨hstill, hQ⟩ := ih nofun { c with muted := true } { s with draft := {} }
      ⟨hs.program, hs.owner, hs.params, hs.ret, hs.locals⟩
    exact ⟨⟨rfl, hstill.view, hstill.exit⟩, hQ⟩
  | updateLocal slot f h =>
    exact fun c s _ => ⟨⟨rfl, view_updateLocal slot h c s, rfl⟩, trivial⟩
  | shortCircuit isOr _ _ ihl ihr =>
    refine Quiet.newLabel.bind fun shortcut _ => Quiet.newLabel.bind fun stop _ => ?_
    refine (ihl (fun _ => True) shortcut isOr trivial hb).seq ?_
    refine (ihr (fun _ => True) hb).bind fun t _ => ?_
    refine (quiet_coerce t .bool _).seq ((Quiet.branch _ _).seq ((Quiet.mark _).seq ?_))
    refine (Quiet.edit fun d => ?_).seq ((Quiet.mark _).seq (.pure hT.bool))
    obtain ⟨i, hi, -⟩ := Draft.appends_loadInt d (if isOr then 1 else 0)
    exact hi.locals
  | jumpOnBoth isOr w _ _ _ ihl ihr =>
    unfold Lowering.jumpOnBoth
    split
    · exact (ihl (fun _ => True) _ w trivial hb).seq (ihr (fun _ => True) _ w trivial hb)
    · refine Quiet.newLabel.bind fun skip _ => (ihl (fun _ => True) skip _ trivial hb).seq ?_
      exact (ihr (fun _ => True) _ w trivial hb).seq (.mark skip)
  | declareLocal | inScope | loopJump | leaveMethod | ifStatement | whileLoop | doLoop
  | tryStatement => exact absurd rfl hb

/-! ## Muted steps -/

/-- Where nothing is to be reported, the step reports nothing; its result has `Q`. -/
def Mute (p : Program) {α : Type} (g : Gen α) (Q : α → Prop) : Prop :=
  ∀ c s, c.program = p → c.muted = true → (g c s).2.log = s.log ∧ Q (g c s).1

namespace Mute

variable {p : Program} {α β : Type}

theorem bind {g : Gen α} {k : α → Gen β} {Q : α → Prop} {R : β → Prop} (hg : Mute p g Q)
    (hk : ∀ a, Q a → Mute p (k a) R) : Mute p (g >>= k) R := by
  intro c s hp hmuted
  obtain ⟨hlog, hQ⟩ := hg c s hp hmuted
  obtain ⟨hlog', hR⟩ := hk _ hQ c (g c s).2 hp hmuted
  exact ⟨hlog'.trans hlog, hR⟩

theorem seq {g : Gen Unit} {k : Gen β} {R : β → Prop} (hg : Mute p g fun _ => True)
    (hk : Mute p k R) : Mute p (g >>= fun _ => k) R :=
  hg.bind fun _ _ => hk

theorem pure {a : α} {Q : α → Prop} (h : Q a) : Mute p (Pure.pure a) Q := fun _ _ _ _ => ⟨rfl, h⟩

theorem edit (f : Draft → Draft) : Mute p (edit f) fun _ => True := fun _ _ _ _ => ⟨rfl, trivial⟩

theorem newLabel : Mute p newLabel fun _ => True := fun _ _ _ _ => ⟨rfl, trivial⟩

theorem report (pos : Source.Position) (cause : Cause) : Mute p (report pos cause) fun _ => True := by
  intro c s _ hmuted
  rw [report_apply, if_pos hmuted]
  exact ⟨rfl, trivial⟩

theorem mention {g : Gen Unit} (h : Mention g) : Mute p g fun _ => True := by
  intro c s _ _
  obtain ⟨i, r, d, -, heq⟩ := h.apply c s
  rw [heq]
  exact ⟨rfl, trivial⟩

theorem coerce (source target : StaticType) (pos : Source.Position) :
    Mute p (coerce source target pos) fun _ => True := by
  have hname (t : StaticType) : Mute p (typeName t) fun _ => True := fun _ _ _ _ => ⟨rfl, trivial⟩
  unfold Lowering.coerce box
  split
  · exact (hname _).bind fun _ _ => (hname _).bind fun _ _ => .report _ _
  · split
    · split
      · exact .mention (.box .int32)
      · split
        · exact .mention (.box .boolean)
        · exact .pure trivial
    · exact .pure trivial

end Mute

/-- **Walks that may not declare locals are mute.** -/
theorem Walk.mute {p : Program} {L : Exit → Prop} {b : Freedom} {α : Type} {g : Gen α} {Q : α → Prop}
    (h : Walk p (fun _ => True) L b g Q) (hb : b ≠ .declares) : Mute p g Q := by
  induction h with
  | look f h => exact fun c s hp _ => ⟨rfl, h c s (hp ▸ sees_any c s)⟩
  | bind _ _ ihg ihk => exact (ihg hb).bind fun a ha => ihk a ha hb
  | weaken _ h ih => exact fun c s hp hm => And.imp_right (h _) (ih hb c s hp hm)
  | report pos cause => exact .report pos cause
  | resolveType t =>
    intro c s _ hmuted
    rw [resolveType_apply, if_pos hmuted]
    exact ⟨rfl, trivial⟩
  | point pos => exact .edit _
  | emission => exact .edit _
  | mention h => exact .mention h
  | ret => exact .edit _
  | branch => exact .edit _
  | probe _ ih => exact fun c s hp _ => ih nofun { c with muted := true } { s with draft := {} } hp rfl
  | updateLocal slot f h => exact fun _ _ _ _ => ⟨rfl, trivial⟩
  | shortCircuit isOr _ _ ihl ihr =>
    refine Mute.newLabel.bind fun shortcut _ => Mute.newLabel.bind fun stop _ => ?_
    refine (ihl (fun _ => True) shortcut isOr trivial hb).seq ?_
    refine (ihr (fun _ => True) hb).bind fun t _ => (Mute.coerce t .bool _).seq ?_
    exact (Mute.edit _).seq ((Mute.edit _).seq ((Mute.edit _).seq ((Mute.edit _).seq (.pure trivial))))
  | jumpOnBoth isOr w _ _ _ ihl ihr =>
    unfold Lowering.jumpOnBoth
    split
    · exact (ihl (fun _ => True) _ w trivial hb).seq (ihr (fun _ => True) _ w trivial hb)
    · refine Mute.newLabel.bind fun skip _ => (ihl (fun _ => True) skip _ trivial hb).seq ?_
      exact (ihr (fun _ => True) _ w trivial hb).seq (.edit _)
  | declareLocal | inScope | loopJump | leaveMethod | ifStatement | whileLoop | doLoop
  | tryStatement => exact absurd rfl hb

end CilScope.Lowering
