import CilScope.Proofs.Core.Steps

/-!
# Simple statements of the core

Assignments, increments, declarations of locals, jumps and returns.
-/

namespace CilScope.Core

open Source (Expr Stmt AssignOp BinaryOp LoopKind)
open Machine (Memory Status Reach)
open Lowering

/-! ## Assignments -/

section

variable {x : Site} {F : Draft} {σ : Scope} {c : Context} {s : State} {st : Store} {m : Memory} {r : Ref}
  {place : Lowering.Place} {v : Value}

/-- The value on the stack goes where the name refers to. -/
theorem arrives_store (hs : Live s) (hm : Holds x F st m) (hstack : m.stack = []) (hr : Known x F r)
    (hplace : Names x r place) (hv : v.type = r.type) (hF : Final F (place.store c s).2) :
    ∃ st', st.write r v = .ok st' ∧
      Arrives x F (here s { m with stack := v.word :: m.stack }) (place.store c s).2 st' := by
  cases hplace with
  | @cell k t slot hslot =>
    obtain ⟨hlt, st', hwrite, hm'⟩ := hm.write_cell hr hv
    have happ := Draft.appends_storeLocal s.draft slot
    have hperform : (Machine.Action.storeLocal slot.toNat).perform
        { m with stack := v.word :: m.stack } = .next { m with locals := m.locals.set k v.word } := by
      simp only [Machine.Action.perform, hslot, if_pos hlt]
    exact ⟨st', hwrite, live_edit (f := (·.storeLocal slot)) happ trivial hs, _, hm', hstack,
      (reach_edit (f := (·.storeLocal slot)) happ hF hperform).weaken (Nat.zero_le _)⟩
  | @param i t index hindex =>
    obtain ⟨hlt, st', hwrite, hm'⟩ := hm.write_param hr hv
    have happ := Draft.appends_storeArg s.draft index
    have hperform : (Machine.Action.storeArg index.toNat).perform
        { m with stack := v.word :: m.stack } =
        .next { m with args := m.args.set (i + x.base) v.word } := by
      simp only [Machine.Action.perform, hindex, if_pos hlt]
    exact ⟨st', hwrite, live_edit (f := (·.storeArg index)) happ trivial hs, _, hm', hstack,
      (reach_edit (f := (·.storeArg index)) happ hF hperform).weaken (Nat.zero_le _)⟩

/-- The assignment is noted before the value is stored. -/
theorem arrives_noted {literal : Bool} (hs : Live s) (hm : Holds x F st m) (hstack : m.stack = [])
    (hr : Known x F r) (hplace : Names x r place) (hv : v.type = r.type)
    (hF : Final F (place.store c (place.noteAssigned literal c s).2).2) :
    ∃ st', st.write r v = .ok st' ∧
      Arrives x F (here s { m with stack := v.word :: m.stack })
        (place.store c (place.noteAssigned literal c s).2).2 st' := by
  have hdraft : (place.noteAssigned literal c s).2.draft = s.draft := by cases hplace <;> rfl
  have hlive : Live (place.noteAssigned literal c s).2 := by rw [Live, hdraft]; exact hs
  have hhere (m : Memory) : here s m = here (place.noteAssigned literal c s).2 m := by
    rw [here, here, hdraft]
  rw [hhere]
  exact arrives_store hlive hm hstack hr hplace hv hF

theorem target_apply {n : String} {pos : Source.Position} (h : c.resolve s.scopes n = .place place)
    (hplace : Names x r place) : target (.name pos n) c s = (some place, s) := by
  have hname : resolveName n c s = (.place place, s) := congrArg (·, s) h
  rw [target, apply_bind, hname]
  cases hplace <;> rfl

theorem Names.type (h : Names x r place) : place.type = r.type.static := by
  cases h <;> rfl

/-- What an assignment does with the value on the stack. -/
def storeValue (place : Lowering.Place) (t : StaticType) (pos : Source.Position) (literal : Bool) :
    Gen Unit := do
  coerce t place.type pos
  place.noteAssigned literal
  place.store

theorem Names.walks {p : Program} (h : Names x r place) : place.Walks p fun _ => True := by
  cases h <;> trivial

theorem walk_storeValue {p : Program} (h : Names x r place) (t : StaticType) (pos : Source.Position)
    (literal : Bool) :
    Walk p (fun _ => True) (fun _ => True) .declares (storeValue place t pos literal) fun _ => True :=
  (walk_coerce ..).seq ((walk_noteAssigned _ (by decide)).seq (walk_store h.walks))

theorem arrives_storeValue {pos : Source.Position} {literal : Bool} (hready : Ready x F σ c s)
    (hs : Live s) (hm : Holds x F st m) (hstack : m.stack = []) (hr : Known x F r)
    (hplace : Names x r place) (hF : Final F (storeValue place v.type.static pos literal c s).2) :
    ∃ st', st.write r v = .ok st' ∧
      Arrives x F (here s { m with stack := v.word :: m.stack })
        (storeValue place v.type.static pos literal c s).2 st' := by
  have hF₁ : Final F (coerce v.type.static place.type pos c s).2 :=
    final_before c ((walk_noteAssigned literal (by decide)).seq (walk_store hplace.walks)) hF
  rw [hplace.type] at hF₁
  obtain ⟨htype, hcoerce⟩ := coerce_static hready.loud hF₁
  have happly : storeValue place v.type.static pos literal c s =
      place.store c (place.noteAssigned literal c s).2 := by
    show place.store c (place.noteAssigned literal c (coerce v.type.static place.type pos c s).2).2 = _
    rw [hplace.type, hcoerce]
  rw [happly] at hF ⊢
  exact arrives_noted hs hm hstack hr hplace htype hF

end

/-- The step `g` realizes the update `u` of the store. -/
def Updates (x : Site) (F : Draft) (σ : Scope) (g : Gen Unit) (u : Store → Except Halt Store) : Prop :=
  ∀ ⦃c s st m⦄, Ready x F σ c s → Live s → Holds x F st m → m.stack = [] → Final F (g c s).2 →
    ∀ n, Follows F n (here s m) (u st) (Arrives x F (here s m) (g c s).2)

section

variable {x : Site} {F : Draft} {σ : Scope} {n : String} {r : Ref} {e : Expr}

theorem updates_assign (namePos : Source.Position) (hr : x.lookup? σ n = some r)
    (he : coreExpr x σ e) :
    Updates x F σ (assign (.name namePos n) .set e) fun st => eval x σ st e >>= st.write r := by
  intro c s st m hready hs hm hstack hF steps
  obtain ⟨place, hplace, hnames⟩ := resolve_lookup hready.here hready.names hr
  have happly : assign (.name namePos n) .set e c s =
      storeValue place ((compile e).value c s).1 e.pos (isLiteral e) c ((compile e).value c s).2 := by
    have htarget : target (.name namePos n) c s = (some place, s) := target_apply hplace hnames
    rw [assign, apply_bind, htarget]
    cases hnames <;> rfl
  rw [happly] at hF ⊢
  have hF₁ := final_before c (walk_storeValue hnames _ _ _) hF
  refine ((simulates_compile e he).value hready hs hm hF₁ steps).bind fun v ⟨hv, hpush⟩ => ?_
  rw [type_value he hready hv] at hF ⊢
  obtain ⟨st', hwrite, harrives⟩ := arrives_storeValue (ready_value hready e) hpush.live hm hstack
    (known_lookup hready.celled hr) hnames hF
  rw [hwrite]
  exact harrives.after hpush.reach

theorem updates_compound (namePos : Source.Position) {op : AssignOp} {bop : BinaryOp}
    (hop : compoundOperator? op = some bop) (hconcat : op ≠ .concat) (hr : x.lookup? σ n = some r)
    (he : coreExpr x σ e) :
    Updates x F σ (assign (.name namePos n) op e) fun st =>
      st.read r >>= fun old => (eval x σ st e >>= applyBinary bop old) >>= st.write r := by
  intro c s st m hready hs hm hstack hF steps
  obtain ⟨place, hplace, hnames⟩ := resolve_lookup hready.here hready.names hr
  have hknown := known_lookup hready.celled hr
  have hbop : bop ≠ .concat := by
    rintro rfl
    cases op <;> first | exact absurd rfl hconcat | cases hop
  have happly : assign (.name namePos n) op e c s = (do
      let t ← applyTo bop place.type (compile e) e.pos
      storeValue place t e.pos false : Gen Unit) c (place.load c s).2 := by
    have htarget : target (.name namePos n) c s = (some place, s) := target_apply hplace hnames
    rw [assign, apply_bind, htarget]
    simp only [hop]
    cases hnames <;> rfl
  rw [happly] at hF ⊢
  have hF₂ := final_before c (walk_storeValue hnames _ _ _) hF
  have hF₁ := final_before c
    (walk_applyTo (typing_any _) bop place.type (walks_compile (typing_any _) e) e.pos) hF₂
  have hload := follows_load hs hm hknown hnames hF₁ steps
  refine hload.bind fun old ⟨hold, hpush⟩ => ?_
  have hready₁ : Ready x F σ c (place.load c s).2 := hready.walk (walk_load hnames.walks)
  rw [hnames.type, ← hold] at hF₂ hF ⊢
  have hfollows := follows_applyTo e.pos hbop he (simulates_compile e he).value hready₁ hpush.live hm
    hF₂ steps
  refine (Follows.after hpush.reach hfollows fun _ h => h).weaken (Nat.le_add_left ..) |>.bind
    fun v ⟨_, hv, hreplaces⟩ => ?_
  have happly' : (do
      let t ← applyTo bop old.type.static (compile e) e.pos
      storeValue place t e.pos false : Gen Unit) c (place.load c s).2 =
      storeValue place v.type.static e.pos false c
        (applyTo bop old.type.static (compile e) e.pos c (place.load c s).2).2 := by
    rw [← hv]
    rfl
  rw [happly'] at hF ⊢
  have hready₂ := hready₁.walk (walk_applyTo (typing_any _) bop old.type.static
    (walks_compile (typing_any _) e) e.pos)
  obtain ⟨st', hwrite, harrives⟩ := arrives_storeValue hready₂ hreplaces.live hm hstack hknown hnames hF
  rw [hwrite]
  exact harrives.after (hpush.reach.trans hreplaces.reach)

theorem updates_increment (namePos : Source.Position) (delta : Int32) (hr : x.lookup? σ n = some r) :
    Updates x F σ (increment (.name namePos n) delta) fun st =>
      st.read r >>= fun old =>
        applyBinary (if 0 < delta then .add else .sub) old (.int 1) >>= st.write r := by
  intro c s st m hready hs hm hstack hF steps
  obtain ⟨place, hplace, hnames⟩ := resolve_lookup hready.here hready.names hr
  have hknown := known_lookup hready.celled hr
  obtain ⟨bop, hbop⟩ : ∃ bop, (if 0 < delta then BinaryOp.add else .sub) = bop := ⟨_, rfl⟩
  have hone : bop = .add ∨ bop = .sub := by
    rw [← hbop]
    split
    · exact .inl rfl
    · exact .inr rfl
  have happly : increment (.name namePos n) delta c s = (if place.type = .int ∨ place.type = .unknown
      then (do
        place.load
        edit (·.loadInt 1)
        (opcodesOf bop).forM emit
        place.noteAssigned false
        place.store)
      else do
        let symbol := if 0 < delta then "++" else "--"
        report namePos (.badUnaryOperand symbol (← typeName place.type)) : Gen Unit) c s := by
    have htarget : target (.name namePos n) c s = (some place, s) := target_apply hplace hnames
    have hemit : (opcodesOf bop).forM emit = emit (if 0 < delta then .add else .sub) := by
      rw [← hbop]
      split <;> rfl
    rw [increment, apply_bind, htarget, hemit]
    cases hnames with
    | @cell k t slot hslot => cases t <;> rfl
    | @param i t index hindex => cases t <;> rfl
  rw [hbop]
  rw [happly, hnames.type] at hF ⊢
  cases hrt : r.type with
  | bool =>
    rw [hrt] at hF
    exact absurd hF (not_final_report hready.loud fun _ => rfl)
  | int =>
    rw [hrt, if_pos (.inl rfl)] at hF
    rw [if_pos (.inl rfl)]
    obtain ⟨s₁, hs₁⟩ : ∃ s₁, (place.load c s).2 = s₁ := ⟨_, rfl⟩
    obtain ⟨s₂, hs₂⟩ : ∃ s₂, (edit (·.loadInt (Value.int 1).word) c s₁).2 = s₂ :=
      ⟨_, rfl⟩
    obtain ⟨s₃, hs₃⟩ : ∃ s₃, ((opcodesOf bop).forM emit c s₂).2 = s₃ := ⟨_, rfl⟩
    have hrest : ((do
        place.load
        edit (·.loadInt 1)
        (opcodesOf bop).forM emit
        place.noteAssigned false
        place.store : Gen Unit) c s).2 = (place.store c (place.noteAssigned false c s₃).2).2 := by
      subst hs₁ hs₂ hs₃
      rfl
    rw [hrest] at hF ⊢
    have hops := plain_opcodesOf bop
    have hF₃ : Final F s₃ :=
      final_before c ((walk_noteAssigned false (by decide)).seq (walk_store hnames.walks)) hF
    have hF₂ : Final F s₂ :=
      final_before c (walk_emits (fun o ho => (hops o ho).1) fun _ _ _ => trivial) (hs₃ ▸ hF₃)
    have hF₁ : Final F s₁ := final_before c (.emission (.loadInt 1)) (hs₂ ▸ hF₂)
    refine (follows_load hs hm hknown hnames (hs₁ ▸ hF₁) steps).bind fun old ⟨hold, hpush⟩ => ?_
    rw [hs₁] at hpush
    have hload : Pushes F s₁ s₂ { m with stack := old.word :: m.stack } (.int 1) :=
      hs₂ ▸ pushes_loadInt c hpush.live (hs₂ ▸ hF₂)
    have ht : binaryType? bop old.type (Value.type (.int 1)) = some .int := by
      rw [hold, hrt]
      rcases hone with rfl | rfl <;> rfl
    have hreach := hpush.reach.trans hload.reach
    have hfollows := follows_opcodesOf (m := m) ht hload.live (hs₃ ▸ hF₃) steps
    rw [hs₃] at hfollows
    refine (Follows.after hreach hfollows fun _ h => h).weaken (Nat.le_add_left ..) |>.bind
      fun v ⟨hv, hlive, hreach'⟩ => ?_
    obtain ⟨st', hwrite, harrives⟩ := arrives_noted hlive hm hstack hknown hnames (hv.trans hrt.symm) hF
    rw [hwrite]
    exact harrives.after (hreach.trans hreach')

theorem Updates.point {g : Gen Unit} {u : Store → Except Halt Store} (h : Updates x F σ g u)
    (pos : Source.Position) : Updates x F σ (Lowering.point pos >>= fun _ => g) u := by
  intro c s st m hready hs hm hstack hF steps
  have hcode : (Lowering.point pos c s).2.draft.code = s.draft.code ∧
      (Lowering.point pos c s).2.draft.unreachable = s.draft.unreachable := code_point pos c s
  have hhere : here (Lowering.point pos c s).2 m = here s m := by rw [here, hcode.1, here]
  rw [← hhere]
  exact h (hready.walk (walk_point pos)) (hcode.2.trans hs) hm hstack hF steps

theorem Updates.realizes {g : Gen Unit} {u : Store → Except Halt Store} (h : Updates x F σ g u)
    (n : Nat) {c : Context}
    (hwalk : Walk c.program (fun _ => True) (fun _ => True) .assigns g fun _ => True) :
    Realizes x F n σ σ c g fun st => do return (.normal, ← u st) := by
  intro s hat hF
  refine ⟨hat.walk hwalk, fun st m hs hm hstack => ?_⟩
  exact (h hat.ready hs hm hstack hF n).bind fun st' h' => h'

/-- Assignments and increments of the core. -/
theorem updates_statement {stmt : Stmt} (h : coreUpdate x σ stmt) :
    Updates x F σ (statement stmt) fun st => (update x σ st stmt).getD (.error .meaningless) := by
  unfold coreUpdate at h
  split at h
  · rename_i pos namePos n op e
    simp only [Bool.and_eq_true, decide_eq_true_eq] at h
    obtain ⟨⟨hr, hconcat⟩, he⟩ := h
    obtain ⟨r, hr⟩ := Option.isSome_iff_exists.1 hr
    cases hop : compoundOperator? op with
    | none =>
      have hset : op = .set := by cases op <;> first | rfl | cases hop
      subst hset
      have hu := (updates_assign (F := F) namePos hr he).point pos
      simp only [update, hr, hop]
      exact hu
    | some bop =>
      have hu := (updates_compound (F := F) namePos hop hconcat hr he).point pos
      simp only [bind_assoc] at hu
      simp only [update, hr, hop]
      exact hu
  · rename_i pos namePos n delta
    obtain ⟨r, hr⟩ := Option.isSome_iff_exists.1 h
    have hu := (updates_increment (F := F) namePos delta hr).point pos
    simp only [update, hr]
    exact hu
  · cases h

end

/-! ## Jumps and returns -/

section

variable {x : Site} {F : Draft} {σ : Scope} {c : Context} (n : Nat)

theorem realizes_jump (kind : Option LoopKind) (exit : Bool) (pos : Source.Position) :
    Realizes x F n σ σ c (jump kind exit pos) fun st =>
      .ok (if exit then .break_ kind else .continue_ kind, st) := by
  intro s hat hF
  have hlabels := (frame_walk (c := c) (Walk.loopJump kind exit pos) s).draft.labels
  refine ⟨hat.still (quiet_jump kind exit pos c s (sees_any c s)).1 hlabels,
    fun st m hs hm hstack => ?_⟩
  have hzero : c.tryDepth = 0 := hat.ready.here.tryDepth
  have hjump : jump kind exit pos c s = (loopOf c kind).elim
      (report pos (.noEnclosingLoop exit ((kind.map (·.word)).getD "")))
      (fun frame => branch (if frame.tryDepth < c.tryDepth then .leave else .br)
        (if exit then frame.exit else frame.next)) c s := by
    have hread : (read : Gen Context) c s = (c, s) := rfl
    rw [jump, apply_bind, hread, loopOf]
    cases c.loops.find? fun f => kind.all (· = f.kind) <;> rfl
  cases hf : loopOf c kind with
  | none =>
    have happly : jump kind exit pos c s =
        report pos (.noEnclosingLoop exit ((kind.map (·.word)).getD "")) c s := by
      rw [hjump, hf, Option.elim_none]
    rw [happly] at hF
    exact absurd hF (not_final_report hat.ready.loud fun _ => rfl)
  | some f =>
    have happly : jump kind exit pos c s = branch .br (if exit then f.exit else f.next) c s := by
      rw [hjump, hf]
      simp only [Option.elim_some, hzero]
      rfl
    rw [happly] at hF ⊢
    have hlooped := hat.loops f (List.mem_of_find?_eq_some hf)
    -- both jumps are branches to labels that are bound for good
    have hleaves {l : Label} (hl : s.draft.Has l) (hbound : ∃ k, F.target? l = some k)
        (hF : Final F (branch .br l c s).2) :
        Leaves x F (here s m) (branch .br l c s).2 l st := by
      obtain ⟨k, hk⟩ := hbound
      exact ⟨Draft.targeted_branch _ hl, k, m, hk, hm, hstack, reach_jump hF rfl rfl hk⟩
    cases exit with
    | true => exact ⟨f, hf, hleaves hlooped.exit hlooped.exitBound hF⟩
    | false => exact ⟨f, hf, hleaves hlooped.next hlooped.nextBound hF⟩

theorem leaveMethod_apply (h : c.tryDepth = 0) (ret : StaticType) (s : State) :
    leaveMethod ret c s = emit .ret c s := by
  show (if c.tryDepth = 0 then _ else _ : Gen Unit) c s = _
  rw [if_pos h]

theorem reach_ret {s : State} {m : Memory} (hF : Final F (emit .ret c s).2) :
    Reach F.fetch 1 (here s m) (.returned m.stack) := by
  have happ : Draft.Appends ⟨.ret, .none⟩ s.draft (s.draft.emit .ret) := Draft.appends_emit _ rfl
  exact reach_return happ hF.within rfl rfl

theorem realizes_returnNone (pos : Source.Position) :
    Realizes x F n σ σ c (returnStatement none pos) fun st =>
      if x.method.ret = .void then .ok (.return_ none, st) else .error .meaningless := by
  intro s hat hF
  have hmethod := hat.ready.here.method
  by_cases hret : x.method.ret = .void
  · have happly : returnStatement none pos c s = emit .ret c s := by
      show (if c.method.ret = .void then _ else _ : Gen Unit) c s = _
      rw [hmethod, if_pos hret]
      exact leaveMethod_apply hat.ready.here.tryDepth _ s
    rw [happly] at hF ⊢
    refine ⟨hat.walk (.ret trivial), fun st m hs hm hstack => ?_⟩
    simp only [if_pos hret]
    have hreach := (reach_ret (m := m) hF).weaken (Nat.zero_le _)
    rw [hstack] at hreach
    exact ⟨hret, hreach⟩
  · have happly : returnStatement none pos c s =
        report pos (.returnValueRequired (c.program.typeName c.method.ret)) c s := by
      show (if c.method.ret = .void then _ else _ : Gen Unit) c s = _
      rw [if_neg (hmethod ▸ hret)]
      rfl
    rw [happly] at hF
    exact absurd hF (not_final_report hat.ready.loud fun _ => rfl)

theorem realizes_returnSome (pos : Source.Position) {e : Expr} (he : coreExpr x σ e) :
    Realizes x F n σ σ c (returnStatement (some e) pos) (fun st => do
      let v ← eval x σ st e
      if v.type.static = x.method.ret then return (.return_ (some v), st)
      else throw .meaningless) := by
  intro s hat hF
  have hmethod := hat.ready.here.method
  rcases hat.ready.here.ret with hret | ⟨t, hret⟩
  · have happly : returnStatement (some e) pos c s = (report pos (.returnValueInVoid c.method.name)
        >>= fun _ => discard (evaluate e) : Gen Unit) c s := by
      show (if c.method.ret = .void then _ else _ : Gen Unit) c s = _
      rw [hmethod, if_pos hret]
    rw [happly] at hF
    have hF₁ : Final F (report pos (.returnValueInVoid c.method.name) c s).2 :=
      final_before c (walk_evaluate (typing_any _) e).discard hF
    exact absurd hF₁ (not_final_report hat.ready.loud fun _ => rfl)
  · have happly : returnStatement (some e) pos c s = emit .ret c
        (coerce ((compile e).value c s).1 t.static e.pos c ((compile e).value c s).2).2 := by
      show (if c.method.ret = .void then _ else _ : Gen Unit) c s = _
      rw [hmethod, hret, if_neg (by cases t <;> decide)]
      exact leaveMethod_apply hat.ready.here.tryDepth _ _
    rw [happly] at hF ⊢
    have hF₂ := final_before c (.ret trivial) hF
    have hF₁ := final_before c (walk_coerce ..) hF₂
    have hat₁ := hat.walk (walks_compile (typing_any _) e).value
    refine ⟨(hat₁.walk (walk_coerce ..)).walk (.ret trivial), fun st m hs hm hstack => ?_⟩
    refine ((simulates_compile e he).value hat.ready hs hm hF₁ n).bind fun v ⟨hv, hpush⟩ => ?_
    rw [type_value he hat.ready hv] at hF₂ hF ⊢
    obtain ⟨htype, hcoerce⟩ := coerce_static hat.ready.loud hF₂
    rw [hcoerce] at hF ⊢
    have hvret : v.type.static = x.method.ret := by rw [htype, hret]
    rw [if_pos hvret]
    have hreach := (hpush.reach.trans (reach_ret hF)).weaken (Nat.zero_le _)
    rw [hstack] at hreach
    exact ⟨hvret, hreach⟩

end

end CilScope.Core
