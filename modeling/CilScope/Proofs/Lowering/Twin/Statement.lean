import CilScope.Proofs.Lowering.Twin.Expression

/-!
# Statements and methods in two runs

What `twin_compile` says of expressions holds of statements, and so of the bodies of methods
(`same_methodBody`). Here the labels of the loops around and of the common exit of returns are paired, too.
-/

namespace CilScope.Lowering

open Source (Expr Stmt)

variable {v : Variation} {b : Bool} {ρ : Pairing}

theorem same_evaluate (e : Expr) : Same v b ρ (evaluate e) (evaluate (e.respell v.spell)) :=
  (twin_compile v e).value

/-! ## Assignments -/

theorem isLiteral_respell (f : String → String) (e : Expr) : isLiteral (e.respell f) = isLiteral e := by
  cases e <;> rfl

/-- The places that the two runs assign to, if there are any. -/
abbrev TargetTwin (v : Variation) : Option Place → Option Place → Prop := Option.Rel (Place.Twin v)

theorem paired_staticTarget (t : StaticType) (name : String) (pos : Source.Position) :
    Paired v b ρ (staticTarget t name pos) (staticTarget t (v.spell name) pos) fun _ => TargetTwin v := by
  cases t with
  | class_ index =>
    refine Paired.read_bind fun ρ c c' _ hc => ?_
    rw [hc.program.fieldOf?_eq (v.spelling.idem name)]
    cases c.program.fieldOf? index name with
    | some f =>
      refine .ite Iff.rfl (fun _ => .pure fun _ _ => .some (.field f .none)) fun _ => ?_
      exact (same_report_respell pos (.instanceRequired name)).seq (.pure fun _ _ => .none)
    | none => exact (same_noMember _ name pos).discard.seq (.pure fun _ _ => .none)
  | void | bool | int | string | object | null | lib | array | unknown =>
    exact (same_report pos rfl).seq (.pure fun _ _ => .none)

theorem paired_instanceTarget {receiver receiver' : ExprCode} (h : receiver.Twin v receiver')
    (name : String) (pos : Source.Position) :
    Paired v b ρ (instanceTarget receiver name pos) (instanceTarget receiver' (v.spell name) pos)
      fun _ => TargetTwin v := by
  refine (paired_probe h.value).same_bind fun ρ t _ => ?_
  cases t with
  | class_ index =>
    refine Paired.read_bind fun ρ c c' _ hc => ?_
    rw [hc.program.fieldOf?_eq (v.spelling.idem name)]
    cases c.program.fieldOf? index name with
    | some f =>
      refine .pure fun _ _ => .some (.field f ?_)
      show Receiver.Twin v (if f.isStatic then _ else _) (if f.isStatic then _ else _)
      split
      · exact .none
      · exact .expr h
    | none => exact (same_noMember _ name pos).discard.seq (.pure fun _ _ => .none)
  | unknown => exact h.value.discard.seq (.pure fun _ _ => .none)
  | void | bool | int | string | object | null | lib | array =>
    exact (same_report pos rfl).seq (.pure fun _ _ => .none)

theorem paired_target (e : Expr) :
    Paired v b ρ (target e) (target (e.respell v.spell)) fun _ => TargetTwin v := by
  cases e with
  | name pos name =>
    refine (paired_resolveName name).bind fun _ m m' _ hm => ?_
    cases hm with
    | place hp => exact (hp.checkInstance name pos).seq (.pure fun _ _ => .some hp)
    | nothing => exact (same_report_respell pos (.nameNotFound name)).seq (.pure fun _ _ => .none)
    | methods | type => exact (same_report pos rfl).seq (.pure fun _ _ => .none)
  | member pos receiver name =>
    refine (same_asType? receiver).same_bind fun _ t _ => ?_
    cases t with
    | some t => exact paired_staticTarget t name pos
    | none => exact paired_instanceTarget (twin_compile v receiver) name pos
  | int | str | bool | null | this | typeKeyword | call | new | index | unary | binary =>
    exact (same_report _ rfl).seq (.pure fun _ _ => .none)

theorem same_loadForUpdate {p p' : Place} (h : p.Twin v p') :
    Same v b ρ (loadForUpdate p) (loadForUpdate p') := by
  refine h.loadReceiver.seq ?_
  rw [h.hasReceiver_eq]
  split
  · exact (same_emit .dup).seq h.load
  · exact h.load

theorem same_assign (to_ : Expr) (op : Source.AssignOp) (value : Expr) :
    Same v b ρ (assign to_ op value) (assign (to_.respell v.spell) op (value.respell v.spell)) := by
  refine (paired_target to_).bind fun ρ p p' _ hp => ?_
  cases hp with
  | none => exact (same_evaluate value).discard
  | some hp =>
    dsimp only
    rw [Expr.pos_respell, hp.type_eq, isLiteral_respell]
    cases compoundOperator? op with
    | none =>
      refine hp.loadReceiver.seq ((same_evaluate value).same_bind fun _ t _ => ?_)
      exact (same_coerce t _ value.pos).seq ((hp.noteAssigned _).seq hp.store)
    | some op =>
      refine (same_loadForUpdate hp).seq ?_
      refine (same_applyTo op _ (twin_compile v value) value.pos).same_bind fun _ t _ => ?_
      exact (same_coerce t _ value.pos).seq ((hp.noteAssigned false).seq hp.store)

theorem same_increment (to_ : Expr) (delta : Int32) :
    Same v b ρ (increment to_ delta) (increment (to_.respell v.spell) delta) := by
  refine (paired_target to_).bind fun ρ p p' _ hp => ?_
  cases hp with
  | none => exact .done
  | some hp =>
    dsimp only
    rw [hp.type_eq]
    refine .ite Iff.rfl (fun _ => ?_) fun _ => ?_
    · refine (same_loadForUpdate hp).seq ((same_loadInt 1).seq ((same_emit _).seq ?_))
      exact (hp.noteAssigned false).seq hp.store
    · refine (paired_typeName _).bind fun _ _ _ _ ht => ?_
      rw [Expr.pos_respell]
      exact same_report _ (by rw [Cause.respell, Cause.respell, ht])

/-! ## Local variables -/

theorem same_inferredType (init : Option Expr) (pos : Source.Position) :
    Same v b ρ (inferredType init pos) (inferredType (init.map (·.respell v.spell)) pos) := by
  refine Paired.read_bind fun ρ c c' _ hc => same_language.same_bind fun ρ language _ => ?_
  rw [hc.options]
  dsimp only [CodeOptions.vary]
  cases language with
  | csharp =>
    cases init with
    | none => exact .ite Iff.rfl (fun _ => .done) fun _ => same_refuse pos rfl
    | some init =>
      refine .ite Iff.rfl (fun _ => ?_) fun _ => same_refuse pos rfl
      refine (paired_probe (same_evaluate init)).same_bind fun _ t _ => ?_
      rw [Expr.pos_respell]
      cases t with
      | null | void => exact same_refuse init.pos rfl
      | bool | int | string | object | lib | class_ | array | unknown => exact .done
  | visualBasic =>
    cases init with
    | none => exact .done
    | some init =>
      refine .ite Iff.rfl (fun _ => ?_) fun _ => .done
      refine (paired_probe (same_evaluate init)).same_bind fun _ t _ => ?_
      cases t <;> exact .done

theorem same_localStatement (name : String) (type : Option Source.TypeUse) (init : Option Expr)
    (pos : Source.Position) :
    Same v b ρ (localStatement name type init pos)
      (localStatement (v.spell name) (type.map (·.respell v.spell)) (init.map (·.respell v.spell)) pos) := by
  cases type
  case' some type => refine (same_resolveType type).same_bind fun _ t _ => ?_
  case' none => refine (same_inferredType init pos).same_bind fun _ t _ => ?_
  -- however the type is found, what is done with it is the same
  all_goals
    refine (paired_declareLocal name t pos).bind fun _ l l' _ hl => ?_
    subst hl
    cases l with
    | none => exact .done
    | some l =>
      cases init with
      | none => exact .done
      | some init =>
        refine (same_evaluate init).same_bind fun _ source _ => ?_
        rw [Expr.pos_respell, isLiteral_respell]
        exact (same_coerce source t init.pos).seq
          ((same_storeLocal l.slot).seq (same_markAssigned l.slot _))

/-! ## Jumps -/

theorem same_jump (kind : Option Source.LoopKind) (exit : Bool) (pos : Source.Position) :
    Same v true ρ (jump kind exit pos) (jump kind exit pos) := by
  refine Paired.read_bind fun ρ c c' _ hc => ?_
  -- the loop that is meant is found at the same depth
  have hfind {loops loops' : List LoopFrame} (hloops : List.Forall₂ (LoopFrame.Twin ρ) loops loops') :
      Option.Rel (LoopFrame.Twin ρ) (loops.find? fun frame => kind.all (· = frame.kind))
        (loops'.find? fun frame => kind.all (· = frame.kind)) := by
    induction hloops with
    | nil => exact .none
    | @cons x x' _ _ hx _ ih =>
      rw [List.find?_cons, List.find?_cons, hx.kind]
      cases kind.all (· = x.kind) with
      | true => exact .some hx
      | false => exact ih
  have hframe := hfind (hc.loops rfl)
  rw [hc.tryDepth]
  generalize c.loops.find? (fun frame => kind.all (· = frame.kind)) = frame at hframe ⊢
  generalize c'.loops.find? (fun frame => kind.all (· = frame.kind)) = frame' at hframe ⊢
  cases hframe with
  | none => exact same_report pos rfl
  | some hx =>
    dsimp only
    rw [hx.tryDepth]
    cases exit with
    | true => exact same_branch _ hx.exit
    | false => exact same_branch _ hx.next

theorem paired_openExit (ret : StaticType) :
    Paired v b ρ (openExit ret) (openExit ret) fun ρ' e e' => ρ' e.1 e'.1 ∧ e'.2 = e.2 := by
  refine paired_newLabel.bind fun ρ' l l' _ hl => .ite Iff.rfl (fun _ => ?_) fun _ => ?_
  · exact .pure fun ρ'' hρ => ⟨hρ _ _ hl, rfl⟩
  · refine (same_typeSig ret).same_bind fun ρ'' sig hρ => ?_
    have hslot : Same v b ρ'' (make (·.declareLocal sig none)) (make (·.declareLocal sig none)) := by
      refine paired_make fun ρ₁ d d' _ hd => ?_
      have hdeclared := hd.declareLocal sig none
      rw [Option.map_none, ite_self] at hdeclared
      exact ⟨ρ₁, le_rfl, hdeclared.1, hdeclared.2.symm⟩
    exact hslot.same_bind fun _ slot hρ' => .pure fun _ hρ'' => ⟨hρ'' _ _ (hρ' _ _ (hρ _ _ hl)), rfl⟩

theorem paired_sharedExit (ret : StaticType) :
    Paired v true ρ (sharedExit ret) (sharedExit ret) fun ρ' e e' => ρ' e.1 e'.1 ∧ e'.2 = e.2 := by
  intro ρ₁ c c' s s' hρ₁ hc hs
  rw [sharedExit_apply, sharedExit_apply]
  have hexit := hs.exit rfl
  cases he : s.exit with
  | some e =>
    rw [he] at hexit
    cases he' : s'.exit with
    | none => rw [he'] at hexit; cases hexit
    | some e' =>
      rw [he'] at hexit
      cases hexit with
      | some hexit => exact ⟨ρ₁, le_rfl, hs, hexit, nofun⟩
  | none =>
    rw [he] at hexit
    cases he' : s'.exit with
    | some e' => rw [he'] at hexit; cases hexit
    | none =>
      obtain ⟨ρ₂, hρ₂, hs₂, hR, -⟩ := paired_openExit ret ρ₁ c c' s s' le_rfl hc hs
      exact ⟨ρ₂, hρ₂, { hs₂ with exit := fun _ => .some hR }, hR, nofun⟩

theorem same_leaveMethod (ret : StaticType) : Same v true ρ (leaveMethod ret) (leaveMethod ret) := by
  refine Paired.read_bind fun ρ c c' _ hc => ?_
  refine .ite (by rw [hc.tryDepth]) (fun _ => same_emit .ret) fun _ => ?_
  refine (paired_sharedExit ret).bind fun ρ e e' _ he => ?_
  obtain ⟨l, slot⟩ := e
  obtain ⟨l', slot'⟩ := e'
  obtain ⟨hl, rfl⟩ := he
  cases slot' with
  | none => exact same_branch .leave hl
  | some slot => exact (same_storeLocal slot).seq (same_branch .leave hl)

theorem same_returnStatement (value : Option Expr) (pos : Source.Position) :
    Same v true ρ (returnStatement value pos) (returnStatement (value.map (·.respell v.spell)) pos) := by
  refine Paired.read_bind fun ρ c c' _ hc => ?_
  rw [hc.method]
  cases value with
  | some value =>
    refine .ite Iff.rfl (fun _ => ?_) fun _ => ?_
    · exact (same_report_respell pos (.returnValueInVoid c.method.name)).seq
        (same_evaluate value).discard
    · refine (same_evaluate value).same_bind fun _ t _ => ?_
      rw [Expr.pos_respell]
      exact (same_coerce t _ value.pos).seq (same_leaveMethod _)
  | none =>
    refine .ite Iff.rfl (fun _ => same_leaveMethod _) fun _ => ?_
    refine (paired_typeName _).bind fun _ _ _ _ ht => same_report pos ?_
    rw [Cause.respell, Cause.respell, ht]

theorem same_throwStatement (value : Option Expr) (pos : Source.Position) :
    Same v b ρ (throwStatement value pos) (throwStatement (value.map (·.respell v.spell)) pos) := by
  cases value with
  | some value =>
    refine (same_evaluate value).same_bind fun ρ t _ => ?_
    rw [Expr.pos_respell]
    split
    · exact same_emit .throw
    · exact (same_report value.pos rfl).seq (same_emit .throw)
  | none =>
    refine Paired.read_bind fun ρ c c' _ hc => ?_
    exact .ite (by rw [hc.catchDepth]) (fun _ => same_emit .rethrow) fun _ => same_report pos rfl

/-! ## Compound statements -/

theorem same_ifStatement {cond cond' : ExprCode} (hcond : cond.Twin v cond') {then_ then_' : Gen Unit}
    (hthen : ∀ {ρ}, Same v true ρ then_ then_') {else_ else_' : Option (Gen Unit)}
    (helse : Option.Rel (fun g g' => ∀ {ρ}, Same v true ρ g g') else_ else_') :
    Same v true ρ (ifStatement cond then_ else_) (ifStatement cond' then_' else_') := by
  refine paired_newLabel.bind fun ρ otherwise otherwise' _ hotherwise => ?_
  refine (hcond.jump false hotherwise).seq ((same_nested hthen).seq ?_)
  cases helse with
  | none => exact same_mark hotherwise
  | some helse =>
    refine paired_newLabel.bind fun ρ stop stop' hρ hstop => same_isReachable.same_bind fun ρ' r hρ' => ?_
    have hotherwise := hρ' _ _ (hρ _ _ hotherwise)
    have hstop := hρ' _ _ hstop
    have hrest := (same_mark (b := true) hotherwise).seq ((same_nested helse).seq (same_mark hstop))
    cases r with
    | true => exact (same_branch .br hstop).seq hrest
    | false => exact hrest

theorem same_inLoop (kind : Source.LoopKind) {exit exit' next next' : Label} (hexit : ρ exit exit')
    (hnext : ρ next next') {g g' : Gen Unit} (hg : Same v true ρ g g') :
    Same v true ρ (inLoop kind exit next g) (inLoop kind exit' next' g') :=
  .withReader (fun _ _ _ hρ hc => { hc with
    loops := fun hb => .cons ⟨rfl, hρ _ _ hexit, hρ _ _ hnext, hc.tryDepth⟩ (hc.loops hb) }) hg

theorem same_loopTest (cond : Option Expr) {exit exit' : Label} (hexit : ρ exit exit') :
    Same v b ρ (loopTest cond exit) (loopTest (cond.map (·.respell v.spell)) exit') := by
  cases cond with
  | none => exact .done
  | some e =>
    have hjump := (twin_compile v e).jump (b := b) false hexit
    cases e with
    | bool pos value =>
      cases value with
      | true => exact .done
      | false => exact hjump
    | int | str | null | this | name | typeKeyword | member | call | new | index | unary | binary =>
      exact hjump

theorem same_whileLoop (kind : Source.LoopKind) (cond : Option Expr) {body body' : Gen Unit}
    (hbody : ∀ {ρ}, Same v true ρ body body') {step step' : Option (Gen Unit)}
    (hstep : Option.Rel (fun g g' => ∀ {ρ}, Same v true ρ g g') step step') :
    Same v true ρ (whileLoop kind cond body step)
      (whileLoop kind (cond.map (·.respell v.spell)) body' step') := by
  have hnext {ρ : Pairing} {head head' : Label} (hhead : ρ head head') :
      Paired v true ρ (nextLabel step head) (nextLabel step' head') fun ρ' l l' => ρ' l l' := by
    cases hstep with
    | none => exact .pure fun _ hρ => hρ _ _ hhead
    | some => exact paired_newLabel
  have hround {ρ : Pairing} {next next' : Label} (hl : ρ next next') :
      Same v true ρ (loopStep step next) (loopStep step' next') := by
    cases hstep with
    | none => exact .done
    | some hstep => exact (same_mark hl).seq hstep
  rw [whileLoop_eq, whileLoop_eq]
  refine paired_newLabel.bind fun ρ head head' _ hhead => ?_
  refine paired_newLabel.bind fun ρ exit exit' hρ hexit => ?_
  replace hhead := hρ _ _ hhead
  refine (hnext hhead).bind fun ρ next next' hρ hnext => ?_
  replace hhead := hρ _ _ hhead
  replace hexit := hρ _ _ hexit
  refine (same_mark hhead).seq ((same_loopTest cond hexit).seq ?_)
  refine (same_inLoop kind hexit hnext (same_nested hbody)).seq ((hround hnext).seq ?_)
  exact (same_branch .br hhead).seq (same_mark hexit)

theorem same_doLoop {body body' : Gen Unit} (hbody : ∀ {ρ}, Same v true ρ body body') (cond : Expr)
    (until_ : Bool) :
    Same v true ρ (doLoop body cond until_) (doLoop body' (cond.respell v.spell) until_) := by
  refine paired_newLabel.bind fun ρ head head' _ hhead => ?_
  refine paired_newLabel.bind fun ρ exit exit' hρ hexit => ?_
  replace hhead := hρ _ _ hhead
  refine paired_newLabel.bind fun ρ next next' hρ hnext => ?_
  replace hhead := hρ _ _ hhead
  replace hexit := hρ _ _ hexit
  refine (same_mark hhead).seq ((same_inLoop .do_ hexit hnext (same_nested hbody)).seq ?_)
  exact (same_mark hnext).seq (((twin_compile v cond).jump (!until_) hhead).seq (same_mark hexit))

theorem same_leaveTo {stop stop' : Label} (hstop : ρ stop stop') :
    Same v b ρ (leaveTo stop) (leaveTo stop') := by
  refine same_isReachable.same_bind fun _ r hρ => ?_
  cases r with
  | true => exact same_branch .leave (hρ _ _ hstop)
  | false => exact .done

theorem same_caughtType (head : Source.CatchHead) :
    Same v b ρ (caughtType head) (caughtType (head.respell v.spell)) := by
  obtain ⟨pos, type, var⟩ := head
  cases type with
  | some t =>
    refine (same_resolveType t).same_bind fun ρ t _ => ?_
    split
    · exact .done
    · exact (same_report pos rfl).seq .done
  | none => exact same_language.same_bind fun _ language _ => .done

theorem same_catchHandler (region : Nat) (head : Source.CatchHead) {body body' : Gen Unit}
    (hbody : ∀ {ρ}, Same v true ρ body body') {stop stop' : Label} (hstop : ρ stop stop') :
    Same v true ρ (catchHandler region head body stop)
      (catchHandler region (head.respell v.spell) body' stop') := by
  refine (same_caughtType head).same_bind fun ρ caught hρ => ?_
  replace hstop := hρ _ _ hstop
  refine (same_classToken _).same_bind fun ρ token hρ => ?_
  replace hstop := hρ _ _ hstop
  refine (same_beginHandler region (.catch_ token)).same_bind fun ρ handler hρ => ?_
  replace hstop := hρ _ _ hstop
  refine Paired.seq (.withReader (fun _ _ _ _ hc => ?_) (same_inScope ?_))
    ((same_leaveTo hstop).seq (same_endHandler handler))
  · exact { hc with catchDepth := congrArg (· + 1) hc.catchDepth }
  have hpop {ρ : Pairing} : Same v true ρ (do emit .pop; blockMark; body)
      (do emit .pop; blockMark; body') :=
    (same_emit .pop).seq (same_blockMark.seq hbody)
  obtain ⟨pos, type, var⟩ := head
  cases var with
  | none => exact hpop
  | some name =>
    refine (paired_declareLocal name caught pos).bind fun ρ l l' _ hl => ?_
    subst hl
    cases l with
    | none => exact hpop
    | some l => exact (same_storeLocal l.slot).seq (same_blockMark.seq hbody)

/-- The handlers of the two runs. -/
abbrev HandlerTwin (v : Variation) : Option (Source.CatchHead × Gen Unit) →
    Option (Source.CatchHead × Gen Unit) → Prop :=
  Option.Rel fun h h' => h'.1 = h.1.respell v.spell ∧ ∀ {ρ}, Same v true ρ h.2 h'.2

theorem same_tryStatement {body body' : Gen Unit} (hbody : ∀ {ρ}, Same v true ρ body body')
    {handler handler' : Option (Source.CatchHead × Gen Unit)} (hhandler : HandlerTwin v handler handler')
    {finally_ finally_' : Option (Gen Unit)}
    (hfinally : Option.Rel (fun g g' => ∀ {ρ}, Same v true ρ g g') finally_ finally_') :
    Same v true ρ (tryStatement body handler finally_) (tryStatement body' handler' finally_') := by
  refine paired_newLabel.bind fun ρ stop stop' _ hstop => ?_
  refine Paired.seq (.withReader (fun _ _ _ _ hc => ?_) ?_) (same_mark hstop)
  · exact { hc with tryDepth := congrArg (· + 1) hc.tryDepth }
  -- what stands behind the protected body is `last`, in both shapes of the statement
  have hbare {ρ : Pairing} (hstop : ρ stop stop') {last last' : Gen Unit}
      (hlast : ∀ {ρ}, Same v true ρ last last') :
      Same v true ρ (do nested body; leaveTo stop; last) (do nested body'; leaveTo stop'; last') :=
    (same_nested hbody).seq ((same_leaveTo hstop).seq hlast)
  have hcaught {ρ : Pairing} (hstop : ρ stop stop') {last last' : Gen Unit}
      (hlast : ∀ {ρ}, Same v true ρ last last') {head : Source.CatchHead} {g g' : Gen Unit}
      (hg : ∀ {ρ}, Same v true ρ g g') : Same v true ρ (do
        let region ← make Draft.beginTry
        nested body
        leaveTo stop
        catchHandler region head g stop
        last) (do
        let region ← make Draft.beginTry
        nested body'
        leaveTo stop'
        catchHandler region (head.respell v.spell) g' stop'
        last') := by
    refine same_beginTry.same_bind fun ρ region hρ => ?_
    replace hstop := hρ _ _ hstop
    refine (same_nested hbody).seq ((same_leaveTo hstop).seq ?_)
    exact (same_catchHandler region head hg hstop).seq hlast
  cases hfinally with
  | none =>
    cases hhandler with
    | none => exact hbare hstop .done
    | @some h h' hh =>
      obtain ⟨head, g⟩ := h
      obtain ⟨head', g'⟩ := h'
      obtain ⟨rfl, hg⟩ := hh
      exact hcaught hstop .done hg
  | @some g g' hg =>
    have hend (outer : Nat) {ρ : Pairing} : Same v true ρ (do
        let handler ← make (·.beginHandler outer .finally_)
        nested g
        emit .endfinally
        edit (·.endHandler handler)) (do
        let handler ← make (·.beginHandler outer .finally_)
        nested g'
        emit .endfinally
        edit (·.endHandler handler)) := by
      refine (same_beginHandler outer .finally_).same_bind fun ρ handler _ => ?_
      exact (same_nested hg).seq ((same_emit _).seq (same_endHandler handler))
    cases hhandler with
    | none => exact same_beginTry.same_bind fun ρ outer hρ => hbare (hρ _ _ hstop) (hend outer)
    | @some h h' hh =>
      obtain ⟨head, g⟩ := h
      obtain ⟨head', g'⟩ := h'
      obtain ⟨rfl, hg⟩ := hh
      exact same_beginTry.same_bind fun ρ outer hρ => hcaught (hρ _ _ hstop) (hend outer) hg

mutual

/-- **The code of a statement goes together with that of the statement in another spelling.** -/
theorem same_statement (v : Variation) : ∀ (s : Stmt) {ρ : Pairing},
    Same v true ρ (statement s) (statement (s.respell v.spell))
  | .local_ pos name type init, _ => (same_point pos).seq (same_localStatement name type init pos)
  | .assign pos to_ op value, _ => (same_point pos).seq (same_assign to_ op value)
  | .increment pos to_ delta, _ => (same_point pos).seq (same_increment to_ delta)
  | .expr pos e, _ => (same_point pos).seq <| (same_evaluate e).same_bind fun _ _ _ =>
    .ite Iff.rfl (fun _ => same_emit .pop) fun _ => .done
  | .if_ pos cond then_ none, _ =>
    (same_point pos).seq (same_ifStatement (twin_compile v cond) (same_statements v then_) .none)
  | .if_ pos cond then_ (some else_), _ =>
    (same_point pos).seq (same_ifStatement (twin_compile v cond) (same_statements v then_)
      (.some (same_statements v else_)))
  | .while_ pos kind cond body none, _ =>
    (same_point pos).seq (same_whileLoop kind cond (same_statements v body) .none)
  | .while_ pos kind cond body (some step), _ =>
    (same_point pos).seq (same_whileLoop kind cond (same_statements v body)
      (.some (same_statement v step)))
  | .doWhile pos body cond until_, _ =>
    (same_point pos).seq (same_doLoop (same_statements v body) cond until_)
  | .break_ pos kind, _ => (same_point pos).seq (same_jump kind true pos)
  | .continue_ pos kind, _ => (same_point pos).seq (same_jump kind false pos)
  | .return_ pos value, _ => (same_point pos).seq (same_returnStatement value pos)
  | .throw_ pos value, _ => (same_point pos).seq (same_throwStatement value pos)
  | .try_ pos body none none, _ =>
    (same_point pos).seq (same_tryStatement (same_statements v body) .none .none)
  | .try_ pos body none (some last), _ =>
    (same_point pos).seq (same_tryStatement (same_statements v body) .none
      (.some (same_statements v last)))
  | .try_ pos body (some (_, handler)) none, _ =>
    (same_point pos).seq (same_tryStatement (same_statements v body)
      (.some ⟨rfl, same_statements v handler⟩) .none)
  | .try_ pos body (some (_, handler)) (some last), _ =>
    (same_point pos).seq (same_tryStatement (same_statements v body)
      (.some ⟨rfl, same_statements v handler⟩) (.some (same_statements v last)))
  | .block _ body, _ => same_inScope (same_statements v body)

theorem same_statements (v : Variation) : ∀ (ss : List Stmt) {ρ : Pairing},
    Same v true ρ (statements ss) (statements (Stmt.respellAll v.spell ss))
  | [], _ => .done
  | s :: rest, _ => (same_statement v s).seq (same_statements v rest)

end

/-! ## Methods -/

theorem same_finalReturn (decl : Source.MethodDecl) :
    Same v b ρ (finalReturn decl) (finalReturn (decl.respell v.spell)) := by
  refine Paired.read_bind fun ρ c c' _ hc => same_isReachable.same_bind fun ρ r _ => ?_
  refine .ite Iff.rfl (fun _ => (same_point _).seq ?_) fun _ => .done
  rw [hc.method]
  refine .ite Iff.rfl (fun _ => same_blockMark.seq (same_emit .ret)) fun _ => ?_
  exact (same_report_respell decl.pos (.notAllPathsReturn c.method.name)).seq
    ((same_loadDefault _).seq (same_emit .ret))

theorem same_commonExit : Same v true ρ commonExit commonExit := by
  refine Paired.get_bind fun ρ s s' _ hs => ?_
  have hexit := hs.exit rfl
  generalize s.exit = e at hexit ⊢
  generalize s'.exit = e' at hexit ⊢
  cases hexit with
  | none => exact .done
  | @some e e' he =>
    obtain ⟨l, slot⟩ := e
    obtain ⟨l', slot'⟩ := e'
    obtain ⟨hl, rfl⟩ := he
    refine (same_mark hl).seq ?_
    cases slot' with
    | none => exact same_emit .ret
    | some slot => exact (same_loadLocal slot).seq (same_emit .ret)

theorem same_initializeField (f : Field) :
    Same v b ρ (initializeField f) (initializeField (f.respell v.spell)) := by
  obtain ⟨⟨name, use, access, isStatic', init, pos⟩, type, isStatic, visibility, row⟩ := f
  cases init with
  | none => exact .done
  | some init =>
    have hstore {ρ : Pairing} : Same v b ρ (do
        coerce (← evaluate init) type init.pos
        edit (·.emitToken (if isStatic then .stsfld else .stfld) (.ofRow .field row))) (do
        coerce (← evaluate (init.respell v.spell)) type (init.respell v.spell).pos
        edit (·.emitToken (if isStatic then .stsfld else .stfld) (.ofRow .field row))) := by
      rw [Expr.pos_respell]
      exact (same_evaluate init).same_bind fun _ t _ =>
        (same_coerce t type init.pos).seq (same_emitToken _ _)
    refine (same_point pos).seq ?_
    cases isStatic with
    | true => exact hstore
    | false => exact (same_loadArg 0).seq hstore

theorem same_initializeFields (static_ : Bool) :
    Same v b ρ (initializeFields static_) (initializeFields static_) := by
  refine Paired.read_bind fun ρ c c' _ hc => ?_
  have hfields : (c'.program.membersOf c'.owner).fields.filter (·.isStatic = static_) =
      ((c.program.membersOf c.owner).fields.filter (·.isStatic = static_)).map (·.respell v.spell) := by
    rw [hc.owner, hc.program.membersOf_eq, Members.respell, List.filter_map]
    rfl
  rw [hfields]
  refine Paired.forM (List.forall₂_map_right_iff.2 (List.forall₂_same.2 fun _ _ => rfl)) fun f f' hf => ?_
  rw [← hf]
  exact same_initializeField f

theorem same_ctorBody : Same v b ρ ctorBody ctorBody := by
  have hbase {ρ : Pairing} : Same v b ρ (do
      edit (·.loadArg 0)
      let token ← methodToken .objectCtor
      edit (·.emitCall .call token 1 0)) (do
      edit (·.loadArg 0)
      let token ← methodToken .objectCtor
      edit (·.emitCall .call token 1 0)) :=
    (same_loadArg 0).seq ((same_methodToken _).same_bind fun _ token _ => same_emitCallToken _ token _ _)
  have hend {ρ : Pairing} : Same v b ρ (do blockMark; emit .ret) (do blockMark; emit .ret) :=
    same_blockMark.seq (same_emit .ret)
  refine same_language.same_bind fun ρ language _ => ?_
  cases language with
  | csharp => exact (same_initializeFields false).seq (hbase.seq hend)
  | visualBasic => exact hbase.seq ((same_initializeFields false).seq hend)

/-- **The bodies of a method in the two runs go together.** -/
theorem same_methodBody : Same v true ρ methodBody methodBody := by
  refine Paired.read_bind fun ρ c c' _ hc => ?_
  rw [hc.method]
  obtain ⟨name, ret, params, paramNames, isStatic, visibility, origin, row⟩ := c.method
  cases origin with
  | declared decl =>
    show Same v true ρ (declaredBody decl) (declaredBody (decl.respell v.spell))
    rw [declaredBody_eq, declaredBody_eq]
    refine Paired.seq ((same_point _).seq (same_blockMark.seq ?_)) same_commonExit
    exact (same_inScope (same_statements v decl.body)).seq (same_finalReturn decl)
  | ctor => exact same_ctorBody
  | cctor => exact (same_initializeFields true).seq (same_emit .ret)

end CilScope.Lowering
