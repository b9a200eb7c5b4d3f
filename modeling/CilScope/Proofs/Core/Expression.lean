import CilScope.Proofs.Core.Operators

/-!
# Expressions of the core

The code of an expression leaves its value on the stack, and the code of a condition jumps when the
condition comes out as asked for. Conditions have code of their own: a conjunction jumps over its
right operand, a negation jumps the other way, and optimized code branches on a comparison without
making a truth value of it. `simulates_compile` shows both of all expressions of the core, by
recursion on the expression.
-/

namespace CilScope.Core

open Source (Expr BinaryOp UnaryOp)
open Machine (Memory Status Reach)
open Lowering

/-! ## What is shown -/

/-- Between `s` and `s'` stands code that pushes `v`. -/
structure Pushes (F : Draft) (s s' : State) (m : Memory) (v : Value) : Prop where
  live : Live s'
  reach : Reach F.fetch 0 (here s m) (here s' { m with stack := v.word :: m.stack })

/-- From `a` the machine jumps to `l`, which is bound at `k`, if `v` is `w`, else it comes to the end
of `s'`. -/
structure Jumps (F : Draft) (l : Label) (k : Nat) (w : Bool) (a : Status Nat) (s' : State)
    (m : Memory) (v : Bool) : Prop where
  taken : v = w → s'.draft.Targeted l ∧ Reach F.fetch 1 a (.running k m)
  passed : v ≠ w → Live s' ∧ Reach F.fetch 0 a (here s' m)

theorem Jumps.after {F : Draft} {l : Label} {k j : Nat} {w v : Bool} {a b : Status Nat} {s' : State}
    {m : Memory} (hab : Reach F.fetch j a b) (h : Jumps F l k w b s' m v) :
    Jumps F l k w a s' m v where
  taken := fun hv => ⟨(h.taken hv).1, (hab.trans (h.taken hv).2).weaken (Nat.le_add_left ..)⟩
  passed := fun hv => ⟨(h.passed hv).1, (hab.trans (h.passed hv).2).weaken (Nat.zero_le _)⟩

/-- The code for the value of `e` pushes it. -/
def Values (x : Site) (F : Draft) (σ : Scope) (e : Expr) : Prop :=
  ∀ ⦃c s st m⦄, Ready x F σ c s → Live s → Holds x F st m → Final F ((compile e).value c s).2 →
    ∀ n, Follows F n (here s m) (eval x σ st e) fun v =>
      infer x σ e = some v.type ∧ Pushes F s ((compile e).value c s).2 m v

/-- The code `jump` for the condition `e` jumps when it is `w`. -/
def Tests (x : Site) (F : Draft) (σ : Scope) (e : Expr) (jump : Label → Bool → Gen Unit) : Prop :=
  ∀ ⦃c s st m l k⦄ (w : Bool), Ready x F σ c s → Live s → Holds x F st m → s.draft.Has l →
    F.target? l = some k → Final F (jump l w c s).2 →
    ∀ n, Follows F n (here s m) (test x σ e st) (Jumps F l k w (here s m) (jump l w c s).2 m)

/-- The code of `e` does what `e` means. -/
structure Simulates (x : Site) (F : Draft) (σ : Scope) (e : Expr) : Prop where
  value : Values x F σ e
  jump : Tests x F σ e (compile e).jump

/-! ## Conversions and jumps on a truth value -/

section

variable {F : Draft} {c : Context} {s : State} {m : Memory}

/-- Values of the core convert to their own types only, and then there is nothing to do. -/
theorem coerce_static {a b : Ty} {pos : Source.Position} (hc : c.muted = false)
    (hF : Final F (coerce a.static b.static pos c s).2) :
    a = b ∧ coerce a.static b.static pos c s = ((), s) := by
  by_cases hab : a = b
  · subst hab
    refine ⟨rfl, ?_⟩
    cases a <;> rfl
  · have heq : coerce a.static b.static pos c s =
        report pos (.cannotConvert (c.program.typeName a.static) (c.program.typeName b.static)) c s := by
      cases a <;> cases b <;> first | rfl | exact absurd rfl hab
    rw [heq] at hF
    exact absurd hF (not_final_report hc fun _ => rfl)

theorem jumps_branchOnTruth {l : Label} {k : Nat} {w : Bool} (v : Bool) (hs : Live s)
    (hl : s.draft.Has l) (hk : F.target? l = some k) (hF : Final F (branchOnTruth w l c s).2) :
    Jumps F l k w (here s { m with stack := Machine.ofBool v :: m.stack })
      (branchOnTruth w l c s).2 m v := by
  have hlive : Live (branchOnTruth w l c s).2 := by
    show (s.draft.branch (if w then .brtrue else .brfalse) l).unreachable = false
    rw [Draft.unreachable_branch, show s.draft.unreachable = false from hs]
    cases w <;> rfl
  refine ⟨fun hv => ⟨Draft.targeted_branch _ hl, ?_⟩, fun hv => ⟨hlive, ?_⟩⟩
  · subst hv
    cases v with
    | true => exact reach_jump hF rfl rfl hk
    | false => exact reach_jump hF rfl rfl hk
  · refine Reach.weaken (k := 1) ?_ (Nat.zero_le _)
    cases v <;> cases w
    · exact absurd rfl hv
    · exact reach_past hF rfl rfl
    · exact reach_past hF rfl rfl
    · exact absurd rfl hv

end

section

variable {x : Site} {F : Draft} {σ : Scope} {e : Expr}

/-- The type that lowering finds for a value of the core. -/
theorem type_value {c : Context} {s : State} {v : Value} (he : coreExpr x σ e)
    (hready : Ready x F σ c s) (hv : infer x σ e = some v.type) :
    ((compile e).value c s).1 = v.type.static := by
  rw [type_compile e (.inl he) hready.here hready.names, hv]
  rfl

theorem ready_value {c : Context} {s : State} (hready : Ready x F σ c s) (e : Expr) :
    Ready x F σ c ((compile e).value c s).2 :=
  hready.walk (walks_compile (typing_any _) e).value

theorem has_value {s : State} {l : Label} (hl : s.draft.Has l) (c : Context) (e : Expr) :
    ((compile e).value c s).2.draft.Has l :=
  Nat.lt_of_lt_of_le hl
    (frame_walk (walks_compile (typing_any c.program) e).value (b := .declares) s).draft.labels

/-- A condition whose value is pushed can be tested. -/
theorem tests_jumpOnValue (he : coreExpr x σ e) (hv : Values x F σ e) (pos : Source.Position) :
    Tests x F σ e (jumpOnValue (compile e).value pos) := by
  intro c s st m l k w hready hs hm hl hk hF n
  have hF₂ : Final F (coerce ((compile e).value c s).1 .bool pos c ((compile e).value c s).2).2 :=
    final_before c (walk_branchOnTruth w trivial) hF
  have hF₁ : Final F ((compile e).value c s).2 := final_before c (walk_coerce ..) hF₂
  refine (hv hready hs hm hF₁ n).bind fun v ⟨hinfer, hpush⟩ => ?_
  have htype := type_value he hready hinfer
  rw [htype] at hF₂
  obtain ⟨hbool, hcoerce⟩ := coerce_static (b := .bool) hready.loud hF₂
  have hstep : jumpOnValue (compile e).value pos l w c s =
      branchOnTruth w l c ((compile e).value c s).2 := by
    show branchOnTruth w l c
      (coerce ((compile e).value c s).1 (Ty.static .bool) pos c ((compile e).value c s).2).2 = _
    rw [htype, hcoerce]
  rw [hstep] at hF ⊢
  cases v with
  | int v => cases hbool
  | bool v =>
    exact Jumps.after hpush.reach (jumps_branchOnTruth v hpush.live (has_value hl c e) hk hF)

end

/-! ## Literals and names -/

section

variable {x : Site} {F : Draft} {σ : Scope}

theorem pushes_loadInt (c : Context) {s : State} {m : Memory} {v : Value} (hs : Live s)
    (hF : Final F (edit (·.loadInt v.word) c s).2) :
    Pushes F s (edit (·.loadInt v.word) c s).2 m v where
  live := live_edit (Draft.appends_loadInt s.draft v.word) trivial hs
  reach := (reach_edit (Draft.appends_loadInt s.draft v.word) hF rfl).weaken (Nat.zero_le _)

theorem follows_load {c : Context} {s : State} {st : Store} {m : Memory} {r : Ref}
    {place : Lowering.Place} (hs : Live s) (hm : Holds x F st m) (hr : Known x F r)
    (hplace : Names x r place) (hF : Final F (place.load c s).2) (n : Nat) :
    Follows F n (here s m) (st.read r) fun v =>
      v.type = r.type ∧ Pushes F s (place.load c s).2 m v := by
  cases hplace with
  | @cell k t slot hslot =>
    obtain ⟨v, hread, htype, hload⟩ := hm.read_cell hr
    have happ := Draft.appends_loadLocal (markRead slot c s).2.draft slot
    have hperform : (Machine.Action.loadLocal slot.toNat).perform m =
        .next { m with stack := v.word :: m.stack } := by
      simp only [Machine.Action.perform, hslot, hload]
    rw [hread]
    exact ⟨htype, live_edit (f := (·.loadLocal slot)) happ trivial hs,
      (reach_edit (f := (·.loadLocal slot)) happ hF hperform).weaken (Nat.zero_le _)⟩
  | @param i t index hindex =>
    obtain ⟨v, hread, htype, hload⟩ := hm.read_param hr
    have happ := Draft.appends_loadArg s.draft index
    have hperform : (Machine.Action.loadArg index.toNat).perform m =
        .next { m with stack := v.word :: m.stack } := by
      simp only [Machine.Action.perform, hindex, hload]
    rw [hread]
    exact ⟨htype, live_edit (f := (·.loadArg index)) happ trivial hs,
      (reach_edit (f := (·.loadArg index)) happ hF hperform).weaken (Nat.zero_le _)⟩

theorem values_int (pos : Source.Position) (v : Int32) : Values x F σ (.int pos v) := by
  intro c s st m _ hs _ hF n
  exact ⟨rfl, pushes_loadInt (v := .int v) c hs hF⟩

theorem values_bool (pos : Source.Position) (b : Bool) : Values x F σ (.bool pos b) := by
  intro c s st m _ hs _ hF n
  refine ⟨rfl, ?_⟩
  cases b with
  | false => exact pushes_loadInt (v := .bool false) c hs hF
  | true => exact pushes_loadInt (v := .bool true) c hs hF

theorem values_name (pos : Source.Position) {n : String} (h : coreExpr x σ (.name pos n)) :
    Values x F σ (.name pos n) := by
  intro c s st m hready hs hm hF steps
  obtain ⟨r, hr⟩ := Option.isSome_iff_exists.1 h
  obtain ⟨place, hplace, hnames⟩ := resolve_lookup hready.here hready.names hr
  have happly : (compile (.name pos n)).value c s = (r.type.static, (place.load c s).2) :=
    nameValue_apply hplace hnames
  rw [happly] at hF ⊢
  simp only [eval, infer, hr, Option.map_some]
  refine (follows_load hs hm (known_lookup hready.celled hr) hnames hF steps).imp ?_
  rintro v ⟨htype, hpush⟩
  exact ⟨by rw [htype], hpush⟩

/-- A truth value that is written out. Optimized code jumps or does not. -/
theorem tests_bool (pos : Source.Position) (b : Bool) :
    Tests x F σ (.bool pos b) (compile (.bool pos b)).jump := by
  intro c s st m l k w hready hs hm hl hk hF n
  have hjump : (compile (.bool pos b)).jump l w c s =
      ((if c.options.optimize then if b = w then branch .br l else pure ()
        else jumpOnValue (compile (.bool pos b)).value pos l w : Gen Unit) c s) := rfl
  rw [hjump] at hF ⊢
  cases ho : c.options.optimize with
  | false =>
    rw [ho] at hF
    exact tests_jumpOnValue rfl (values_bool pos b) pos w hready hs hm hl hk hF n
  | true =>
    rw [ho] at hF
    simp only [if_true] at hF ⊢
    by_cases hb : b = w
    · rw [if_pos hb] at hF ⊢
      refine ⟨fun _ => ⟨Draft.targeted_branch _ hl, ?_⟩, fun h => absurd hb h⟩
      exact reach_jump hF rfl rfl hk
    · rw [if_neg hb] at hF ⊢
      exact ⟨fun h => absurd h hb, fun _ => ⟨hs, .refl _⟩⟩

end

/-! ## Operators -/

section

variable {x : Site} {F : Draft} {σ : Scope}

theorem values_unary (pos : Source.Position) (op : UnaryOp) {e : Expr} (he : coreExpr x σ e)
    (hv : Values x F σ e) : Values x F σ (.unary pos op e) := by
  intro c s st m hready hs hm hF n
  have htype := type_compile e (.inl he) hready.here hready.names
  have hvalue : (compile (.unary pos op e)).value = unary op (compile e) pos := rfl
  rw [hvalue] at hF ⊢
  rw [eval, infer]
  cases hi : infer x σ e with
  | none =>
    rw [hi] at htype
    rw [unary_apply_none htype] at hF
    refine (hv hready hs hm hF n).bind fun v hvalue => ?_
    rw [hi] at hvalue
    cases hvalue.1
  | some a =>
    rw [hi] at htype
    rw [unary_apply htype, hready.here.program] at hF ⊢
    rw [Option.bind_some, Site.language]
    cases ht : unaryType? x.program.language op a with
    | none =>
      rw [ht] at hF
      exact absurd hF (not_final_report hready.loud fun _ => rfl)
    | some t =>
      rw [ht] at hF
      have hops := plain_unaryOpcodes op a
      have hF₁ := final_before c (walk_emits (fun o ho => (hops o ho).1) fun _ _ _ => trivial) hF
      refine (hv hready hs hm hF₁ n).bind fun v hvalue => ?_
      obtain ⟨hinfer, hpush⟩ := hvalue
      rw [hi] at hinfer
      cases hinfer
      obtain ⟨r, hr, hrt, heffect⟩ := effect_unaryOpcodes m.stack m.locals m.args ht
      rw [hr]
      refine ⟨by rw [hrt], live_emits hops hpush.live, ?_⟩
      exact (hpush.reach.trans (reach_emits hops hF heffect)).weaken (Nat.zero_le _)

/-- Between `s` and `s'` stands code that makes `v` of the value `a` on the stack. -/
structure Replaces (F : Draft) (s s' : State) (m : Memory) (a v : Value) : Prop where
  live : Live s'
  reach : Reach F.fetch 0 (here s { m with stack := a.word :: m.stack })
    (here s' { m with stack := v.word :: m.stack })

theorem Pushes.replaces {s s₁ s₂ : State} {m : Memory} {a v : Value} (h : Pushes F s s₁ m a)
    (h' : Replaces F s₁ s₂ m a v) : Pushes F s s₂ m v :=
  ⟨h'.live, h.reach.trans h'.reach⟩

/-- The opcodes of an operator, with both operands on the stack. -/
theorem follows_opcodesOf {op : BinaryOp} {a b : Value} {t : Ty} {c : Context} {s : State} {m : Memory}
    (ht : binaryType? op a.type b.type = some t) (hs : Live s)
    (hF : Final F ((opcodesOf op).forM emit c s).2) (n : Nat) :
    Follows F n (here s { m with stack := b.word :: a.word :: m.stack }) (applyBinary op a b) fun v =>
      v.type = t ∧ Live ((opcodesOf op).forM emit c s).2 ∧
      Reach F.fetch 0 (here s { m with stack := b.word :: a.word :: m.stack })
        (here ((opcodesOf op).forM emit c s).2 { m with stack := v.word :: m.stack }) := by
  have hops := plain_opcodesOf op
  rcases effect_opcodesOf m.stack m.locals m.args ht with ⟨v, hv, htype, heffect⟩ | ⟨hfault, heffect⟩
  · rw [hv]
    exact ⟨htype, live_emits hops hs, reach_emits hops hF heffect⟩
  · rw [hfault]
    exact reach_emits_fault hops hF heffect

/-- An operator that is applied to the value on the stack and a right operand, as in a compound
assignment. -/
theorem follows_applyTo (pos : Source.Position) {op : BinaryOp} (hop : op ≠ .concat) {e : Expr}
    (he : coreExpr x σ e) (hv : Values x F σ e) {c : Context} {s : State} {st : Store} {m : Memory}
    {a : Value} (hready : Ready x F σ c s) (hs : Live s) (hm : Holds x F st m)
    (hF : Final F (applyTo op a.type.static (compile e) pos c s).2) (n : Nat) :
    Follows F n (here s { m with stack := a.word :: m.stack })
      (eval x σ st e >>= applyBinary op a) fun v =>
      (infer x σ e).bind (binaryType? op a.type) = some v.type ∧
      (applyTo op a.type.static (compile e) pos c s).1 = v.type.static ∧
      Replaces F s (applyTo op a.type.static (compile e) pos c s).2 m a v := by
  obtain ⟨s₁, hconcat, hdraft⟩ := concatenates_typed (a := some a.type) hop hready.here hready.names
    (type_compile e (.inl he))
  rw [staticOf_some] at hconcat
  have hready₁ : Ready x F σ c s₁ := by
    have h := hready.walk (walk_concatenates op a.type.static (walks_compile (typing_any _) e))
    rwa [hconcat] at h
  -- whether the operator concatenates is found out by probing, which leaves no code
  have hs₁ : Live s₁ := by rw [Live, hdraft]; exact hs
  have hhere (m : Memory) : here s m = here s₁ m := by rw [here, here, hdraft]
  have htype := type_compile e (.inl he) hready₁.here hready₁.names
  rw [hhere]
  cases hi : infer x σ e with
  | none =>
    rw [hi] at htype
    rw [applyTo_unknown hconcat (.inr htype)] at hF
    refine (hv hready₁ hs₁ (hm.stack _) hF n).bind fun v hvalue => ?_
    rw [hi] at hvalue
    cases hvalue.1
  | some b =>
    rw [hi] at htype
    rw [applyTo_static hconcat htype] at hF ⊢
    rw [Option.bind_some]
    cases ht : binaryType? op a.type b with
    | none =>
      rw [ht] at hF
      exact absurd hF (not_final_report hready.loud fun _ => rfl)
    | some t =>
      rw [ht] at hF
      have hops := plain_opcodesOf op
      have hF₁ := final_before c (walk_emits (fun o ho => (hops o ho).1) fun _ _ _ => trivial) hF
      refine (hv hready₁ hs₁ (hm.stack _) hF₁ n).bind fun v hvalue => ?_
      obtain ⟨hinfer, hpush⟩ := hvalue
      rw [hi] at hinfer
      cases hinfer
      refine (Follows.after hpush.reach (follows_opcodesOf ht hpush.live hF n) ?_).weaken
        (Nat.le_add_left ..)
      rintro r ⟨hrt, hlive, hreach⟩
      refine ⟨by rw [hrt], by rw [hrt]; rfl, hlive, ?_⟩
      rw [hhere]
      exact hpush.reach.trans hreach

theorem values_binary (pos : Source.Position) {op : BinaryOp} (hand : op ≠ .andAlso)
    (hor : op ≠ .orElse) (hop : op ≠ .concat) {l r : Expr} (hl : coreExpr x σ l)
    (hr : coreExpr x σ r) (hvl : Values x F σ l) (hvr : Values x F σ r) :
    Values x F σ (.binary pos op l r) := by
  intro c s st m hready hs hm hF n
  rw [compile_binary hand hor] at hF ⊢
  rw [eval_binary hand hor, infer_binary hand hor]
  have hF₁ : Final F ((compile l).value c s).2 :=
    final_before c (walk_applyTo (typing_any _) op _ (walks_compile (typing_any _) r) pos) hF
  refine (hvl hready hs hm hF₁ n).bind fun a ⟨hinfer, hpush⟩ => ?_
  have htype := type_value hl hready hinfer
  have happly : (do
      let lt ← (compile l).value
      applyTo op lt (compile r) pos : Gen StaticType) c s =
      applyTo op a.type.static (compile r) pos c ((compile l).value c s).2 := by
    rw [← htype]
    rfl
  dsimp only at hF ⊢
  rw [happly] at hF ⊢
  have hfollows := follows_applyTo pos hop hr hvr (ready_value hready l) hpush.live hm hF n
  refine (Follows.after hpush.reach hfollows ?_).weaken (Nat.le_add_left ..)
  intro v ⟨hv, _, hreplaces⟩
  refine ⟨?_, hpush.replaces hreplaces⟩
  rw [hinfer]
  cases hi : infer x σ r with
  | none => rw [hi] at hv; cases hv
  | some b => rw [hi] at hv; exact hv

/-! ## Jumps on comparisons -/

/-- What follows the left operand of a comparison that is jumped on. -/
def comparisonRest (op : BinaryOp) (lt : StaticType) (rhs : ExprCode) (pos : Source.Position)
    (l : Label) (w : Bool) : Gen Unit := do
  let rt ← probe rhs.value
  if hasBranch op lt rt then
    discard rhs.value
    branch (comparisonBranch op w) l
  else
    coerce (← applyTo op lt rhs pos) .bool pos
    branchOnTruth w l

theorem walk_comparisonRest {p : Program} (op : BinaryOp) (lt : StaticType) (r : Expr)
    (pos : Source.Position) (l : Label) (w : Bool) :
    Walk p (fun _ => True) (fun _ => True) .declares (comparisonRest op lt (compile r) pos l w)
      fun _ => True := by
  have hr := walks_compile (typing_any p) r
  refine (Walk.probe hr.value).bind fun rt _ => .ite (fun _ => ?_) fun _ => ?_
  · exact hr.value.discard.seq (.branch (operandKind_comparisonBranch op w) trivial)
  · refine (walk_applyTo (typing_any p) op lt hr pos).bind fun _ _ => ?_
    exact (walk_coerce ..).seq (walk_branchOnTruth w trivial)

/-- The branch of a comparison, with both operands on the stack. -/
theorem jumps_comparisonBranch {op : BinaryOp} {a b : Value} {t : Ty} {l : Label} {k : Nat} {w : Bool}
    {c : Context} {s : State} {m : Memory} (hop : op.isComparison)
    (ht : binaryType? op a.type b.type = some t) (hs : Live s) (hl : s.draft.Has l)
    (hk : F.target? l = some k) (hF : Final F (branch (comparisonBranch op w) l c s).2) :
    ∃ v, applyBinary op a b = .ok (.bool v) ∧
      Jumps F l k w (here s { m with stack := b.word :: a.word :: m.stack })
        (branch (comparisonBranch op w) l c s).2 m v := by
  obtain ⟨v, jumps, hv, haction, hjumps⟩ := action?_comparisonBranch hop ht w
  have hperform : (Machine.Action.jumpIfBoth jumps).perform
      { m with stack := b.word :: a.word :: m.stack } =
      if v = w then .jump m else .next m := by
    simp only [Machine.Action.perform, hjumps, decide_eq_true_eq]
  have hlive : Live (branch (comparisonBranch op w) l c s).2 := by
    show (s.draft.branch (comparisonBranch op w) l).unreachable = false
    rw [Draft.unreachable_branch, show s.draft.unreachable = false from hs,
      fallsThrough_of_action? haction trivial]
    rfl
  refine ⟨v, hv, fun hvw => ⟨Draft.targeted_branch _ hl, ?_⟩, fun hvw => ⟨hlive, ?_⟩⟩
  · rw [if_pos hvw] at hperform
    exact reach_jump hF haction hperform hk
  · rw [if_neg hvw] at hperform
    exact (reach_past hF haction hperform).weaken (Nat.zero_le _)

theorem follows_comparisonRest (pos : Source.Position) {op : BinaryOp} (hop : op.isComparison)
    {r : Expr} (hr : coreExpr x σ r) (hvr : Values x F σ r) {c : Context} {s : State} {st : Store}
    {m : Memory} {l : Label} {k : Nat} {w : Bool} {a : Value} (hready : Ready x F σ c s) (hs : Live s)
    (hm : Holds x F st m) (hl : s.draft.Has l) (hk : F.target? l = some k)
    (hF : Final F (comparisonRest op a.type.static (compile r) pos l w c s).2) (n : Nat) :
    Follows F n (here s { m with stack := a.word :: m.stack })
      (eval x σ st r >>= fun b => applyBinary op a b >>= truth)
      (Jumps F l k w (here s { m with stack := a.word :: m.stack })
        (comparisonRest op a.type.static (compile r) pos l w c s).2 m) := by
  have hconcat : op ≠ .concat := by rintro rfl; cases hop
  -- the right operand is probed first, which leaves no code
  have hready₁ : Ready x F σ c (probe (compile r).value c s).2 :=
    hready.walk (.probe (walks_compile (typing_any _) r).value)
  have hrt : (probe (compile r).value c s).1 = staticOf (infer x σ r) :=
    type_compile r (.inl hr) hready.here.muted (scoped_probe hready.names)
  have hrest : comparisonRest op a.type.static (compile r) pos l w c s =
      (if hasBranch op a.type.static (staticOf (infer x σ r)) then do
        discard (compile r).value
        branch (comparisonBranch op w) l
      else do
        coerce (← applyTo op a.type.static (compile r) pos) .bool pos
        branchOnTruth w l : Gen Unit) c (probe (compile r).value c s).2 := by
    rw [← hrt]
    rfl
  rw [hrest] at hF ⊢
  cases hb : hasBranch op a.type.static (staticOf (infer x σ r)) with
  | false =>
    rw [hb] at hF
    have hF₂ := final_before c (walk_branchOnTruth w trivial) hF
    have hF₁ := final_before c (walk_coerce ..) hF₂
    rw [← bind_assoc]
    refine (follows_applyTo pos hconcat hr hvr hready₁ hs hm hF₁ n).bind fun v ⟨hv, _⟩ => ?_
    -- an operator that applies to two types has a branch for them
    cases hi : infer x σ r with
    | none => rw [hi] at hv; cases hv
    | some b =>
      rw [hi, Option.bind_some] at hv
      rw [hi, staticOf_some, hasBranch_static hop, hv] at hb
      cases hb
  | true =>
    rw [hb] at hF
    have hF₁ : Final F ((compile r).value c (probe (compile r).value c s).2).2 :=
      final_before c (.branch (operandKind_comparisonBranch op w) trivial) hF
    refine (hvr hready₁ hs (hm.stack _) hF₁ n).bind fun b ⟨hinfer, hpush⟩ => ?_
    rw [hinfer, staticOf_some, hasBranch_static hop] at hb
    obtain ⟨t, ht⟩ := Option.isSome_iff_exists.1 hb
    have hhas := has_value (s := (probe (compile r).value c s).2) hl c r
    obtain ⟨v, hv, hjumps⟩ := jumps_comparisonBranch (m := m) hop ht hpush.live hhas hk hF
    rw [hv]
    exact Jumps.after hpush.reach hjumps

theorem tests_comparison (pos : Source.Position) {op : BinaryOp} (hop : op.isComparison) {l r : Expr}
    (hl : coreExpr x σ l) (hr : coreExpr x σ r) (hvl : Values x F σ l) (hvr : Values x F σ r) :
    Tests x F σ (.binary pos op l r) (jumpOnComparison op (compile l) (compile r) pos) := by
  intro c s st m target k w hready hs hm htarget hk hF n
  have hand : op ≠ .andAlso := by rintro rfl; cases hop
  have hor : op ≠ .orElse := by rintro rfl; cases hop
  have hF₁ : Final F ((compile l).value c s).2 :=
    final_before c (walk_comparisonRest op _ r pos target w) hF
  rw [test, eval_binary hand hor, bind_assoc]
  refine (hvl hready hs hm hF₁ n).bind fun a ⟨hinfer, hpush⟩ => ?_
  have hrest : jumpOnComparison op (compile l) (compile r) pos target w c s =
      comparisonRest op a.type.static (compile r) pos target w c ((compile l).value c s).2 := by
    rw [← type_value hl hready hinfer]
    rfl
  rw [hrest] at hF ⊢
  rw [bind_assoc]
  have hfollows := follows_comparisonRest pos hop hr hvr (ready_value hready l) hpush.live hm
    (has_value htarget c l) hk hF n
  refine (Follows.after hpush.reach hfollows ?_).weaken (Nat.le_add_left ..)
  exact fun v hjumps => .after hpush.reach hjumps

/-! ## Conjunctions and disjunctions -/

/-- The operator that evaluates its right operand only if the left one does not decide: a
disjunction if `isOr`, else a conjunction. -/
def lazyOp (isOr : Bool) : BinaryOp := if isOr then .orElse else .andAlso

theorem eval_lazy (isOr : Bool) (pos : Source.Position) (l r : Expr) (st : Store) :
    eval x σ st (.binary pos (lazyOp isOr) l r) =
      (test x σ l st >>= fun b =>
        if b = isOr then .ok (.bool isOr) else test x σ r st >>= fun b => .ok (.bool b)) := by
  have hor : eval x σ st (.binary pos .orElse l r) = (test x σ l st >>= fun b =>
      if b then .ok (.bool true) else test x σ r st >>= fun b => .ok (.bool b)) := by
    simp only [eval, test, bind_assoc]
    rfl
  have hand : eval x σ st (.binary pos .andAlso l r) = (test x σ l st >>= fun b =>
      if b then test x σ r st >>= fun b => .ok (.bool b) else .ok (.bool false)) := by
    simp only [eval, test, bind_assoc]
    rfl
  cases isOr with
  | true => exact hor
  | false =>
    refine hand.trans (bind_congr fun b => ?_)
    cases b <;> rfl

theorem test_lazy (isOr : Bool) (pos : Source.Position) (l r : Expr) (st : Store) :
    test x σ (.binary pos (lazyOp isOr) l r) st =
      (test x σ l st >>= fun b => if b = isOr then .ok isOr else test x σ r st) := by
  rw [test, eval_lazy, bind_assoc]
  refine bind_congr fun b => ?_
  split
  · rfl
  · rw [bind_assoc]
    exact bind_pure _

section

variable (c : Context) (s : State) (e : Expr) (l : Label) (w : Bool)

theorem frame_value : Frame (fun _ => True) s.draft.labels.size .declares s ((compile e).value c s).2 :=
  frame_walk (walks_compile (typing_any c.program) e).value s

theorem frame_jump : Frame (fun _ => True) s.draft.labels.size .declares s ((compile e).jump l w c s).2 :=
  frame_walk ((walks_compile (typing_any c.program) e).jump w trivial) s

theorem still_jump : Still s ((compile e).jump l w c s).2 :=
  still_walk ((walks_compile (typing_any c.program) e).jump w trivial) s

end

theorem tests_lazy_same (isOr : Bool) (pos : Source.Position) {l r : Expr} (hl : Simulates x F σ l)
    (hr : Simulates x F σ r) {c : Context} {s : State} {st : Store} {m : Memory} {target : Label}
    {k : Nat} (hready : Ready x F σ c s) (hs : Live s) (hm : Holds x F st m)
    (htarget : s.draft.Has target) (hk : F.target? target = some k)
    (hF : Final F ((compile r).jump target isOr c ((compile l).jump target isOr c s).2).2) (n : Nat) :
    Follows F n (here s m) (test x σ (.binary pos (lazyOp isOr) l r) st)
      (Jumps F target k isOr (here s m)
        ((compile r).jump target isOr c ((compile l).jump target isOr c s).2).2 m) := by
  have hF₁ := hF.back (frame_jump c _ r target isOr)
  rw [test_lazy]
  refine (hl.jump isOr hready hs hm htarget hk hF₁ n).bind fun b hb => ?_
  by_cases hbo : b = isOr
  · obtain ⟨htargeted, hreach⟩ := hb.taken hbo
    rw [if_pos hbo]
    refine ⟨fun _ => ⟨?_, hreach⟩, fun h => absurd rfl h⟩
    exact (frame_jump c _ r target isOr).draft.targeted target htargeted
  · obtain ⟨hs₁, hreach⟩ := hb.passed hbo
    rw [if_neg hbo]
    have hready₁ := hready.still (still_jump c s l target isOr)
    have hhas := Nat.lt_of_lt_of_le htarget (frame_jump c s l target isOr).draft.labels
    refine (Follows.after hreach (hr.jump isOr hready₁ hs₁ hm hhas hk hF n) ?_).weaken
      (Nat.le_add_left ..)
    exact fun v hv => .after hreach hv

theorem tests_lazy_other (isOr : Bool) (pos : Source.Position) {l r : Expr} (hl : Simulates x F σ l)
    (hr : Simulates x F σ r) {c : Context} {s : State} {st : Store} {m : Memory} {target : Label}
    {k : Nat} (hready : Ready x F σ c s) (hs : Live s) (hm : Holds x F st m)
    (htarget : s.draft.Has target) (hk : F.target? target = some k)
    (hF : Final F (jumpOnBoth isOr (compile l) (compile r) target (!isOr) c s).2) (n : Nat) :
    Follows F n (here s m) (test x σ (.binary pos (lazyOp isOr) l r) st)
      (Jumps F target k (!isOr) (here s m)
        (jumpOnBoth isOr (compile l) (compile r) target (!isOr) c s).2 m) := by
  obtain ⟨skip, s₁, hnew, hmade⟩ := made_newLabel c s
  obtain ⟨s₂, hs₂⟩ : ∃ s₂, ((compile l).jump skip isOr c s₁).2 = s₂ := ⟨_, rfl⟩
  obtain ⟨s₃, hs₃⟩ : ∃ s₃, ((compile r).jump target (!isOr) c s₂).2 = s₃ := ⟨_, rfl⟩
  have happly : (jumpOnBoth isOr (compile l) (compile r) target (!isOr) c s).2 = (mark skip c s₃).2 := by
    subst hs₂ hs₃
    cases hnew
    cases isOr <;> rfl
  have hframe₂ := hs₂ ▸ frame_jump c s₁ l skip isOr
  have hframe₃ := hs₃ ▸ frame_jump c s₂ r target (!isOr)
  -- the label is open until it is bound
  have hopen₃ := (hmade.opened.frame hframe₂).frame hframe₃
  rw [happly] at hF ⊢
  have hF₃ := hF.back_mark hopen₃
  have hF₂ := hF₃.back hframe₃
  have hready₁ := hready.still hmade.still
  have htarget₁ : s₁.draft.Has target := Nat.lt_of_lt_of_le htarget hmade.frame.draft.labels
  rw [test_lazy, hmade.here]
  refine (hl.jump isOr hready₁ (hmade.live hs) hm hmade.opened.has (target_of_mark hF hopen₃)
    (hs₂ ▸ hF₂) n).bind fun b hb => ?_
  rw [hs₂] at hb
  by_cases hbo : b = isOr
  · obtain ⟨htargeted, hreach⟩ := hb.taken hbo
    rw [if_pos hbo]
    refine ⟨fun h => absurd h (by cases isOr <;> decide), fun _ => ⟨?_, ?_⟩⟩
    · exact live_mark.2 (.inr (hframe₃.draft.targeted skip htargeted))
    · rw [here_mark]
      exact hreach.weaken (Nat.zero_le _)
  · obtain ⟨hlive, hreach⟩ := hb.passed hbo
    rw [if_neg hbo]
    have hready₂ := hready₁.still (hs₂ ▸ still_jump c s₁ l skip isOr)
    have hhas := Nat.lt_of_lt_of_le htarget₁ hframe₂.draft.labels
    have hfollows := hr.jump (!isOr) hready₂ hlive hm hhas hk (hs₃ ▸ hF₃) n
    rw [hs₃] at hfollows
    refine (Follows.after hreach hfollows ?_).weaken (Nat.le_add_left ..)
    refine fun v hv => .after hreach ⟨fun h => ⟨?_, (hv.taken h).2⟩, fun h => ⟨?_, ?_⟩⟩
    · exact Draft.targeted_mark s₃.draft (hv.taken h).1
    · exact live_mark.2 (.inl (hv.passed h).1)
    · rw [here_mark]
      exact (hv.passed h).2

theorem tests_lazy (isOr : Bool) (pos : Source.Position) {l r : Expr} (hl : Simulates x F σ l)
    (hr : Simulates x F σ r) :
    Tests x F σ (.binary pos (lazyOp isOr) l r) (jumpOnBoth isOr (compile l) (compile r)) := by
  intro c s st m target k w hready hs hm htarget hk hF n
  by_cases hw : isOr = w
  · subst hw
    have happly : jumpOnBoth isOr (compile l) (compile r) target isOr c s =
        (compile r).jump target isOr c ((compile l).jump target isOr c s).2 := by
      rw [jumpOnBoth, if_pos rfl]
      rfl
    rw [happly] at hF ⊢
    exact tests_lazy_same isOr pos hl hr hready hs hm htarget hk hF n
  · have hnot : w = !isOr := by cases w <;> cases isOr <;> first | rfl | exact absurd rfl hw
    subst hnot
    exact tests_lazy_other isOr pos hl hr hready hs hm htarget hk hF n

theorem values_lazy (isOr : Bool) (pos : Source.Position) {l r : Expr} (hrc : coreExpr x σ r)
    (hl : Simulates x F σ l) (hr : Simulates x F σ r) :
    Values x F σ (.binary pos (lazyOp isOr) l r) := by
  intro c s st m hready hs hm hF n
  obtain ⟨shortcut, s₁, hshortcut, hmade₁⟩ := made_newLabel c s
  obtain ⟨stop, s₂, hstop, hmade₂⟩ := made_newLabel c s₁
  obtain ⟨s₃, hs₃⟩ : ∃ s₃, ((compile l).jump shortcut isOr c s₂).2 = s₃ := ⟨_, rfl⟩
  obtain ⟨t, s₄, hs₄⟩ : ∃ t s₄, (compile r).value c s₃ = (t, s₄) := ⟨_, _, rfl⟩
  obtain ⟨s₅, hs₅⟩ : ∃ s₅, (coerce t .bool (compile r).pos c s₄).2 = s₅ := ⟨_, rfl⟩
  obtain ⟨s₆, hs₆⟩ : ∃ s₆, (branch .br stop c s₅).2 = s₆ := ⟨_, rfl⟩
  obtain ⟨s₇, hs₇⟩ : ∃ s₇, (mark shortcut c s₆).2 = s₇ := ⟨_, rfl⟩
  obtain ⟨s₈, hs₈⟩ : ∃ s₈, (edit (·.loadInt (if isOr then 1 else 0)) c s₇).2 = s₈ := ⟨_, rfl⟩
  have happly : ((compile (.binary pos (lazyOp isOr) l r)).value c s).2 = (mark stop c s₈).2 := by
    subst hs₃ hs₅ hs₆ hs₇ hs₈
    cases hshortcut
    cases hstop
    have hpair := congrArg Prod.fst hs₄
    have hstate := congrArg Prod.snd hs₄
    dsimp only at hpair hstate
    subst hpair hstate
    cases isOr <;> rfl
  have hframe₃ := hs₃ ▸ frame_jump c s₂ l shortcut isOr
  have hframe₄ : Frame (fun _ => True) s₃.draft.labels.size .declares s₃ s₄ := by
    have := frame_value c s₃ r
    rwa [hs₄] at this
  have hframe₅ : Frame (fun _ => True) s₄.draft.labels.size .declares s₄ s₅ :=
    hs₅ ▸ frame_walk (c := c) (walk_coerce ..) s₄
  have hframe₆ : Frame (fun _ => True) s₅.draft.labels.size .declares s₅ s₆ :=
    hs₆ ▸ frame_walk (c := c) (.branch rfl trivial) s₅
  have hframe₈ : Frame (fun _ => True) s₇.draft.labels.size .declares s₇ s₈ :=
    hs₈ ▸ frame_walk (c := c) (.emission (.loadInt _)) s₇
  -- both labels are open until they are bound
  have hopen₂ := hmade₁.opened.frame hmade₂.frame
  have hopen₂' := hmade₂.opened
  have hne := hmade₂.fresh shortcut hmade₁.opened.has
  have hopen₆ := (((hopen₂.frame hframe₃).frame hframe₄).frame hframe₅).frame hframe₆
  have hopen₆' := (((hopen₂'.frame hframe₃).frame hframe₄).frame hframe₅).frame hframe₆
  have hopen₈ := (hs₇ ▸ hopen₆'.mark hne : Open stop s₇).frame hframe₈
  rw [happly] at hF ⊢
  have hF₈ := hF.back_mark hopen₈
  have hF₇ := hF₈.back hframe₈
  have hF₆ := (hs₇ ▸ hF₇ : Final F (mark shortcut c s₆).2).back_mark hopen₆
  have hF₅ := hF₆.back hframe₆
  have hF₄ := hF₅.back hframe₅
  have hF₃ := hF₄.back hframe₄
  have hshort := target_of_mark (hs₇ ▸ hF₇) hopen₆
  have hexit := target_of_mark hF hopen₈
  have hready₂ := (hready.still hmade₁.still).still hmade₂.still
  have hs₂ : Live s₂ := hmade₂.live (hmade₁.live hs)
  have hhere : here s m = here s₂ m := (hmade₁.here m).trans (hmade₂.here m)
  have hinfer : infer x σ (.binary pos (lazyOp isOr) l r) = some .bool := by cases isOr <;> rfl
  rw [eval_lazy, hinfer, hhere]
  refine (hl.jump isOr hready₂ hs₂ hm hopen₂.has hshort (hs₃ ▸ hF₃) n).bind fun b hb => ?_
  rw [hs₃] at hb
  by_cases hbo : b = isOr
  · obtain ⟨htargeted, hreach⟩ := hb.taken hbo
    rw [if_pos hbo]
    have hlive₇ : Live s₇ := hs₇ ▸ live_mark.2 (.inr (hframe₆.draft.targeted _
      (hframe₅.draft.targeted _ (hframe₄.draft.targeted _ htargeted))))
    have hword : (if isOr then 1 else 0) = (Value.bool isOr).word := by cases isOr <;> rfl
    have hpush : Pushes F s₇ s₈ m (.bool isOr) := by
      rw [hword] at hs₈
      exact hs₈ ▸ pushes_loadInt c hlive₇ (hs₈ ▸ hF₈)
    refine ⟨rfl, live_mark.2 (.inl hpush.live), ?_⟩
    rw [hhere, here_mark]
    have hhere₇ : here s₇ m = here s₆ m := by rw [← hs₇, here_mark]
    exact (hreach.trans (hhere₇ ▸ hpush.reach)).weaken (Nat.zero_le _)
  · obtain ⟨hlive₃, hreach⟩ := hb.passed hbo
    rw [if_neg hbo]
    have hready₃ := hready₂.still (hs₃ ▸ still_jump c s₂ l shortcut isOr)
    have hvalue := hr.value hready₃ hlive₃ hm (by rw [hs₄]; exact hF₄) n
    rw [test, bind_assoc]
    refine (Follows.after hreach hvalue fun _ h => h).weaken (Nat.le_add_left ..) |>.bind
      fun v ⟨hvt, hpush⟩ => ?_
    have htype := type_value hrc hready₃ hvt
    rw [hs₄] at hpush htype
    subst htype
    obtain ⟨hbool, hcoerce⟩ := coerce_static (b := .bool) hready.loud (hs₅ ▸ hF₅)
    have hsame : s₅ = s₄ := by rw [← hs₅]; exact congrArg Prod.snd hcoerce
    subst hsame
    cases v with
    | int v => cases hbool
    | bool v =>
      have hjump : Reach F.fetch 1 (here s₅ { m with stack := (Value.bool v).word :: m.stack })
          (.running s₈.draft.code.size { m with stack := (Value.bool v).word :: m.stack }) :=
        reach_jump (hs₆ ▸ hF₆ : Final F (branch .br stop c s₅).2) rfl rfl hexit
      have htargeted : s₆.draft.Targeted stop := by
        rw [← hs₆]
        exact Draft.targeted_branch _ ((hopen₂'.frame hframe₃).frame hframe₄).has
      have htargeted₈ : s₈.draft.Targeted stop :=
        hframe₈.draft.targeted stop (hs₇ ▸ Draft.targeted_mark s₆.draft htargeted)
      refine ⟨rfl, live_mark.2 (.inr htargeted₈), ?_⟩
      rw [hhere, here_mark]
      exact (hreach.trans (hpush.reach.trans hjump)).weaken (Nat.zero_le _)

/-! ## Negations -/

theorem follows_not {n : Nat} {a : Status Nat} {e : Expr} {st : Store} {P Q : Bool → Prop}
    (pos : Source.Position) (h : Follows F n a (test x σ e st) P) (hPQ : ∀ b, P b → Q (!b)) :
    Follows F n a (test x σ (.unary pos .not e) st) Q := by
  show Follows F n a ((eval x σ st e >>= applyUnary x.language .not) >>= truth) Q
  unfold test at h
  cases hv : eval x σ st e with
  | error halt => rw [hv] at h; cases halt <;> exact h
  | ok v =>
    rw [hv] at h
    cases v with
    | int v => exact h.elim
    | bool b => exact hPQ b h

/-- A jump on a negation is a jump on the operand, if that is a truth value. -/
theorem tests_unary (pos : Source.Position) (op : UnaryOp) {e : Expr} (he : coreExpr x σ e)
    (hsim : Simulates x F σ e) :
    Tests x F σ (.unary pos op e) (compile (.unary pos op e)).jump := by
  have hcore : coreExpr x σ (.unary pos op e) := he
  have hvalue := tests_jumpOnValue hcore (values_unary pos op he hsim.value) pos
  intro c s st m l k w hready hs hm hl hk hF n
  cases op with
  | neg => exact hvalue w hready hs hm hl hk hF n
  | not =>
    have hready₁ : Ready x F σ c (probe (compile e).value c s).2 :=
      hready.walk (.probe (walks_compile (typing_any _) e).value)
    have htype : (probe (compile e).value c s).1 = staticOf (infer x σ e) :=
      type_compile e (.inl he) hready.here.muted (scoped_probe hready.names)
    have happly : (compile (.unary pos .not e)).jump l w c s =
        (if staticOf (infer x σ e) = .bool then (compile e).jump l (!w)
        else jumpOnValue (compile (.unary pos .not e)).value pos l w : Gen Unit) c
          (probe (compile e).value c s).2 := by
      rw [← htype]
      rfl
    rw [happly] at hF ⊢
    by_cases hbool : staticOf (infer x σ e) = .bool
    · rw [if_pos hbool] at hF ⊢
      refine follows_not pos (hsim.jump (!w) hready₁ hs hm hl hk hF n) fun b hb => ?_
      refine ⟨fun h => hb.taken (by rw [← h, Bool.not_not]), fun h => hb.passed fun hbw => h ?_⟩
      rw [hbw, Bool.not_not]
    · rw [if_neg hbool] at hF ⊢
      exact hvalue w hready₁ hs hm hl hk hF n

/-! ## All expressions -/

theorem simulates_binary (pos : Source.Position) {op : BinaryOp} (hop : op ≠ .concat) {l r : Expr}
    (hlc : coreExpr x σ l) (hrc : coreExpr x σ r) (hl : Simulates x F σ l) (hr : Simulates x F σ r) :
    Simulates x F σ (.binary pos op l r) := by
  by_cases hand : op = .andAlso
  · subst hand
    exact ⟨values_lazy false pos hrc hl hr, tests_lazy false pos hl hr⟩
  by_cases hor : op = .orElse
  · subst hor
    exact ⟨values_lazy true pos hrc hl hr, tests_lazy true pos hl hr⟩
  have hvalues := values_binary pos hand hor hop hlc hrc hl.value hr.value
  refine ⟨hvalues, ?_⟩
  intro c s st m target k w hready hs hm htarget hk hF n
  have hcore : coreExpr x σ (.binary pos op l r) := by simp [coreExpr, hop, hlc, hrc]
  have happly : (compile (.binary pos op l r)).jump target w c s =
      (if op.isComparison && c.options.optimize then
        jumpOnComparison op (compile l) (compile r) pos target w
      else jumpOnValue (compile (.binary pos op l r)).value pos target w : Gen Unit) c s := by
    rw [compile_binary hand hor]
    rfl
  rw [happly] at hF ⊢
  by_cases hcompare : (op.isComparison && c.options.optimize) = true
  · rw [if_pos hcompare] at hF ⊢
    exact tests_comparison pos (Bool.and_eq_true_iff.1 hcompare).1 hlc hrc hl.value hr.value w hready
      hs hm htarget hk hF n
  · rw [if_neg hcompare] at hF ⊢
    exact tests_jumpOnValue hcore hvalues pos w hready hs hm htarget hk hF n

/-- **The code of every expression of the core does what the expression means**, as a value and as a
condition, whether it is optimized or not. -/
theorem simulates_compile : ∀ e, coreExpr x σ e → Simulates x F σ e
  | .int pos v, _ => ⟨values_int pos v, tests_jumpOnValue rfl (values_int pos v) pos⟩
  | .bool pos b, _ => ⟨values_bool pos b, tests_bool pos b⟩
  | .name pos n, h => ⟨values_name pos h, tests_jumpOnValue h (values_name pos h) pos⟩
  | .unary pos op e, h => by
    have hsim := simulates_compile e h
    exact ⟨values_unary (e := e) pos op h hsim.value, tests_unary (e := e) pos op h hsim⟩
  | .binary pos op l r, h => by
    simp only [coreExpr, Bool.and_eq_true, decide_eq_true_eq] at h
    obtain ⟨⟨hop, hl⟩, hr⟩ := h
    exact simulates_binary pos hop hl hr (simulates_compile l hl) (simulates_compile r hr)

end

end CilScope.Core
