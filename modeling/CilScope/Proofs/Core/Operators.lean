import CilScope.Proofs.Core.Simulation

/-!
# Names, types and operators of the core

What lowering makes of the leaves of the core: where it finds a name, which type it gives to an
expression, and which opcodes it chooses for an operator. `type_compile` says that the types are
those of the core, and `effect_opcodesOf` that the opcodes do what the operators do.
-/

namespace CilScope.Core

open Source (Expr BinaryOp UnaryOp)
open Machine (Memory Effect Reach)
open Lowering

/-! ## Types -/

/-- The type that lowering gives to an expression. -/
def staticOf (t : Option Ty) : StaticType := t.elim .unknown Ty.static

@[simp] theorem staticOf_some (t : Ty) : staticOf (some t) = t.static := rfl
@[simp] theorem staticOf_none : staticOf none = .unknown := rfl

theorem staticOf_ne_string (t : Option Ty) : staticOf t ≠ .string := by
  cases t with
  | none => decide
  | some t => cases t <;> decide

/-- The opcodes of an operator with two operands. -/
def opcodesOf : BinaryOp → List Opcode
  | .add => [.add]
  | .sub => [.sub]
  | .mul => [.mul]
  | .div | .intDiv => [.div]
  | .rem => [.rem]
  | .lt => [.clt]
  | .gt => [.cgt]
  | .le => [.cgt, .ldcI40, .ceq]
  | .ge => [.clt, .ldcI40, .ceq]
  | .and => [.and]
  | .or => [.or]
  | .eq => [.ceq]
  | .ne => [.ceq, .ldcI40, .ceq]
  | .concat | .andAlso | .orElse => []

theorem operatorCode?_static (op : BinaryOp) (a b : Ty) :
    operatorCode? op a.static b.static =
      (binaryType? op a b).map fun t => .opcodes (opcodesOf op) t.static := by
  cases op <;> cases a <;> cases b <;> rfl

theorem concatenates_core {op : BinaryOp} {lt : StaticType} {rhs : ExprCode} {c : Context}
    {s : State} (hop : op ≠ .concat) (hlt : lt ≠ .string)
    (hrhs : (probe rhs.value c s).1 ≠ .string) :
    ∃ s', concatenates op lt rhs c s = (false, s') ∧ s'.draft = s.draft := by
  have hsame : concatenates op lt rhs c s = (false, s) ∨
      concatenates op lt rhs c s = (decide ((probe rhs.value c s).1 = .string), (probe rhs.value c s).2) := by
    cases op with
    | concat => exact absurd rfl hop
    | add =>
      simp only [concatenates, if_neg hlt]
      by_cases h : lt = .unknown
      · rw [if_pos h]; exact .inl rfl
      · rw [if_neg h]; exact .inr rfl
    | _ => exact .inl rfl
  rcases hsame with h | h
  · exact ⟨s, h, rfl⟩
  · rw [decide_eq_false hrhs] at h
    exact ⟨_, h, rfl⟩

theorem applyTo_apply {op : BinaryOp} {lt : StaticType} {rhs : ExprCode} {pos : Source.Position}
    {c : Context} {s s' : State} (h : concatenates op lt rhs c s = (false, s')) :
    applyTo op lt rhs pos c s = (do
      let rt ← rhs.value
      if lt = .unknown ∨ rt = .unknown then return .unknown
      match operatorCode? op lt rt with
      | some (.opcodes ops result) =>
        ops.forM emit
        return result
      | some (.call m) => emitLibraryCall m
      | none => badOperands op lt rt pos : Gen StaticType) c s' := by
  show ((if (concatenates op lt rhs c s).1 = true then _ else _ : Gen StaticType) c (concatenates op lt rhs c s).2) = _
  rw [h]
  rfl

/-- The place where lowering finds what a name refers to. -/
inductive Names (x : Site) : Ref → Lowering.Place → Prop
  | cell {k : Nat} {t : Ty} {slot : UInt16} (h : slot.toNat = k) :
      Names x (.cell k t) (.local_ slot t.static)
  | param {i : Nat} {t : Ty} {index : UInt16} (h : index.toNat = i + x.base) :
      Names x (.param i t) (.arg index t.static)

theorem findView_view (language : Language) (s : State) (name : String) :
    findView language s.view name = (findLocal? language s.scopes name).map Local.view := by
  simp only [findView, State.view, findLocal?, List.findSome?_map, Function.comp_def, List.find?_map,
    List.map_findSome?]
  rfl

section

variable {x : Site} {σ : Scope} {c : Context} {s : State} {n : String} {r : Ref}
  {pos : Source.Position}

theorem resolve_lookup (hc : Here x c) (hσ : Scoped x σ s) (h : x.lookup? σ n = some r) :
    ∃ place, c.resolve s.scopes n = .place place ∧ Names x r place := by
  have hview := hσ n
  rw [findView_view, ← show c.program.language = x.language by rw [hc.program]; rfl] at hview
  unfold Site.lookup? at h
  unfold Context.resolve
  cases hv : σ.vars.find? (x.program.sameName ·.name n) with
  | some v =>
    rw [hv] at h hview
    cases h
    cases hl : findLocal? c.program.language s.scopes n with
    | none => rw [hl] at hview; cases hview
    | some l =>
      rw [hl] at hview
      simp only [Option.map_some, Option.some.injEq, Prod.mk.injEq] at hview
      obtain ⟨hslot, htype⟩ := hview
      refine ⟨_, rfl, ?_⟩
      rw [show l.type = v.type.static from htype]
      exact .cell hslot
  | none =>
    rw [hv] at h hview
    have hl : findLocal? c.program.language s.scopes n = none := by
      simpa using hview
    simp only [Site.param?, Option.bind_eq_bind, Option.bind_eq_some_iff, Option.map_eq_some_iff] at h
    obtain ⟨i, hi, type, htype, t, ht, rfl⟩ := h
    have hparam : c.findParam? n = some (.arg (UInt16.ofNat (i + x.base)) type) := by
      simp only [Context.findParam?, hc.program, hc.method, hi, htype, Option.bind_eq_bind,
        Option.bind_some]
      rfl
    rw [hl, hparam, Ty.ofStatic?_eq_some ht]
    refine ⟨_, rfl, .param ?_⟩
    have hlt := (List.getElem?_eq_some_iff.1 htype).1
    have harity := hc.arity
    rw [UInt16.toNat_ofNat', Nat.mod_eq_of_lt]
    simp only [Method.arity, Site.base] at harity ⊢
    omega

theorem nameValue_apply {place : Lowering.Place} (h : c.resolve s.scopes n = .place place)
    (hr : Names x r place) :
    nameValue n pos c s = (r.type.static, (place.load c s).2) := by
  have hname : resolveName n c s = (.place place, s) := congrArg (·, s) h
  rw [nameValue, apply_bind, hname]
  cases hr <;> rfl

end

/-- The opcodes of an operator with one operand. -/
def unaryOpcodes : UnaryOp → Ty → List Opcode
  | .neg, _ => [.neg]
  | .not, .bool => [.ldcI40, .ceq]
  | .not, .int => [.not]

theorem unaryCode?_static (language : Language) (op : UnaryOp) (a : Ty) :
    unaryCode? language op a.static = (unaryType? language op a).map fun _ => unaryOpcodes op a := by
  cases op <;> cases a <;> cases language <;> rfl

theorem unaryType?_eq_some {language : Language} {op : UnaryOp} {a t : Ty}
    (h : unaryType? language op a = some t) : t = a := by
  cases op <;> cases a <;> cases language <;> cases h <;> rfl

theorem static_ne_unknown (t : Ty) : t.static ≠ .unknown := by
  cases t <;> decide

section

variable {x : Site} {σ : Scope} {c : Context} {s : State}

theorem unary_apply_none {op : UnaryOp} {operand : ExprCode} {pos : Source.Position}
    (h : (operand.value c s).1 = .unknown) :
    unary op operand pos c s = (.unknown, (operand.value c s).2) := by
  show (if (operand.value c s).1 = .unknown then (pure .unknown : Gen StaticType) else _) c
    (operand.value c s).2 = _
  rw [if_pos h]
  rfl

theorem unary_apply {op : UnaryOp} {operand : ExprCode} {pos : Source.Position} {a : Ty}
    (h : (operand.value c s).1 = a.static) :
    unary op operand pos c s = ((unaryType? c.program.language op a).elim
      (refuse pos (.badUnaryOperand (unarySymbol c.program.language op)
        (c.program.typeName a.static)))
      (fun t => do
        (unaryOpcodes op a).forM emit
        return t.static) : Gen StaticType) c (operand.value c s).2 := by
  have hlanguage (s : State) : language c s = (c.program.language, s) := rfl
  rw [unary, apply_bind, h, if_neg (static_ne_unknown a), apply_bind, hlanguage]
  simp only [unaryCode?_static]
  cases ht : unaryType? c.program.language op a with
  | none => rfl
  | some t => rw [unaryType?_eq_some ht]; rfl

end

section

variable {x : Site} {σ : Scope} {c : Context} {s s' : State} {op : BinaryOp} {lt : StaticType}
  {rhs : ExprCode} {pos : Source.Position}

theorem applyTo_unknown (h : concatenates op lt rhs c s = (false, s'))
    (hu : lt = .unknown ∨ (rhs.value c s').1 = .unknown) :
    applyTo op lt rhs pos c s = (.unknown, (rhs.value c s').2) := by
  rw [applyTo_apply h]
  show (if lt = .unknown ∨ (rhs.value c s').1 = .unknown then (pure .unknown : Gen StaticType)
    else _) c (rhs.value c s').2 = _
  rw [if_pos hu]
  rfl

theorem applyTo_static {a b : Ty} (h : concatenates op a.static rhs c s = (false, s'))
    (hb : (rhs.value c s').1 = b.static) :
    applyTo op a.static rhs pos c s = (match binaryType? op a b with
      | some t => do
        (opcodesOf op).forM emit
        return t.static
      | none => refuse pos (.badBinaryOperands (binarySymbol c.program.language op)
          (c.program.typeName a.static) (c.program.typeName b.static)) : Gen StaticType) c
        (rhs.value c s').2 := by
  rw [applyTo_apply h]
  show (if a.static = .unknown ∨ (rhs.value c s').1 = .unknown then
    (pure .unknown : Gen StaticType) else
    match operatorCode? op a.static (rhs.value c s').1 with
      | some (.opcodes ops result) => _
      | some (.call m) => _
      | none => _) c (rhs.value c s').2 = _
  rw [hb, if_neg (by simp [static_ne_unknown]), operatorCode?_static]
  cases binaryType? op a b <;> rfl

end

/-! ### Operators that evaluate both operands -/

section

variable {op : BinaryOp} (hand : op ≠ .andAlso) (hor : op ≠ .orElse) (pos : Source.Position)
  (l r : Expr)
include hand hor

theorem compile_binary : compile (.binary pos op l r) =
    let value : Gen StaticType := do
      let lt ← (compile l).value
      applyTo op lt (compile r) pos
    { source := .binary pos op l r
      value
      jump := fun target when_ => do
        if op.isComparison && (← read).options.optimize then
          jumpOnComparison op (compile l) (compile r) pos target when_
        else jumpOnValue value pos target when_ } := by
  cases op <;> first | exact absurd rfl hand | exact absurd rfl hor | rfl

theorem infer_binary (x : Site) (σ : Scope) : infer x σ (.binary pos op l r) =
    match infer x σ l, infer x σ r with
    | some a, some b => binaryType? op a b
    | _, _ => none := by
  cases op <;> first | exact absurd rfl hand | exact absurd rfl hor | rfl

theorem eval_binary (x : Site) (σ : Scope) (st : Store) : eval x σ st (.binary pos op l r) =
    (do
      let a ← eval x σ st l
      let b ← eval x σ st r
      applyBinary op a b) := by
  cases op <;> first | exact absurd rfl hand | exact absurd rfl hor | rfl

end

theorem scoped_probe {x : Site} {σ : Scope} {s : State} (h : Scoped x σ s) :
    Scoped x σ { s with draft := {} } := h

theorem Here.muted {x : Site} {c : Context} (h : Here x c) : Here x { c with muted := true } :=
  ⟨h.program, h.owner, h.method, h.inferLocals, h.arity, h.ret, h.tryDepth⟩

theorem concatenates_typed {x : Site} {σ : Scope} {op : BinaryOp} {a : Option Ty} {r : Expr}
    {c : Context} {s : State} (hop : op ≠ .concat) (hc : Here x c) (hσ : Scoped x σ s)
    (hr : ∀ {c s}, Here x c → Scoped x σ s → ((compile r).value c s).1 = staticOf (infer x σ r)) :
    ∃ s', concatenates op (staticOf a) (compile r) c s = (false, s') ∧ s'.draft = s.draft := by
  refine concatenates_core hop (staticOf_ne_string a) ?_
  show ((compile r).value { c with muted := true } { s with draft := {} }).1 ≠ .string
  rw [hr hc.muted (scoped_probe hσ)]
  exact staticOf_ne_string _

/-- An expression of the core, or one that has a type for another reason: of a conjunction it is the
same whatever the operands are. -/
def Typable (x : Site) (σ : Scope) (e : Expr) : Prop := coreExpr x σ e ∨ (infer x σ e).isSome

theorem Typable.name {x : Site} {σ : Scope} {pos : Source.Position} {n : String}
    (h : Typable x σ (.name pos n)) : (x.lookup? σ n).isSome := by
  rcases h with h | h
  · exact h
  · rwa [infer, Option.isSome_map] at h

theorem Typable.unary {x : Site} {σ : Scope} {pos : Source.Position} {op : UnaryOp} {e : Expr}
    (h : Typable x σ (.unary pos op e)) : Typable x σ e := by
  rcases h with h | h
  · exact .inl h
  · refine .inr ?_
    rw [infer] at h
    cases hi : infer x σ e with
    | none => rw [hi] at h; exact h
    | some a => rfl

theorem Typable.binary {x : Site} {σ : Scope} {pos : Source.Position} {op : BinaryOp} {l r : Expr}
    (hand : op ≠ .andAlso) (hor : op ≠ .orElse) (h : Typable x σ (.binary pos op l r)) :
    op ≠ .concat ∧ Typable x σ l ∧ Typable x σ r := by
  rcases h with h | h
  · simp only [coreExpr, Bool.and_eq_true, decide_eq_true_eq] at h
    exact ⟨h.1.1, .inl h.1.2, .inl h.2⟩
  · rw [infer_binary hand hor] at h
    cases hl : infer x σ l with
    | none => rw [hl] at h; cases h
    | some a =>
      cases hr : infer x σ r with
      | none => rw [hl, hr] at h; cases h
      | some b =>
        rw [hl, hr] at h
        refine ⟨?_, .inr (by rw [hl]; rfl), .inr (by rw [hr]; rfl)⟩
        rintro rfl
        cases a <;> cases b <;> cases h

/-- **Lowering finds the type that an expression of the core has**, also where it only probes. -/
theorem type_compile {x : Site} {σ : Scope} : ∀ e, Typable x σ e → ∀ {c s}, Here x c →
    Scoped x σ s → ((compile e).value c s).1 = staticOf (infer x σ e)
  | .int .., _, _, _, _, _ => rfl
  | .bool .., _, _, _, _, _ => rfl
  | .name pos n, h, c, s, hc, hσ => by
    obtain ⟨r, hr⟩ := Option.isSome_iff_exists.1 h.name
    obtain ⟨place, hplace, hnames⟩ := resolve_lookup hc hσ hr
    show (nameValue n pos c s).1 = _
    rw [nameValue_apply hplace hnames, infer, hr]
    rfl
  | .unary pos op e, h, c, s, hc, hσ => by
    have ht := type_compile e h.unary hc hσ
    show (unary op (compile e) pos c s).1 = _
    rw [infer]
    cases hi : infer x σ e with
    | none =>
      rw [hi] at ht
      rw [unary_apply_none ht]
      rfl
    | some a =>
      rw [hi] at ht
      rw [unary_apply ht, Option.bind_some, Site.language, ← hc.program]
      cases unaryType? c.program.language op a <;> rfl
  | .binary pos op l r, h, c, s, hc, hσ => by
    by_cases hand : op = .andAlso
    · subst hand; rfl
    by_cases hor : op = .orElse
    · subst hor; rfl
    obtain ⟨hop, hl, hr⟩ := h.binary hand hor
    have hlt := type_compile l hl hc hσ
    -- the type of the right operand is found behind the code of the left one, or by probing
    have hσ' := hσ.of_view (still_walk (walks_compile (typing_any c.program) l).value s).view
    obtain ⟨s', hconcat, hdraft⟩ := concatenates_typed (a := infer x σ l) hop hc hσ'
      (type_compile r hr)
    have hσ'' : Scoped x σ s' := by
      have hstill := still_walk (walk_concatenates (T := fun _ => True) (L := fun _ => True) op
        (staticOf (infer x σ l)) (walks_compile (typing_any c.program) r))
        ((compile l).value c s).2
      rw [hconcat] at hstill
      exact hσ'.of_view hstill.view
    have hrt := type_compile r hr hc hσ''
    rw [compile_binary hand hor, infer_binary hand hor]
    show (applyTo op ((compile l).value c s).1 (compile r) pos c ((compile l).value c s).2).1 = _
    rw [hlt]
    cases hil : infer x σ l with
    | none =>
      rw [hil] at hconcat
      rw [applyTo_unknown hconcat (.inl rfl)]
      rfl
    | some a =>
      rw [hil] at hconcat
      cases hir : infer x σ r with
      | none =>
        rw [hir] at hrt
        rw [applyTo_unknown hconcat (.inr hrt)]
        rfl
      | some b =>
        rw [hir] at hrt
        rw [staticOf_some, applyTo_static hconcat hrt]
        dsimp only
        cases binaryType? op a b <;> rfl

/-! ## Opcodes one after the other -/

/-- The effect of opcodes without operands one after the other. -/
def effect : List Opcode → Memory → Effect
  | [], m => .next m
  | op :: rest, m =>
    match Machine.action? op .none with
    | none => .stuck
    | some a =>
      match a.perform m with
      | .next m => effect rest m
      | e => e

/-- An opcode that can be emitted without operand and goes on to the next. -/
def Plain (op : Opcode) : Prop := op.operandKind = .none ∧ op.fallsThrough = true

section

variable {F : Draft} {c : Context} {s : State} {ops : List Opcode} {m m' : Memory}

theorem live_emits (hops : ∀ op ∈ ops, Plain op) (hs : Live s) : Live (ops.forM emit c s).2 := by
  induction ops generalizing s with
  | nil => exact hs
  | cons op ops ih =>
    obtain ⟨hkind, hfalls⟩ := hops op (List.mem_cons_self ..)
    refine ih (fun op h => hops op (List.mem_cons_of_mem _ h)) ?_
    have happ := (Draft.appends_emit s.draft hkind).unreachable
    show (s.draft.emit op).unreachable = false
    rw [happ, show s.draft.unreachable = false from hs, hfalls]
    rfl

theorem final_emit {op : Opcode} (hops : ∀ o ∈ op :: ops, Plain o)
    (hF : Final F ((op :: ops).forM emit c s).2) : Final F (emit op c s).2 := by
  have hwalk : Walk c.program (fun _ => True) (fun _ => True) .assigns (ops.forM emit) fun _ => True :=
    walk_emits (fun op h => (hops op (List.mem_cons_of_mem _ h)).1) fun _ _ _ => trivial
  exact hF.back (frame_walk hwalk (emit op c s).2)

theorem reach_emits (hops : ∀ op ∈ ops, Plain op) (hF : Final F (ops.forM emit c s).2)
    (hm : effect ops m = .next m') :
    Reach F.fetch 0 (here s m) (here (ops.forM emit c s).2 m') := by
  induction ops generalizing s m with
  | nil => cases hm; exact .refl _
  | cons op ops ih =>
    have happ := Draft.appends_emit s.draft (hops op (List.mem_cons_self ..)).1
    have hF' := final_emit hops hF
    simp only [effect] at hm
    split at hm
    · cases hm
    · rename_i a ha
      split at hm
      · rename_i m₁ hm₁
        have hreach := reach_next happ hF'.within ha hm₁
        exact (hreach.trans (ih (fun op h => hops op (List.mem_cons_of_mem _ h)) hF hm)).weaken
          (Nat.zero_le _)
      · rename_i hnext
        exact absurd hm (hnext m')

theorem reach_emits_fault (hops : ∀ op ∈ ops, Plain op) (hF : Final F (ops.forM emit c s).2)
    (hm : effect ops m = .fault) : Reach F.fetch 0 (here s m) .faulted := by
  induction ops generalizing s m with
  | nil => cases hm
  | cons op ops ih =>
    have happ := Draft.appends_emit s.draft (hops op (List.mem_cons_self ..)).1
    have hF' := final_emit hops hF
    simp only [effect] at hm
    split at hm
    · cases hm
    · rename_i a ha
      split at hm
      · rename_i m₁ hm₁
        have hreach := reach_next happ hF'.within ha hm₁
        exact (hreach.trans (ih (fun op h => hops op (List.mem_cons_of_mem _ h)) hF hm)).weaken
          (Nat.zero_le _)
      · exact reach_fault happ hF'.within ha hm

end

theorem plain_opcodesOf (op : BinaryOp) : ∀ o ∈ opcodesOf op, Plain o := by
  cases op <;> simp [opcodesOf, Plain] <;> decide

theorem plain_unaryOpcodes (op : UnaryOp) (t : Ty) : ∀ o ∈ unaryOpcodes op t, Plain o := by
  cases op <;> cases t <;> simp [unaryOpcodes, Plain] <;> decide

theorem ofBool_isZero (b : Bool) :
    Machine.ofBool (decide (Machine.ofBool b = 0)) = Machine.ofBool (!b) := by
  cases b <;> decide

theorem not_lt_eq_le (a b : Int32) : (!decide (b < a)) = decide (a ≤ b) := by
  rw [← decide_not, decide_eq_decide, Int32.not_lt]

/-- The opcodes of an operator do what the operator does. -/
theorem effect_opcodesOf {op : BinaryOp} {a b : Value} {t : Ty} (stack locals args : List Int32)
    (h : binaryType? op a.type b.type = some t) :
    (∃ v, applyBinary op a b = .ok v ∧ v.type = t ∧
      effect (opcodesOf op) ⟨b.word :: a.word :: stack, locals, args⟩ =
        .next ⟨v.word :: stack, locals, args⟩) ∨
    (applyBinary op a b = .error .fault ∧
      effect (opcodesOf op) ⟨b.word :: a.word :: stack, locals, args⟩ = .fault) := by
  have hword {w w' : Int32} (h : w = w') :
      Effect.next ⟨w :: stack, locals, args⟩ = .next ⟨w' :: stack, locals, args⟩ := by rw [h]
  have hdivide (f : Int32 → Int32 → Option Int32) (opcode : Opcode)
      (ha : Machine.action? opcode .none = some (.binary f)) (a b : Int32) :
      (∃ v, ofQuotient (f a b) = .ok v ∧ v.type = .int ∧
        effect [opcode] ⟨b :: a :: stack, locals, args⟩ = .next ⟨v.word :: stack, locals, args⟩) ∨
      (ofQuotient (f a b) = .error .fault ∧
        effect [opcode] ⟨b :: a :: stack, locals, args⟩ = .fault) := by
    simp only [effect, ha, Machine.Action.perform]
    cases f a b with
    | none => exact .inr ⟨rfl, rfl⟩
    | some q => exact .inl ⟨_, rfl, rfl, rfl⟩
  cases a with
  | int a =>
    cases b with
    | bool b => cases op <;> cases h
    | int b =>
      cases op with
      | add | sub | mul | lt | gt | eq | and | or => cases h; exact .inl ⟨_, rfl, rfl, rfl⟩
      | div | intDiv => cases h; exact hdivide _ .div rfl a b
      | rem => cases h; exact hdivide _ .rem rfl a b
      | le =>
        cases h
        refine .inl ⟨_, rfl, rfl, hword ((ofBool_isZero _).trans ?_)⟩
        rw [not_lt_eq_le]
        rfl
      | ge =>
        cases h
        refine .inl ⟨_, rfl, rfl, hword ((ofBool_isZero _).trans ?_)⟩
        rw [not_lt_eq_le]
        rfl
      | ne =>
        cases h
        refine .inl ⟨_, rfl, rfl, hword ((ofBool_isZero _).trans ?_)⟩
        rw [← decide_not]
        rfl
      | concat | andAlso | orElse => cases h
  | bool a =>
    cases b with
    | int b => cases op <;> cases h
    | bool b =>
      cases op with
      | eq | ne | and | or => cases h; exact .inl ⟨_, rfl, rfl, hword (by cases a <;> cases b <;> decide)⟩
      | add | sub | mul | div | intDiv | rem | lt | gt | le | ge | concat | andAlso | orElse => cases h

theorem effect_unaryOpcodes {language : Language} {op : UnaryOp} {a : Value} {t : Ty}
    (stack locals args : List Int32) (h : unaryType? language op a.type = some t) :
    ∃ v, applyUnary language op a = .ok v ∧ v.type = t ∧
      effect (unaryOpcodes op a.type) ⟨a.word :: stack, locals, args⟩ =
        .next ⟨v.word :: stack, locals, args⟩ := by
  cases a with
  | int a =>
    cases op with
    | neg => cases h; exact ⟨_, rfl, rfl, rfl⟩
    | not =>
      cases language with
      | csharp => cases h
      | visualBasic => cases h; exact ⟨_, rfl, rfl, rfl⟩
  | bool a =>
    cases op with
    | neg => cases h
    | not => cases h; exact ⟨_, rfl, rfl, by cases a <;> rfl⟩

/-- The branch of a comparison is taken when the comparison comes out as asked for. -/
theorem action?_comparisonBranch {op : BinaryOp} {a b : Value} {t : Ty} (hop : op.isComparison)
    (h : binaryType? op a.type b.type = some t) (w : Bool) :
    ∃ v jumps, applyBinary op a b = .ok (.bool v) ∧
      Machine.action? (comparisonBranch op w) .none = some (.jumpIfBoth jumps) ∧
      jumps a.word b.word = decide (v = w) := by
  cases a with
  | int a =>
    cases b with
    | bool b => cases op <;> cases h
    | int b =>
      cases op <;> cases hop <;> cases w <;> refine ⟨_, _, rfl, rfl, ?_⟩
      all_goals
        rw [Bool.eq_iff_iff]
        simp only [Value.word, Int32.not_lt, Int32.not_le, decide_eq_true_eq, decide_eq_false_iff_not,
          ne_eq, Decidable.not_not]
        exact decide_eq_true_iff
  | bool a =>
    cases b with
    | int b => cases op <;> cases h
    | bool b =>
      cases op <;> cases hop <;> cases h
      all_goals cases w <;> refine ⟨_, _, rfl, rfl, ?_⟩ <;> cases a <;> cases b <;> decide

theorem hasBranch_static {op : BinaryOp} (hop : op.isComparison) (a b : Ty) :
    hasBranch op a.static b.static = (binaryType? op a b).isSome := by
  cases op <;> cases hop <;> cases a <;> cases b <;> rfl

end CilScope.Core
