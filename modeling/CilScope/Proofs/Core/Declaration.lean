import CilScope.Proofs.Core.Simple

/-!
# Declarations of locals

A declaration takes the next slot, which is the cell of the variable, and its name means the new
local from there on. A name that is in use already is refused, so the order in which the scopes are
searched does not matter.
-/

namespace CilScope.Core

open Source (Expr TypeUse)
open Machine (Memory Status Reach)
open Lowering

/-! ## Scopes -/

theorem sameName_of_both {language : Language} {a b n : String} (ha : language.sameName a n)
    (hb : language.sameName b n) : language.sameName a b := by
  cases language with
  | csharp =>
    simp only [Language.sameName, beq_iff_eq] at ha hb ⊢
    rw [ha, hb]
  | visualBasic =>
    simp only [Language.sameName, beq_iff_eq] at ha hb ⊢
    rw [ha, hb]

theorem findView_cons (language : Language) (scope : List (String × UInt16 × StaticType))
    (outer : List (List (String × UInt16 × StaticType))) (name : String) :
    findView language (scope :: outer) name =
      (scope.find? (language.sameName ·.1 name)).or (findView language outer name) := by
  rw [findView, List.findSome?_cons]
  cases scope.find? (language.sameName ·.1 name) <;> rfl

/-- A name that is free clashes with nothing in view. -/
theorem findView_eq_none {language : Language} {view : List (List (String × UInt16 × StaticType))}
    {name n : String} (hfree : findView language view name = none) (hn : language.sameName name n) :
    findView language view n = none := by
  induction view with
  | nil => rfl
  | cons scope outer ih =>
    rw [findView_cons, Option.or_eq_none_iff] at hfree ⊢
    refine ⟨?_, ih hfree.2⟩
    rw [List.find?_eq_none] at hfree ⊢
    intro v hv hvn
    refine hfree.1 v hv ?_
    exact sameName_of_both hvn hn

theorem scoped_declare {x : Site} {σ : Scope} {s s' : State} {name : String} {slot : UInt16} {t : Ty}
    (hσ : Scoped x σ s) (hinner : s.view ≠ []) (hfree : findView x.language s.view name = none)
    (hview : s'.view = extend [(name, slot, t.static)] s.view) (hslot : slot.toNat = σ.next) :
    Scoped x (σ.declare name t) s' := by
  intro n
  have hold := hσ n
  rw [hview]
  cases hs : s.view with
  | nil => exact absurd hs hinner
  | cons scope outer =>
    rw [hs] at hold hfree
    rw [extend, findView_cons, List.find?_append]
    rw [findView_cons] at hold
    have hvars : (σ.declare name t).vars = ⟨name, t, σ.next⟩ :: σ.vars := rfl
    rw [hvars]
    by_cases hn : x.language.sameName name n
    · -- the new local is the only one with this name
      have hnone := findView_eq_none hfree hn
      rw [findView_cons, Option.or_eq_none_iff] at hnone
      have hn' : x.program.sameName name n := hn
      rw [hnone.1, hnone.2]
      simp [hn, hn', hslot]
    · have hn₀ : x.language.sameName name n = false := by simpa using hn
      have hn' : x.program.sameName name n = false := hn₀
      have hnew : [(name, slot, t.static)].find? (x.language.sameName ·.1 n) = none := by
        rw [List.find?_cons, hn₀]
        rfl
      rw [hnew, Option.or_none, List.find?_cons, hn']
      exact hold

/-! ## Types -/

/-- The type of a declared local. -/
def declaredType (type : Option TypeUse) (init : Option Expr) (pos : Source.Position) :
    Gen StaticType :=
  match type with
  | some type => resolveType type
  | none => inferredType init pos

/-- The declaration once its type is known. -/
def declareAs (name : String) (init : Option Expr) (pos : Source.Position) (type : StaticType) :
    Gen Unit := do
  if let some new ← declareLocal name type pos then
    if let some init := init then
      coerce (← evaluate init) type init.pos
      edit (·.storeLocal new.slot)
      markAssigned new.slot (isLiteral init)

theorem localStatement_eq (name : String) (type : Option TypeUse) (init : Option Expr)
    (pos : Source.Position) :
    localStatement name type init pos = declaredType type init pos >>= declareAs name init pos := by
  cases type <;> rfl

theorem walk_declaredType {p : Program} {b : Freedom} (type : Option TypeUse) (init : Option Expr)
    (pos : Source.Position) :
    Walk p (fun _ => True) (fun _ => True) b (declaredType type init pos) fun _ => True := by
  cases type with
  | some type => exact .resolveType type
  | none => exact walk_inferredType (typing_any p) init pos

section

variable {x : Site} {σ : Scope} {c : Context} {s : State}

theorem type_written {type : TypeUse} {t : Ty} (hc : Here x c)
    (h : x.writtenType? type.name = some t) :
    (resolveType type c s).1 = t.static ∧ (resolveType type c s).2.draft = s.draft := by
  rw [resolveType_apply, hc.program, hc.owner]
  constructor
  · obtain ⟨name, pos⟩ := type
    cases name with
    | int => cases h; rfl
    | bool => cases h; rfl
    | void | string | object | array => cases h
    | named name =>
      obtain ⟨type, hl, ht⟩ := Option.bind_eq_some_iff.1 h
      have hrun : (x.program.resolve x.owner pos (.named name)).run s.log = (type, s.log) := by
        simp only [Outline.resolve, hl]
        rfl
      rw [hrun]
      exact Ty.ofStatic?_eq_some ht
  · dsimp only
    split <;> rfl

theorem type_inferred {e : Expr} {t : Ty} (pos : Source.Position) (hc : Here x c) (hσ : Scoped x σ s)
    (hinfer : x.inferLocals = true) (h : infer x σ e = some t) :
    (inferredType (some e) pos c s).1 = t.static ∧
      (inferredType (some e) pos c s).2.draft = s.draft := by
  have htype : (probe (evaluate e) c s).1 = t.static := by
    have := type_compile e (.inr (by rw [h]; rfl)) hc.muted (scoped_probe hσ)
    rw [h] at this
    exact this
  have happly : inferredType (some e) pos c s = (t.static, (probe (evaluate e) c s).2) := by
    have hread : (read : Gen Context) c s = (c, s) := rfl
    have hlanguage (s : State) : language c s = (c.program.language, s) := rfl
    rw [inferredType, apply_bind, hread, apply_bind, hlanguage]
    dsimp only
    rw [hc.inferLocals, hinfer]
    cases c.program.language <;>
    · simp only [if_true, apply_bind, htype]
      cases t <;> rfl
  rw [happly]
  exact ⟨rfl, rfl⟩

/-- Lowering finds the type that the core gives to a local. -/
theorem type_declared {type : Option TypeUse} {init : Option Expr} {t : Ty} (pos : Source.Position)
    (hc : Here x c) (hσ : Scoped x σ s) (h : localType? x σ type init = some t) :
    (declaredType type init pos c s).1 = t.static ∧
      (declaredType type init pos c s).2.draft = s.draft := by
  cases type with
  | some type => exact type_written hc h
  | none =>
    cases init with
    | none => cases h
    | some e =>
      simp only [localType?] at h
      split at h
      · rename_i hinfer
        exact type_inferred pos hc hσ hinfer h
      · cases h

/-! ## Declarations -/

/-- What a declaration does with the initial value. -/
def storeInit (slot : UInt16) (type : StaticType) (init : Option Expr) : Gen Unit := do
  if let some init := init then
    coerce (← evaluate init) type init.pos
    edit (·.storeLocal slot)
    markAssigned slot (isLiteral init)

theorem walk_storeInit {p : Program} {b : Freedom} (slot : UInt16) (type : StaticType)
    (init : Option Expr) (hb : b ≠ .reads) :
    Walk p (fun _ => True) (fun _ => True) b (storeInit slot type init) fun _ => True := by
  cases init with
  | none => exact .pure trivial
  | some e =>
    refine (walk_evaluate (typing_any p) e).bind fun _ _ => (walk_coerce ..).seq ?_
    exact (Walk.emission (.storeLocal _)).seq (walk_markAssigned _ _ hb)

variable {F : Draft}

/-- A name that is free gets the next cell. -/
theorem at_declare {name : String} {t : Ty} {new : Local} {s' : State} (hat : At x F σ c s)
    (hfree : findLocal? c.program.language s.scopes name = none) {pos : Source.Position}
    (hdeclare : declareLocal name t.static pos c s = (some new, s')) (hF : Final F s') :
    At x F (σ.declare name t) c s' ∧ new.slot.toNat = σ.next ∧ (Live s → Live s') ∧
      s'.draft.code = s.draft.code := by
  rw [declareLocal_apply hfree] at hdeclare
  cases hdeclare
  have hlanguage : c.program.language = x.language := by rw [hat.ready.here.program]; rfl
  have hsig : (s.references.useType t.static).typeSig t.static = t.sig := by cases t <;> rfl
  have hslot := (Draft.slot_declareLocal _ _ _ hF.within.fault).trans hat.next.symm
  have hfind : findView x.language s.view name = none := by
    rw [findView_view, ← hlanguage, hfree]
    rfl
  refine ⟨⟨⟨⟨hat.ready.here, hat.ready.loud, ?_, ?_⟩, ?_, ?_, hat.exit⟩, ?_⟩, hslot, ?_, ?_⟩
  · exact scoped_declare hat.ready.names hat.inner hfind (view_extend _ _) hslot
  · -- the cell of the new variable is the local that was declared for it
    intro v hv
    rcases List.mem_cons.1 hv with rfl | hv
    · refine ⟨⟨(s.references.useType t.static).typeSig t.static,
        if c.options.debug then some name else none⟩, ?_, hsig⟩
      rw [← Array.getElem?_toList]
      refine getElem?_of_prefix hF.within.locals ?_
      rw [Draft.locals_declareLocal, Array.toList_push, hat.next, ← Array.length_toList,
        List.getElem?_concat_length]
    · exact hat.ready.celled v hv
  · show σ.next + 1 = (Draft.locals _).size
    rw [Draft.locals_declareLocal, Array.size_push, hat.next]
  · refine fun f hf => (hat.loops f hf).mono ?_
    exact Nat.le_of_eq (congrArg Array.size (Draft.labels_declareLocal _ _ _)).symm
  · show (extend _ s.scopes).map _ ≠ []
    rw [view_extend]
    have hinner := hat.inner
    cases hs : s.scopes with
    | nil => rw [State.view, hs] at hinner; exact absurd rfl hinner
    | cons scope outer => simp [extend]
  · exact fun hs => (Draft.unreachable_declareLocal _ _ _).trans hs
  · exact Draft.code_declareLocal _ _ _

theorem arrives_storeInit {e : Expr} {t : Ty} {slot : UInt16} {k : Nat} {st : Store} {m : Memory}
    (he : coreExpr x σ e) (hready : Ready x F σ c s) (hs : Live s) (hm : Holds x F st m)
    (hstack : m.stack = []) (hk : Known x F (.cell k t)) (hslot : slot.toNat = k)
    (hF : Final F (storeInit slot t.static (some e) c s).2) (n : Nat) :
    Follows F n (here s m) (eval x σ st e >>= st.write (.cell k t))
      (Arrives x F (here s m) (storeInit slot t.static (some e) c s).2) := by
  have happly : storeInit slot t.static (some e) c s = markAssigned slot (isLiteral e) c
      (edit (·.storeLocal slot) c
        (coerce ((compile e).value c s).1 t.static e.pos c ((compile e).value c s).2).2).2 := rfl
  rw [happly] at hF ⊢
  have hF₃ := final_before c (walk_markAssigned slot (isLiteral e) (by decide)) hF
  have hF₂ := final_before c (.emission (.storeLocal slot)) hF₃
  have hF₁ := final_before c (walk_coerce ..) hF₂
  refine ((simulates_compile e he).value hready hs hm hF₁ n).bind fun v ⟨hv, hpush⟩ => ?_
  rw [type_value he hready hv] at hF₂ hF₃ ⊢
  obtain ⟨hvt, hcoerce⟩ := coerce_static hready.loud hF₂
  rw [hcoerce] at hF₃ ⊢
  have hnames : Names x (.cell k t) (.local_ slot t.static) := .cell hslot
  obtain ⟨st', hwrite, harrives⟩ := arrives_store hpush.live hm hstack hk hnames hvt hF₃
  rw [hwrite]
  exact harrives.after hpush.reach

/-- A declaration makes its name mean a new cell, and stores the initial value there. -/
theorem realizes_local (n : Nat) (name : String) {type : Option TypeUse} {init : Option Expr} {t : Ty}
    (pos : Source.Position) (ht : localType? x σ type init = some t)
    (he : ∀ e, init = some e → coreExpr x (σ.declare name t) e) :
    Realizes x F n σ (σ.declare name t) c (localStatement name type init pos) fun st =>
      match init with
      | none => .ok (.normal, st)
      | some e =>
        (eval x (σ.declare name t) st e >>= st.write (.cell σ.next t)) >>= fun st =>
          .ok (.normal, st) := by
  intro s₀ hat₀ hF
  obtain ⟨htype, hdraft⟩ := type_declared (s := s₀) pos hat₀.ready.here hat₀.ready.names ht
  have happly : localStatement name type init pos c s₀ =
      declareAs name init pos t.static c (declaredType type init pos c s₀).2 := by
    rw [localStatement_eq, ← htype]
    rfl
  rw [happly] at hF ⊢
  have hat : At x F σ c (declaredType type init pos c s₀).2 :=
    hat₀.walk (walk_declaredType type init pos)
  generalize (declaredType type init pos c s₀).2 = s at hdraft hat hF ⊢
  cases hfree : findLocal? c.program.language s.scopes name with
  | some l =>
    have htaken : (declareAs name init pos t.static c s).2 =
        (report pos (.duplicateLocal name) c s).2 := by
      show ((match (declareLocal name t.static pos c s).1 with
        | some new => _
        | _ => _ : Gen Unit) c (declareLocal name t.static pos c s).2).2 = _
      rw [declareLocal_taken hfree]
      rfl
    rw [htaken] at hF
    exact absurd hF (not_final_report hat.ready.loud fun _ => rfl)
  | none =>
    obtain ⟨new, s', hdeclare⟩ : ∃ new s', declareLocal name t.static pos c s = (some new, s') :=
      ⟨_, _, declareLocal_apply hfree⟩
    have hinit : declareAs name init pos t.static c s = storeInit new.slot t.static init c s' := by
      show (match (declareLocal name t.static pos c s).1 with
        | some new => _
        | _ => _ : Gen Unit) c (declareLocal name t.static pos c s).2 = _
      rw [hdeclare]
      rfl
    rw [hinit] at hF ⊢
    have hF' : Final F s' := final_before c (walk_storeInit _ _ init (by decide)) hF
    obtain ⟨hat', hslot, hlive, hcode⟩ := at_declare hat hfree hdeclare hF'
    refine ⟨hat'.walk (walk_storeInit _ _ init (by decide)), fun st m hs hm hstack => ?_⟩
    have hs' : Live s' := hlive (by rw [Live, hdraft]; exact hs)
    have hhere : here s₀ m = here s' m := by rw [here, here, hcode, hdraft]
    rw [hhere]
    cases init with
    | none => exact ⟨hs', m, hm, hstack, .refl _⟩
    | some e =>
      have hknown : Known x F (.cell σ.next t) := hat'.ready.celled _ (List.mem_cons_self ..)
      have hfollows := arrives_storeInit (he e rfl) hat'.ready hs' hm hstack hknown hslot hF n
      exact hfollows.bind fun st' h => h

end

end CilScope.Core
