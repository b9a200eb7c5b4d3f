import CilScope.Lowering.Statement
import CilScope.Proofs.Lowering.Settled

/-!
# What can be assigned can be read

What is assigned to is resolved by `target`, and what is read by `evaluate`, in two analyses of their own.
`evaluate_of_target` says where they agree: a place that is accepted without a report is read without a
report, as a value of its type. Two kinds of members of values are apart: shared fields, which are assigned
through a value but not read through one, and members of values that are reported themselves, since the
values are only probed for an assignment.
-/

namespace CilScope.Lowering

open Source (Expr)

variable {c : Context} {s : State} {place : Place} {pos : Source.Position} {name : String}

/-- A look at the context comes first. -/
theorem read_bind_apply {β : Type} (k : Context → Gen β) (c : Context) (s : State) :
    (read >>= k) c s = k c c s := rfl

/-- The meaning of a name comes first. -/
theorem resolveName_bind_apply {β : Type} (name : String) (k : Meaning → Gen β) (c : Context)
    (s : State) : (resolveName name >>= k) c s = k (c.resolve s.scopes name) c s := rfl

/-- The type that an expression names, if any, comes first. -/
theorem asType?_bind_apply {β : Type} (e : Expr) (k : Option StaticType → Gen β) (c : Context)
    (s : State) : (asType? e >>= k) c s = k (c.asType? s.scopes e) c s := rfl

/-! ## Simple names -/

/-- A name means no field of another object. -/
theorem resolve_ne_expr (c : Context) (scopes : List (List Local)) (name : String) (f : Field)
    (code : ExprCode) : c.resolve scopes name ≠ .place (.field f (.expr code)) := by
  intro h
  unfold Context.resolve at h
  split at h
  · cases h
  · split at h
    · rename_i hparam
      cases h
      obtain ⟨i, -, hparam⟩ := Option.bind_eq_some_iff.1 hparam
      obtain ⟨t, -, hparam⟩ := Option.bind_eq_some_iff.1 hparam
      cases hparam
    · repeat' split at h
      all_goals cases h

theorem log_load (place : Place) (c : Context) (s : State) : (place.load c s).2.log = s.log := by
  cases place <;> rfl

theorem log_loadReceiver (h : ∀ f code, place ≠ .field f (.expr code)) (c : Context) (s : State) :
    (place.loadReceiver c s).2.log = s.log := by
  cases place with
  | local_ | arg => rfl
  | field f receiver =>
    cases receiver with
    | none | this => rfl
    | expr code => exact absurd rfl (h f code)

theorem resolve_of_target (h : (target (.name pos name) c s).1 = some place) :
    c.resolve s.scopes name = .place place ∧
      (target (.name pos name) c s).2 = (place.checkInstance name pos c s).2 := by
  rw [target, resolveName_bind_apply] at h ⊢
  cases hm : c.resolve s.scopes name with
  | place q =>
    rw [hm] at h
    cases (show some q = some place from h)
    exact ⟨rfl, rfl⟩
  | methods | type | nothing =>
    rw [hm] at h
    cases h

/-- A name that means a place is read as the place is. -/
theorem evaluate_of_resolve (h : c.resolve s.scopes name = .place place) :
    (evaluate (.name pos name) c s).1 = place.type ∧
      (evaluate (.name pos name) c s).2.log = (place.checkInstance name pos c s).2.log := by
  have happly : evaluate (.name pos name) c s = (do
      place.checkInstance name pos
      place.loadReceiver
      place.load
      return place.type : Gen StaticType) c s := by
    show nameValue name pos c s = _
    rw [nameValue, resolveName_bind_apply, h]
  rw [happly]
  refine ⟨rfl, ?_⟩
  show (place.load c (place.loadReceiver c (place.checkInstance name pos c s).2).2).2.log = _
  rw [log_load, log_loadReceiver fun f code heq => resolve_ne_expr c s.scopes name f code (heq ▸ h)]

/-! ## Members -/

/-- A member of a type that is accepted as a target is a shared field of a class. -/
theorem field_of_staticTarget {t : StaticType} (h : (staticTarget t name pos c s).1 = some place) :
    ∃ index f, t = .class_ index ∧ c.program.fieldOf? index name = some f ∧ f.isStatic = true ∧
      place = .field f .none := by
  cases t with
  | class_ index =>
    rw [staticTarget, read_bind_apply] at h
    cases hf : c.program.fieldOf? index name with
    | none =>
      rw [hf] at h
      cases h
    | some f =>
      rw [hf] at h
      dsimp only at h
      split at h
      · rename_i hstatic
        cases (show some (Place.field f .none) = some place from h)
        exact ⟨index, f, rfl, hf, hstatic, rfl⟩
      · cases h
  | _ => cases h

/-- A member of a value that is accepted as a target is a field of the class the value is found to have
when it is probed. -/
theorem field_of_instanceTarget {receiver : ExprCode}
    (h : (instanceTarget receiver name pos c s).1 = some place) :
    ∃ index f, (probe receiver.value c s).1 = .class_ index ∧
      c.program.fieldOf? index name = some f ∧
      place = .field f (if f.isStatic then .none else .expr receiver) := by
  obtain ⟨s₁, hs₁⟩ : ∃ s₁, (probe receiver.value c s).2 = s₁ := ⟨_, rfl⟩
  rw [instanceTarget, apply_bind, hs₁] at h
  cases ht : (probe receiver.value c s).1 with
  | class_ index =>
    rw [ht] at h
    dsimp only at h
    rw [read_bind_apply] at h
    cases hf : c.program.fieldOf? index name with
    | none =>
      rw [hf] at h
      cases h
    | some f =>
      rw [hf] at h
      exact ⟨index, f, rfl, hf, (Option.some.inj h).symm⟩
  | _ =>
    rw [ht] at h
    cases h

/-- A shared field is read through its class. -/
theorem staticMember_field {index : Nat} {f : Field} (hf : c.program.fieldOf? index name = some f)
    (hstatic : f.isStatic = true) :
    (staticMember (.class_ index) name pos c s).1 = f.type ∧
      (staticMember (.class_ index) name pos c s).2.log = s.log := by
  rw [staticMember, read_bind_apply]
  dsimp only
  rw [hf]
  dsimp only
  rw [if_pos hstatic]
  exact ⟨rfl, rfl⟩

/-- A field of an object is read through the object. -/
theorem instanceMember_field (target : ExprCode) {index : Nat} {f : Field}
    (hf : c.program.fieldOf? index name = some f) (hstatic : f.isStatic = false) :
    (instanceMember target (.class_ index) name pos c s).1 = f.type ∧
      (instanceMember target (.class_ index) name pos c s).2.log = s.log := by
  rw [instanceMember, read_bind_apply]
  dsimp only
  rw [hf]
  dsimp only
  rw [if_neg (by rw [hstatic]; exact Bool.false_ne_true)]
  exact ⟨rfl, rfl⟩

/-- A name that means nothing has no class. -/
theorem isUnknownName_of_class {e : Expr} {index : Nat} (h : (evaluate e c s).1 = .class_ index) :
    isUnknownName e c s = (false, s) := by
  cases e with
  | name pos n =>
    rw [isUnknownName, resolveName_bind_apply]
    cases hm : c.resolve s.scopes n with
    | nothing =>
      have heq : evaluate (.name pos n) c s = refuse pos (.nameNotFound n) c s := by
        show nameValue n pos c s = _
        rw [nameValue, resolveName_bind_apply, hm]
      rw [heq] at h
      cases h
    | place | methods | type => rfl
  | _ => rfl

/-- **What can be assigned can be read.** A place that is accepted without a report is read without a
report, with its type, unless it is a member of a value: then if the value is read without a report, and
the member is no shared field. -/
theorem evaluate_of_target {e : Expr} (hplace : (target e c s).1 = some place)
    (hquiet : (target e c s).2.log = s.log)
    (hvalue : ∀ pos receiver name, e = .member pos receiver name →
      c.asType? s.scopes receiver = none →
        (evaluate receiver c s).2.log = s.log ∧ place.hasReceiver = true) :
    (evaluate e c s).1 = place.type ∧ (evaluate e c s).2.log = s.log := by
  cases e with
  | name pos name =>
    obtain ⟨hresolve, htarget⟩ := resolve_of_target hplace
    exact And.imp_right (·.trans (htarget ▸ hquiet)) (evaluate_of_resolve hresolve)
  | member pos receiver name =>
    have happly : evaluate (.member pos receiver name) c s =
        memberValue (compile receiver) name pos c s := rfl
    rw [target, asType?_bind_apply] at hplace
    rw [happly, memberValue, source_compile, asType?_bind_apply]
    cases ht : c.asType? s.scopes receiver with
    | some t =>
      rw [ht] at hplace
      obtain ⟨index, f, rfl, hf, hstatic, rfl⟩ := field_of_staticTarget hplace
      exact staticMember_field hf hstatic
    | none =>
      rw [ht] at hplace
      obtain ⟨index, f, hclass, hf, rfl⟩ := field_of_instanceTarget hplace
      obtain ⟨hlog, hreceiver⟩ := hvalue pos receiver name rfl ht
      have hstatic : f.isStatic = false := by
        cases hs : f.isStatic with
        | false => rfl
        | true =>
          rw [hs] at hreceiver
          cases hreceiver
      -- the value has the class that probing has found
      have htype : (evaluate receiver c s).1 = .class_ index :=
        (probe_evaluate receiver c s).symm.trans hclass
      dsimp only
      rw [apply_bind, isUnknownName_of_class htype]
      show (instanceMember (compile receiver) (evaluate receiver c s).1 name pos c
          (evaluate receiver c s).2).1 = _ ∧ (instanceMember (compile receiver) (evaluate receiver c s).1
          name pos c (evaluate receiver c s).2).2.log = _
      rw [htype]
      exact And.imp_right (·.trans hlog) (instanceMember_field (compile receiver) hf hstatic)
  | _ => cases hplace

end CilScope.Lowering
