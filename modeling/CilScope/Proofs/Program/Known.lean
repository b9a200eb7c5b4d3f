import CilScope.Proofs.Program.Declare

/-!
# Types that are known

What has been reported as wrong has the type `unknown`. Conversely, a declaration has no such type unless
something was reported: where a program is declared and no error is in the log, the types of all fields,
methods and parameters are known (`known_of_declare`). That classes have constructors does not depend on
the log (`constructs_of_declare`).
-/

namespace CilScope

/-- No part of the type is the type of what has been reported as wrong. -/
def StaticType.IsKnown : StaticType → Prop
  | .unknown => False
  | .array e => e.IsKnown
  | _ => True

theorem StaticType.IsKnown.ne {t : StaticType} (h : t.IsKnown) : t ≠ .unknown := by
  rintro rfl
  exact h

namespace Program

open Source

/-- No member has the type of what has been reported as wrong. -/
structure Known (p : Program) : Prop where
  field : ∀ i, ∀ f ∈ (p.membersOf i).fields, f.type.IsKnown
  ret : ∀ i, ∀ m ∈ (p.membersOf i).methods, m.ret.IsKnown
  params : ∀ i, ∀ m ∈ (p.membersOf i).methods, ∀ t ∈ m.params, t.IsKnown

/-- Classes that have instances have constructors. -/
def Constructs (p : Program) : Prop :=
  ∀ i head, p.types[i]? = some head → 0 < i → head.isStatic = false → (p.ctorOf? i).isSome

/-! ## Results that are vouched for -/

/-- If there is no error in the log in the end, there was none before and the result has `Q`. -/
def Vouches {α : Type} (g : StateM Log α) (Q : α → Prop) : Prop :=
  ∀ log, (g.run log).2.hasErrors = false → log.hasErrors = false ∧ Q (g.run log).1

namespace Vouches

variable {α β : Type} {Q : α → Prop} {R : β → Prop}

theorem pure {a : α} (h : Q a) : Vouches (Pure.pure a) Q := fun _ hlog => ⟨hlog, h⟩

/-- What is known of the first result is a premise of what is said of the second, and not of the step:
also where an error is reported, the rest goes on. -/
theorem bind {g : StateM Log α} {k : α → StateM Log β} (hg : Vouches g Q)
    (hk : ∀ a, Vouches (k a) fun b => Q a → R b) : Vouches (g >>= k) R := by
  intro log hlog
  obtain ⟨hmid, hR⟩ := hk _ (g.run log).2 hlog
  obtain ⟨hstart, hQ⟩ := hg log hmid
  exact ⟨hstart, hR hQ⟩

theorem imp {g : StateM Log α} {Q' : α → Prop} (hg : Vouches g Q) (h : ∀ a, Q a → Q' a) :
    Vouches g Q' :=
  fun log hlog => And.imp_right (h _) (hg log hlog)

theorem note (isProblem : Bool) (pos : Position) (cause : Cause) :
    Vouches (note isProblem pos cause) fun _ => True := by
  intro log hlog
  refine ⟨?_, trivial⟩
  cases isProblem with
  | false => exact hlog
  | true =>
    cases hbefore : log.hasErrors with
    | false => rfl
    | true =>
      have : (log.report pos cause).hasErrors = true := Lowering.hasErrors_report pos cause hbefore
      exact this.symm.trans hlog

theorem seq {g : StateM Log Unit} {k : StateM Log β} (hg : Vouches g fun _ => True)
    (hk : Vouches k R) : Vouches (g >>= fun _ => k) R :=
  hg.bind fun _ => hk.imp fun _ hR _ => hR

theorem mapM {xs : List α} {f : α → StateM Log β} (h : ∀ x ∈ xs, Vouches (f x) R) :
    Vouches (xs.mapM f) fun ys => ∀ y ∈ ys, R y := by
  induction xs with
  | nil => exact pure (by simp)
  | cons x xs ih =>
    rw [List.mapM_cons]
    refine (h x (List.mem_cons_self ..)).bind fun y => ?_
    refine (ih fun x' hx' => h x' (List.mem_cons_of_mem _ hx')).bind fun ys => ?_
    exact pure fun hys hy => List.forall_mem_cons.2 ⟨hy, hys⟩

end Vouches

/-- An error that is reported is in the log. -/
theorem hasErrors_report_of_error {log : Log} {cause : Cause}
    (h : cause.severity log.language = .error) (pos : Position) :
    (log.report pos cause).hasErrors = true := by
  have herror : (cause.diagnostic log.language (some ⟨log.file, pos⟩)).isError = true :=
    decide_eq_true h
  rw [Log.hasErrors, Log.report, Array.any_push, herror, Bool.or_true]

/-- A type that can be found is known. -/
theorem known_of_lookup? {o : Outline} {i : Nat} {name : String} {t : StaticType}
    (h : o.lookup? i name = some t) : t.IsKnown := by
  unfold Outline.lookup? at h
  split at h
  · cases h
    trivial
  · obtain ⟨c, -, rfl⟩ := Option.map_eq_some_iff.1 h
    cases c <;> trivial

/-- A type that is written means something, unless an error is reported. -/
theorem vouches_resolve (o : Outline) (i : Nat) (pos : Position) :
    ∀ t : TypeName, Vouches (o.resolve i pos t) StaticType.IsKnown
  | .void | .int | .bool | .string | .object => .pure trivial
  | .array e => by
    rw [Outline.resolve]
    refine (vouches_resolve o i pos e).bind fun t => ?_
    cases t <;> exact .pure id
  | .named name => by
    rw [Outline.resolve]
    cases hl : o.lookup? i name with
    | some t => exact .pure (known_of_lookup? hl)
    | none =>
      intro log hlog
      have herror : (log.report pos (.typeNotFound name)).hasErrors = true :=
        hasErrors_report_of_error rfl pos
      cases herror.symm.trans hlog

/-! ## Members -/

section

variable (o : Outline) (index : Nat) (d : TypeDecl)

theorem vouches_declareFields (fs : List FieldDecl) (before : List Field) :
    Vouches (declareFields o index d before fs) fun fields =>
      (∀ f ∈ before, f.type.IsKnown) → ∀ f ∈ fields, f.type.IsKnown := by
  induction fs generalizing before with
  | nil => exact .pure id
  | cons f fs ih =>
    rw [declareFields_cons]
    refine .seq (.note _ _ _) (.seq (.note _ _ _) ((vouches_resolve o _ _ _).bind fun type => ?_))
    refine (ih _).imp fun fields hfields htype hbefore => hfields ?_
    simpa only [List.forall_mem_append, List.forall_mem_singleton] using ⟨hbefore, htype⟩

theorem vouches_declareMethods (ms : List MethodDecl) (before : List Method) :
    Vouches (declareMethods o index d before ms) fun methods =>
      (∀ m ∈ before, m.ret.IsKnown ∧ ∀ t ∈ m.params, t.IsKnown) →
        ∀ m ∈ methods, m.ret.IsKnown ∧ ∀ t ∈ m.params, t.IsKnown := by
  induction ms generalizing before with
  | nil => exact .pure id
  | cons m ms ih =>
    rw [declareMethods_cons]
    refine .seq (.note _ _ _) ((vouches_resolve o _ _ _).bind fun ret => ?_)
    refine (Vouches.mapM fun p _ => vouches_resolve o _ _ _).bind fun params => ?_
    refine .seq (.note _ _ _) ((ih _).imp fun methods hmethods hparams hret hbefore => hmethods ?_)
    simpa only [List.forall_mem_append, List.forall_mem_singleton] using ⟨hbefore, hret, hparams⟩

/-- All types of the members are known. -/
def KnownMembers (m : Members) : Prop :=
  (∀ f ∈ m.fields, f.type.IsKnown) ∧ ∀ x ∈ m.methods, x.ret.IsKnown ∧ ∀ t ∈ x.params, t.IsKnown

theorem vouches_declareMembers : Vouches (declareMembers o index d) KnownMembers := by
  refine (vouches_declareFields o index d _ _).bind fun fields => ?_
  refine (vouches_declareMethods o index d _ _).bind fun methods => .pure fun hmethods hfields => ?_
  refine ⟨hfields (by simp), ?_⟩
  have hnew : ∀ m ∈ [Method.ctor, Method.cctor], m.ret.IsKnown ∧ ∀ t ∈ m.params, t.IsKnown := by
    simp [Method.ctor, Method.cctor, StaticType.IsKnown]
  have hdeclared := hmethods (by simp)
  intro m hm
  have hcases : m ∈ methods ∨ m ∈ [Method.ctor, Method.cctor] := by
    dsimp only at hm
    split at hm <;> split at hm <;> simp at hm ⊢ <;> tauto
  rcases hcases with hm | hm
  · exact hdeclared m hm
  · exact hnew m hm

theorem vouches_declareAllMembers (ds : List TypeDecl) (index : Nat) :
    Vouches (declareAllMembers o index ds) fun members => ∀ m ∈ members, KnownMembers m := by
  induction ds generalizing index with
  | nil => exact .pure (by simp)
  | cons d ds ih =>
    refine (vouches_declareMembers o index d).bind fun m => (ih (index + 1)).bind fun ms => ?_
    exact .pure fun hms hm => List.forall_mem_cons.2 ⟨hm, hms⟩

/-- A class has a constructor among its members. -/
theorem yields_declareMembers_ctor : Yields (declareMembers o index d) fun m =>
    d.kind = .class_ → ∃ x ∈ m.methods, x.origin matches .ctor := by
  refine Yields.bind (Q := fun _ => True) (fun _ => trivial) fun fields _ => ?_
  refine Yields.bind (Q := fun _ => True) (fun _ => trivial) fun methods _ => .pure fun hkind => ?_
  refine ⟨.ctor, ?_, rfl⟩
  dsimp only
  rw [if_pos hkind]
  split <;> simp

theorem yields_declareAllMembers_ctor (ds : List TypeDecl) (index : Nat) :
    Yields (declareAllMembers o index ds) fun members =>
      List.Forall₂ (fun d m => d.kind = .class_ → ∃ x ∈ m.methods, x.origin matches .ctor) ds
        members := by
  induction ds generalizing index with
  | nil => exact .pure .nil
  | cons d ds ih =>
    refine (yields_declareMembers_ctor o index d).bind fun m hm => ?_
    exact (ih (index + 1)).bind fun ms hms => .pure (.cons hm hms)

end

mutual

/-- The types are declared with the kinds that they have in the source. -/
theorem kinds_declareType (enclosing : Option Nat) : ∀ (d : TypeDecl) (o : Outline),
    Yields (declareType enclosing d o) fun o' =>
      o'.types.toList.map (·.kind) = o.types.toList.map (·.kind) ++ (flatten d).map (·.kind)
  | ⟨namespace_, name, kind, access, fields, methods, nested, pos⟩, o => by
    rw [declareType_mk, flatten]
    refine .seq fun log => ?_
    rw [kinds_declareTypes (some o.types.size) nested _ log, Array.toList_push, List.map_append,
      List.append_assoc]
    rfl

theorem kinds_declareTypes (enclosing : Option Nat) : ∀ (ds : List TypeDecl) (o : Outline),
    Yields (declareTypes enclosing ds o) fun o' =>
      o'.types.toList.map (·.kind) = o.types.toList.map (·.kind) ++ (flattenAll ds).map (·.kind)
  | [], o => by
    rw [declareTypes, flattenAll]
    exact .pure (by simp)
  | d :: rest, o => by
    rw [declareTypes, flattenAll]
    refine (kinds_declareType enclosing d o).bind fun o' ho' log => ?_
    rw [kinds_declareTypes enclosing rest o' log, ho', List.map_append, List.append_assoc]

end

mutual

theorem vouches_declareType (enclosing : Option Nat) : ∀ (d : TypeDecl) (o : Outline),
    Vouches (declareType enclosing d o) fun _ => True
  | ⟨namespace_, name, kind, access, fields, methods, nested, pos⟩, o => by
    rw [declareType_mk]
    exact .seq (.note _ _ _) (vouches_declareTypes (some o.types.size) nested _)

theorem vouches_declareTypes (enclosing : Option Nat) : ∀ (ds : List TypeDecl) (o : Outline),
    Vouches (declareTypes enclosing ds o) fun _ => True
  | [], o => .pure trivial
  | d :: rest, o => by
    rw [declareTypes]
    refine (vouches_declareType enclosing d o).bind fun o' => ?_
    exact (vouches_declareTypes enclosing rest o').imp fun _ _ _ => trivial

end

/-! ## Programs -/

theorem knownMembers_numberRows {ms : List Members} (h : ∀ m ∈ ms, KnownMembers m)
    (fieldRow methodRow : Nat) : ∀ m ∈ numberRows fieldRow methodRow ms, KnownMembers m := by
  induction ms generalizing fieldRow methodRow with
  | nil => exact fun m hm => absurd hm List.not_mem_nil
  | cons m ms ih =>
    obtain ⟨hm, hms⟩ := List.forall_mem_cons.1 h
    rw [numberRows]
    exact List.forall_mem_cons.2 ⟨⟨forall_mem_mapIdx hm.1 fun _ _ h => h,
      forall_mem_mapIdx hm.2 fun _ _ h => h⟩, ih hms _ _⟩

/-- Numbering the members leaves the methods what they are. -/
theorem forall₂_numberRows (ms : List Members) (fieldRow methodRow : Nat) :
    List.Forall₂ (fun m m' => m'.methods.map (·.origin) = m.methods.map (·.origin)) ms
      (numberRows fieldRow methodRow ms) := by
  induction ms generalizing fieldRow methodRow with
  | nil => exact .nil
  | cons m ms ih =>
    rw [numberRows]
    refine .cons ?_ (ih _ _)
    exact List.ext_getElem (by simp) fun i _ _ => by simp

theorem getElem?_forall₂ {α β : Type} {R : α → β → Prop} {xs : List α} {ys : List β}
    (h : List.Forall₂ R xs ys) {k : Nat} {x : α} (hx : xs[k]? = some x) :
    ∃ y, ys[k]? = some y ∧ R x y := by
  induction h generalizing k with
  | nil => cases hx
  | @cons _ y _ _ hxy _ ih =>
    cases k with
    | zero =>
      cases hx
      exact ⟨y, rfl, hxy⟩
    | succ k => exact ih hx

/-- **Where no error is reported, all declared types are known.** -/
theorem known_of_declare {language : Language} {unit : CompilationUnit} {log log' : Log} {p : Program}
    (h : (declare language unit).run log = (p, log')) (herrors : log'.hasErrors = false) : p.Known := by
  have hvouches : Vouches (declare language unit) Known := by
    refine (vouches_declareTypes none unit.types _).bind fun o => ?_
    refine (vouches_declareAllMembers o _ 1).bind fun ms => ?_
    refine .pure fun hms _ => ?_
    have hall : ∀ m ∈ numberRows 0 0 ({} :: ms), KnownMembers m := by
      refine knownMembers_numberRows (List.forall_mem_cons.2 ⟨⟨?_, ?_⟩, hms⟩) 0 0 <;>
        exact fun _ h => (List.not_mem_nil h).elim
    have hmembers (i : Nat) :
        KnownMembers (membersOf { o with members := (numberRows 0 0 ({} :: ms)).toArray } i) := by
      rcases membersOf_cases { o with members := (numberRows 0 0 ({} :: ms)).toArray } i with hi | hi
      · exact hall _ (List.mem_of_getElem? hi)
      · rw [hi]
        exact ⟨fun _ h => (List.not_mem_nil h).elim, fun _ h => (List.not_mem_nil h).elim⟩
    exact ⟨fun i => (hmembers i).1, fun i m hm => ((hmembers i).2 m hm).1,
      fun i m hm => ((hmembers i).2 m hm).2⟩
  have := hvouches log
  rw [h] at this
  exact (this herrors).2

/-- **A class that has instances has a constructor.** -/
theorem constructs_of_declare {language : Language} {unit : CompilationUnit} {log log' : Log}
    {p : Program} (h : (declare language unit).run log = (p, log')) : p.Constructs := by
  have hyields : Yields (declare language unit) Constructs := by
    refine (kinds_declareTypes none unit.types _).bind fun o ho => ?_
    refine (yields_declareAllMembers_ctor o (flattenAll unit.types) 1).bind fun ms hms => .pure ?_
    intro i head hhead hi hstatic
    obtain ⟨k, rfl⟩ : ∃ k, i = k + 1 := ⟨i - 1, by omega⟩
    -- the source has the type at `k`, and it is a class
    have hkind : ((flattenAll unit.types).map (·.kind))[k]? = some head.kind := by
      have hlist := congrArg (·[k + 1]?) ho
      have hkinds : (o.types.toList.map (·.kind))[k + 1]? = some head.kind := by
        rw [List.getElem?_map, Array.getElem?_toList, show o.types[k + 1]? = some head from hhead]
        rfl
      exact hlist.symm.trans hkinds
    rw [List.getElem?_map, Option.map_eq_some_iff] at hkind
    obtain ⟨d, hd, hkind⟩ := hkind
    have hclass : d.kind = .class_ := by
      rw [hkind]
      exact of_not_not (of_decide_eq_false hstatic)
    -- so there is a constructor in the row of the type, which numbering leaves there
    obtain ⟨m, hm, hctor⟩ := getElem?_forall₂ hms hd
    obtain ⟨m', hm', horigins⟩ := getElem?_forall₂ (forall₂_numberRows ({} :: ms) 0 0)
      (show ({} :: ms)[k + 1]? = some m from hm)
    obtain ⟨x, hx, horigin⟩ := hctor hclass
    have hmem : x.origin ∈ m'.methods.map (·.origin) := horigins ▸ List.mem_map_of_mem hx
    obtain ⟨x', hx', heq⟩ := List.mem_map.1 hmem
    have hrow : membersOf { o with members := (numberRows 0 0 ({} :: ms)).toArray } (k + 1) = m' := by
      rw [membersOf, List.getElem?_toArray, hm']
      rfl
    rw [ctorOf?, hrow, List.find?_isSome]
    exact ⟨x', hx', by rw [heq]; exact horigin⟩
  have := hyields log
  rwa [h] at this

end Program

end CilScope
