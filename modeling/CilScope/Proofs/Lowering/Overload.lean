import CilScope.Proofs.Lowering.Readable

/-!
# The choice of an overload

A call takes the first overload whose parameters are the types of the arguments, else the first one that
all arguments convert to. `choose_exact` says so of the lists as they stand: that there is a choice if and
only if something fits, which one is chosen, and what is reported otherwise. The types are found by probing
one argument after the other; that this leaves the log alone (`log_probe_evaluate`) and that no argument's
type depends on the probing of another one (`settled_evaluate`) is what makes the types those of the
arguments in the state before the call (`probes_apply`).
-/

namespace CilScope.Lowering

open Source (Expr)

/-! ## The types of the arguments -/

theorem compileAll_eq_map (es : List Expr) : compileAll es = es.map compile := by
  induction es with
  | nil => rfl
  | cons e es ih => exact congrArg (compile e :: ·) ih

/-- The types that the arguments of a call have where the call is. -/
def argumentTypes (es : List Expr) (c : Context) (s : State) : List StaticType :=
  es.map fun e => (probe (evaluate e) c s).1

/-- Probing the arguments one after the other yields the type that each one has, and reports nothing. -/
theorem probes_apply (es : List Expr) (c : Context) (s : State) :
    ∃ s', ((compileAll es).mapM fun a => probe a.value) c s = (argumentTypes es c s, s') ∧
      s'.log = s.log := by
  induction es generalizing s with
  | nil => exact ⟨s, rfl, rfl⟩
  | cons e es ih =>
    have hprobe : Settled c.program (probe (evaluate e)) := (settled_evaluate e).probe
    obtain ⟨s', happly, hlog⟩ := ih (probe (evaluate e) c s).2
    -- the types of the rest are the same behind the probing of `e`
    have htypes : argumentTypes es c (probe (evaluate e) c s).2 = argumentTypes es c s :=
      List.map_congr_left fun e' _ =>
        (settled_evaluate e').probe.same c c.muted s _ rfl (hprobe.view c s rfl)
    rw [htypes] at happly
    refine ⟨s', ?_, hlog.trans (log_probe_evaluate e c s)⟩
    rw [compileAll, List.mapM_cons, apply_bind, apply_bind]
    have hrest : (compileAll es).mapM (fun a => probe a.value) c (probe (compile e).value c s).2 =
        (argumentTypes es c s, s') := happly
    rw [hrest]
    rfl

/-! ## What fits -/

/-- Parameters that take arguments of these types: one for each, to which it converts. -/
def Fits (params args : List StaticType) : Prop :=
  List.Forall₂ (fun t a => a.convertsTo t = true) params args

/-- Parameters that are of the types of the arguments. The literal for no object is of every type of
references. -/
def FitsExactly (params args : List StaticType) : Prop :=
  List.Forall₂ (fun t a => t = a ∨ a = .null ∧ t.isReference = true) params args

/-- The first element of a list that has `P`. -/
def First {α : Type} (P : α → Prop) (xs : List α) (x : α) : Prop :=
  ∃ before behind, xs = before ++ x :: behind ∧ P x ∧ ∀ y ∈ before, ¬P y

theorem First.mem {α : Type} {P : α → Prop} {xs : List α} {x : α} (h : First P xs x) : x ∈ xs := by
  obtain ⟨before, behind, rfl, -⟩ := h
  exact List.mem_append_right _ (List.mem_cons_self ..)

theorem First.holds {α : Type} {P : α → Prop} {xs : List α} {x : α} (h : First P xs x) : P x := by
  obtain ⟨_, _, -, hx, -⟩ := h
  exact hx

theorem convertsTo_of_matchesExactly {t a : StaticType}
    (h : t = a ∨ a = .null ∧ t.isReference = true) : a.convertsTo t = true := by
  rcases h with rfl | ⟨rfl, ht⟩
  · simp [StaticType.convertsTo]
  · simp [StaticType.convertsTo, ht]

theorem FitsExactly.fits {params args : List StaticType} (h : FitsExactly params args) :
    Fits params args :=
  List.Forall₂.imp (fun _ _ => convertsTo_of_matchesExactly) h

/-- A relation between two lists is tested for each pair, and the lengths are compared. -/
theorem forall₂_iff_all {α β : Type} {R : α → β → Prop} {f : α → β → Bool}
    (hf : ∀ a b, f a b = true ↔ R a b) (xs : List α) (ys : List β) :
    List.Forall₂ R xs ys ↔ xs.length = ys.length ∧ (List.zipWith f xs ys).all id = true := by
  induction xs generalizing ys with
  | nil => cases ys <;> simp
  | cons x xs ih =>
    cases ys with
    | nil => simp
    | cons y ys =>
      simp only [List.forall₂_cons, ih, List.length_cons, Nat.add_right_cancel_iff, List.zipWith_cons_cons,
        List.all_cons, id, Bool.and_eq_true, hf]
      exact and_left_comm

section

variable {α : Type} {params : α → List StaticType} {args : List StaticType} {x : α}

theorem fitsExactly_iff :
    FitsExactly (params x) args ↔ (params x).length = args.length ∧
      (List.zipWith matchesExactly (params x) args).all id = true :=
  forall₂_iff_all (fun t a => by simp [matchesExactly]) _ _

theorem fits_iff :
    Fits (params x) args ↔ (params x).length = args.length ∧
      (List.zipWith StaticType.convertsTo args (params x)).all id = true := by
  rw [List.zipWith_comm]
  exact forall₂_iff_all (fun _ _ => Iff.rfl) _ _

end

/-! ## What is chosen -/

/-- The overload that arguments of these types choose, if any. -/
inductive Choice {α : Type} (params : α → List StaticType) (candidates : List α)
    (args : List StaticType) : Option α → Prop
  /-- The first one that fits exactly. -/
  | exact {x : α} (h : First (fun x => FitsExactly (params x) args) candidates x) :
      Choice params candidates args (some x)
  /-- The first one that fits, where none fits exactly. -/
  | first {x : α} (hexact : ∀ y ∈ candidates, ¬FitsExactly (params y) args)
      (h : First (fun x => Fits (params x) args) candidates x) : Choice params candidates args (some x)
  /-- None fits. -/
  | none (h : ∀ y ∈ candidates, ¬Fits (params y) args) : Choice params candidates args none

/-- Looking for something among those that pass a test looks for the first one that has both. -/
theorem find?_filter_some {α : Type} {P : α → Prop} {test found : α → Bool}
    (hP : ∀ x, P x ↔ test x = true ∧ found x = true) {xs : List α} {x : α}
    (h : (xs.filter test).find? found = some x) : First P xs x := by
  rw [List.find?_filter] at h
  obtain ⟨hx, before, behind, hxs, hbefore⟩ := List.find?_eq_some_iff_append.1 h
  refine ⟨before, behind, hxs, (hP x).2 (of_decide_eq_true hx), fun y hy hPy => ?_⟩
  have hfound := (hP y).1 hPy
  have := hbefore y hy
  simp [hfound] at this

theorem find?_filter_none {α : Type} {P : α → Prop} {test found : α → Bool}
    (hP : ∀ x, P x ↔ test x = true ∧ found x = true) {xs : List α}
    (h : (xs.filter test).find? found = none) : ∀ y ∈ xs, ¬P y := by
  rw [List.find?_filter] at h
  intro y hy hPy
  exact List.find?_eq_none.1 h y hy (decide_eq_true ((hP y).1 hPy))

section

variable {α : Type} {params : α → List StaticType} {candidates : List α}

/-- **The best overload is the choice.** -/
theorem choice_bestOverload? (params : α → List StaticType) (candidates : List α)
    (args : List StaticType) :
    Choice params candidates args
      (bestOverload? params (candidates.filter fun x => (params x).length = args.length) args) := by
  have hexact (x : α) : FitsExactly (params x) args ↔
      decide ((params x).length = args.length) = true ∧
        (List.zipWith matchesExactly (params x) args).all id = true :=
    fitsExactly_iff.trans (and_congr_left' decide_eq_true_iff.symm)
  have hfits (x : α) : Fits (params x) args ↔ decide ((params x).length = args.length) = true ∧
      (List.zipWith StaticType.convertsTo args (params x)).all id = true :=
    fits_iff.trans (and_congr_left' decide_eq_true_iff.symm)
  cases h : bestOverload? params (candidates.filter fun x => (params x).length = args.length) args with
  | some x =>
    rcases Option.or_eq_some_iff.1 h with h | ⟨hnone, h⟩
    · exact .exact (find?_filter_some hexact h)
    · exact .first (find?_filter_none hexact hnone) (find?_filter_some hfits h)
  | none => exact .none (find?_filter_none hfits (Option.or_eq_none_iff.1 h).2)

namespace Choice

variable {args : List StaticType} {r : Option α}

/-- The choice is a candidate, and the arguments fit it. -/
theorem fits {x : α} (h : Choice params candidates args (some x)) :
    x ∈ candidates ∧ Fits (params x) args := by
  cases h with
  | exact h => exact ⟨h.mem, h.holds.fits⟩
  | first _ h => exact ⟨h.mem, h.holds⟩

/-- There is a choice if and only if some candidate fits. -/
theorem isSome_iff (h : Choice params candidates args r) :
    r.isSome = true ↔ ∃ x ∈ candidates, Fits (params x) args := by
  cases r with
  | some x => exact ⟨fun _ => ⟨x, h.fits⟩, fun _ => rfl⟩
  | none =>
    obtain ⟨⟩ | ⟨⟩ | hnone := h
    exact ⟨nofun, fun ⟨x, hx, hfits⟩ => absurd hfits (hnone x hx)⟩

end Choice

/-! ## What is reported -/

/-- What is wrong with a call that no candidate fits: where, and what is reported there. -/
inductive Complaint (program : Program) (params : α → List StaticType) (candidates : List α)
    (name : String) (es : List Expr) (args : List StaticType) (pos : Source.Position) :
    Source.Position → Cause → Prop
  /-- No candidate has as many parameters. -/
  | count (h : ∀ y ∈ candidates, (params y).length ≠ es.length) :
      Complaint program params candidates name es args pos pos (.wrongArgCount name es.length)
  /-- The first argument that does not convert to the parameter of the first candidate with as many. -/
  | argument {x : α} {i : Nat} {e : Expr} {a t : StaticType}
      (hx : First (fun x => (params x).length = es.length) candidates x) (he : es[i]? = some e)
      (ha : args[i]? = some a) (ht : (params x)[i]? = some t) (hbad : a.convertsTo t = false)
      (hbefore : ∀ j < i, ∀ a t, args[j]? = some a → (params x)[j]? = some t → a.convertsTo t = true) :
      Complaint program params candidates name es args pos e.pos
        (.badArgument (i + 1) (program.typeName a) (program.typeName t))

/-- Where as many arguments do not fit, the first pair that does not is found. -/
theorem findIdx?_of_not_fits {ts args : List StaticType} (hlength : ts.length = args.length)
    (h : ¬Fits ts args) :
    ∃ i a t, (args.zip ts).findIdx? (fun x => !x.1.convertsTo x.2) = some i ∧
      (args.zip ts)[i]? = some (a, t) ∧ a.convertsTo t = false ∧
      ∀ j < i, ∀ a t, args[j]? = some a → ts[j]? = some t → a.convertsTo t = true := by
  cases hfind : (args.zip ts).findIdx? fun x => !x.1.convertsTo x.2 with
  | none =>
    refine absurd (List.Forall₂.flip (List.forall₂_iff_zip.2 ⟨hlength.symm, fun hmem => ?_⟩)) h
    simpa [flip] using List.findIdx?_eq_none_iff.1 hfind _ hmem
  | some i =>
    obtain ⟨hi, hbad, hbefore⟩ := List.findIdx?_eq_some_iff_getElem.1 hfind
    refine ⟨i, _, _, rfl, List.getElem?_eq_getElem hi, by simpa using hbad, fun j hj a t ha ht => ?_⟩
    have hpair : (args.zip ts)[j]? = some (a, t) := List.getElem?_zip_eq_some.2 ⟨ha, ht⟩
    have heq : (args.zip ts)[j] = (a, t) :=
      Option.some.inj ((List.getElem?_eq_getElem (Nat.lt_trans hj hi)).symm.trans hpair)
    simpa [heq] using hbefore j hj

/-! ## Choosing -/

variable {c : Context} {s : State} {es : List Expr}

theorem length_argumentTypes : (argumentTypes es c s).length = es.length := List.length_map ..

/-- Where the types of the arguments are known, `choose` takes the best of the candidates with as many
parameters. -/
theorem choose_of_some (name : String) (pos : Source.Position) {x : α}
    (hknown : .unknown ∉ argumentTypes es c s)
    (hbest : bestOverload? params (candidates.filter fun x => (params x).length = es.length)
      (argumentTypes es c s) = some x) :
    ∃ s', s'.log = s.log ∧ choose params candidates name (compileAll es) pos c s = (some x, s') := by
  obtain ⟨s', happly, hlog⟩ := probes_apply es c s
  refine ⟨s', hlog, ?_⟩
  rw [choose, apply_bind, happly, compileAll_eq_map, List.length_map]
  dsimp only
  rw [if_neg hknown, hbest]
  rfl

/-- Where there is none, `choose` reports what is wrong. -/
theorem choose_of_none (name : String) (pos : Source.Position)
    (hknown : .unknown ∉ argumentTypes es c s)
    (hbest : bestOverload? params (candidates.filter fun x => (params x).length = es.length)
      (argumentTypes es c s) = none) :
    ∃ s' at_ cause, s'.log = s.log ∧
      Complaint c.program params candidates name es (argumentTypes es c s) pos at_ cause ∧
      choose params candidates name (compileAll es) pos c s = (none, (report at_ cause c s').2) := by
  obtain ⟨s', happly, hlog⟩ := probes_apply es c s
  have hnone (y : α) (hy : y ∈ candidates) : ¬Fits (params y) (argumentTypes es c s) := by
    have hchoice := choice_bestOverload? params candidates (argumentTypes es c s)
    rw [length_argumentTypes, hbest] at hchoice
    obtain ⟨⟩ | ⟨⟩ | hnone := hchoice
    exact hnone y hy
  rw [choose, apply_bind, happly, compileAll_eq_map, List.length_map]
  dsimp only
  rw [if_neg hknown, hbest]
  cases hfilter : candidates.filter fun x => (params x).length = es.length with
  | nil =>
    refine ⟨s', _, _, hlog, .count fun y hy => ?_, rfl⟩
    simpa using List.filter_eq_nil_iff.1 hfilter y hy
  | cons x rest =>
    obtain ⟨before, behind, hxs, hbefore, hx, -⟩ := List.filter_eq_cons_iff.1 hfilter
    have hfirst : First (fun x => (params x).length = es.length) candidates x :=
      ⟨before, behind, hxs, of_decide_eq_true hx, fun y hy => by simpa using hbefore y hy⟩
    obtain ⟨i, a, t, hfind, hpair, hbad, hok⟩ := findIdx?_of_not_fits
      (hfirst.holds.trans length_argumentTypes.symm) (hnone x hfirst.mem)
    obtain ⟨ha, ht⟩ := List.getElem?_zip_eq_some.1 hpair
    have hi : i < es.length := by
      rw [← length_argumentTypes (c := c) (s := s)]
      exact (List.getElem?_eq_some_iff.1 ha).1
    have he : es[i]? = some es[i] := List.getElem?_eq_getElem hi
    have hcode : (es.map compile)[i]? = some (compile es[i]) := by
      rw [List.getElem?_map, he, Option.map_some]
    refine ⟨s', _, _, hlog, .argument hfirst he ha ht hbad hok, ?_⟩
    dsimp only
    rw [hfind]
    dsimp only
    rw [hpair, hcode]
    dsimp only
    rw [ExprCode.pos, source_compile]
    rfl

/-- **The choice of an overload is exact.** For arguments whose types are known, one is chosen if and only
if some candidate has as many parameters and every argument converts to its parameter. The one that is
chosen is such a candidate: the first that fits exactly, if there is one, else the first that fits. If none
is chosen there is one report, unless the step is muted: that the number of arguments is wrong, if no
candidate has as many parameters, else the first argument that does not convert to the parameter of the
first candidate with as many. -/
theorem choose_exact (params : α → List StaticType) (candidates : List α) (name : String)
    (es : List Expr) (pos : Source.Position) (c : Context) (s : State)
    (hknown : .unknown ∉ argumentTypes es c s) :
    let args := argumentTypes es c s
    let r := choose params candidates name (compileAll es) pos c s
    (r.1.isSome = true ↔ ∃ x ∈ candidates, Fits (params x) args) ∧
      (∀ x, r.1 = some x → x ∈ candidates ∧ Fits (params x) args) ∧
      Choice params candidates args r.1 ∧
      (r.1.isSome = true → r.2.log = s.log) ∧
      (r.1 = none → c.muted = true → r.2.log = s.log) ∧
      (r.1 = none → c.muted = false → ∃ at_ cause,
        Complaint c.program params candidates name es args pos at_ cause ∧
          r.2.log = s.log.report at_ cause) := by
  intro args r
  have hchoice : Choice params candidates args (bestOverload? params
      (candidates.filter fun x => (params x).length = es.length) args) :=
    length_argumentTypes (c := c) (s := s) ▸ choice_bestOverload? params candidates args
  cases hbest : bestOverload? params (candidates.filter fun x => (params x).length = es.length) args with
  | some x =>
    obtain ⟨s', hlog, happly⟩ := choose_of_some name pos hknown hbest
    have hr : r = (some x, s') := happly
    rw [hbest] at hchoice
    rw [hr]
    refine ⟨hchoice.isSome_iff, fun y hy => ?_, hchoice, fun _ => hlog, nofun, nofun⟩
    cases hy
    exact hchoice.fits
  | none =>
    obtain ⟨s', at_, cause, hlog, hcomplaint, happly⟩ :=
      choose_of_none name pos hknown hbest
    have hr : r = (none, (report at_ cause c s').2) := happly
    rw [hbest] at hchoice
    rw [hr, report_apply]
    refine ⟨hchoice.isSome_iff, nofun, hchoice, nofun, fun _ hmuted => ?_, fun _ hmuted => ?_⟩
    · rw [if_pos hmuted]
      exact hlog
    · rw [if_neg (by rw [hmuted]; exact Bool.false_ne_true)]
      exact ⟨at_, cause, hcomplaint, congrArg (·.report at_ cause) hlog⟩

/-- A text and the literal for no object are taken by the overload for a text and an exception, though they
convert to the parameters of an earlier one. -/
theorem choose_textAndNull :
    let candidates : List (List StaticType) :=
      [[.string], [.object, .object], [.string, .lib .exception], [.string, .object]]
    let es : List Expr := [.str ⟨1, 1⟩ "text", .null ⟨1, 9⟩]
    let c : Context := { program := default, options := default, owner := 0, method := .cctor }
    let s : State := { references := default, log := .forSnippet .csharp }
    .unknown ∉ argumentTypes es c s ∧
      Choice id candidates (argumentTypes es c s) (some [.string, .lib .exception]) ∧
      (choose id candidates "Log" (compileAll es) ⟨1, 1⟩ c s).2.log = s.log := by
  intro candidates es c s
  have hknown : .unknown ∉ argumentTypes es c s := by decide
  have hchosen : (choose id candidates "Log" (compileAll es) ⟨1, 1⟩ c s).1 =
      some [.string, .lib .exception] := by decide
  obtain ⟨-, -, hchoice, hlog, -⟩ := choose_exact id candidates "Log" es ⟨1, 1⟩ c s hknown
  exact ⟨hknown, hchosen ▸ hchoice, hlog (by rw [hchosen]; rfl)⟩

end

end CilScope.Lowering
