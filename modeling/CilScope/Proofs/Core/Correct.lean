import CilScope.Proofs.Core.Method
import CilScope.Proofs.Image.Bodies

/-!
# Compiled methods compute what their source says

`Image.implements_of_generate`: the instructions that a body of the core decodes to return a value
exactly if the evaluation of the source returns it, and fail exactly if a division of the source does.
So they go on forever exactly if the source does.
-/

namespace CilScope.Core

open Source (Stmt)
open Machine (Memory Status Reach)
open Lowering

/-! ## What a run tells of an evaluation -/

theorem word_inj {v w : Value} (ht : v.type = w.type) (h : v.word = w.word) : v = w := by
  cases v with
  | int a =>
    cases w with
    | int b => exact congrArg Value.int h
    | bool b => cases ht
  | bool a =>
    cases w with
    | int b => cases ht
    | bool b => cases a <;> cases b <;> first | rfl | exact absurd h (by decide)

/-- The words that are returned tell what is returned. -/
theorem resultWords_inj {x : Site} {v w : Option Value} (hv : Returns x v) (hw : Returns x w)
    (h : resultWords v = resultWords w) : v = w := by
  cases v with
  | none =>
    cases w with
    | none => rfl
    | some w => cases h
  | some v =>
    cases w with
    | none => cases h
    | some w =>
      have htype : v.type = w.type := Ty.static_inj (hv.trans hw.symm)
      have hword : v.word = w.word := by simpa [resultWords] using h
      rw [word_inj htype hword]

section

variable {x : Site} {F : Draft} {a : Status Nat} {r : Nat → Except Halt (Option Value)}

/-- The machine returns what the evaluation does, and fails if it fails: an evaluation with more rounds
than the machine takes steps is not out of rounds before the machine has ended. -/
theorem exact_of_follows (h : ∀ n, Follows F n a (r n) fun v =>
      Returns x v ∧ Reach F.fetch 0 a (.returned (resultWords v))) :
    (∀ v, Returns x v →
      ((∃ n, Machine.run F.fetch n a = .returned (resultWords v)) ↔ ∃ n, r n = .ok v)) ∧
    ((∃ n, Machine.run F.fetch n a = .faulted) ↔ ∃ n, r n = .error .fault) := by
  -- what the evaluation comes to when it is given more rounds than an ended run has steps
  have hended {k : Nat} {b : Status Nat} (hrun : Machine.run F.fetch k a = b) (hb : b.Halted) :
      (∃ v, r (k + 1) = .ok v ∧ Returns x v ∧ b = .returned (resultWords v)) ∨
        (r (k + 1) = .error .fault ∧ b = .faulted) := by
    have hreach : Reach F.fetch 0 a b := ⟨k, Nat.zero_le k, hrun⟩
    have hfollows := h (k + 1)
    cases hr : r (k + 1) with
    | ok v =>
      rw [hr] at hfollows
      exact .inl ⟨v, rfl, hfollows.1, hreach.eq_of_halted hfollows.2 hb trivial⟩
    | error e =>
      rw [hr] at hfollows
      cases e with
      | fault => exact .inr ⟨rfl, hreach.eq_of_halted hfollows hb trivial⟩
      | meaningless => exact hfollows.elim
      | exhausted =>
        obtain ⟨pc, m, hrunning⟩ := hfollows
        exact absurd hb (hrunning.not_halted hrun (Nat.le_succ k))
  refine ⟨fun v hv => ⟨fun ⟨k, hrun⟩ => ?_, fun ⟨n, hn⟩ => ?_⟩, fun ⟨k, hrun⟩ => ?_, fun ⟨n, hn⟩ => ?_⟩
  · rcases hended hrun trivial with ⟨w, hw, hreturns, hwords⟩ | ⟨-, hfault⟩
    · simp only [Status.returned.injEq] at hwords
      exact ⟨k + 1, resultWords_inj hv hreturns hwords ▸ hw⟩
    · cases hfault
  · have hfollows := h n
    rw [hn] at hfollows
    obtain ⟨k, -, hrun⟩ := hfollows.2
    exact ⟨k, hrun⟩
  · rcases hended hrun trivial with ⟨w, -, -, hwords⟩ | ⟨hfault, -⟩
    · cases hwords
    · exact ⟨k + 1, hfault⟩
  · have hfollows := h n
    rw [hn] at hfollows
    obtain ⟨k, -, hrun⟩ := hfollows
    exact ⟨k, hrun⟩

end

/-! ## Bodies of the core -/

/-- Running the instructions from offset 0, with the arguments given and all locals zero, comes to the
status `s`. -/
def ComesTo (is : List Instruction) (locals : Nat) (args : List Int32) (s : Status UInt32) : Prop :=
  ∃ n, Machine.run (Machine.fetch is) n (Machine.entry locals args) = s

/-- The instructions do what the statements do in the method of `x`: with all arguments that the method
takes, behind any object that it is called on, they return what the evaluation of the statements returns,
and fail if it does. -/
structure Implements (x : Site) (stmts : List Stmt) (locals : Nat) (is : List Instruction) : Prop where
  returns : ∀ this args, this.length = x.base → args.map (·.type.static) = x.method.params →
    ∀ v, Returns x v →
      (ComesTo is locals (this ++ args.map Value.word) (.returned (resultWords v)) ↔
        ∃ n, call x stmts args n = .ok v)
  faults : ∀ this args, this.length = x.base → args.map (·.type.static) = x.method.params →
    (ComesTo is locals (this ++ args.map Value.word) .faulted ↔
      ∃ n, call x stmts args n = .error .fault)

section

variable {program : Program} {options : CodeOptions} {owner : Nat} {method : Method}
  {shared shared' : Shared} {body : FinishedBody} {decl : Source.MethodDecl}

/-- A method of the core that is lowered without an error: its draft does what the method does. -/
theorem follows_of_lowerMethod {x : Site}
    (h : lowerMethod program options owner method shared = .ok (body, shared'))
    (hclean : shared'.log.hasErrors = false) (hdecl : method.origin = .declared decl)
    (hx : ⟨program, options.inferLocals, owner, method⟩ = x) (hcore : inCore x decl.body) :
    ∃ F : Draft, F.finish = .ok body ∧ (∀ i ∈ F.code.toList, i.Shaped) ∧
      ∀ n args m, Holds x F { args } m → m.stack = [] →
        Follows F n (.running 0 m) (call x decl.body args n) fun v =>
          Returns x v ∧ Reach F.fetch 0 (.running 0 m) (.returned (resultWords v)) := by
  obtain ⟨harity, s, hs, hfinish, hlog⟩ := lowerMethod_eq_ok h
  obtain ⟨c, hc⟩ : ∃ c, methodContext program options owner method = c := ⟨_, rfl⟩
  obtain ⟨s₁, hs₁⟩ : ∃ s₁, (mainPart decl c shared.start).2 = s₁ := ⟨_, rfl⟩
  have happly : s = (commonExit c s₁).2 := by
    rw [← hs, ← hs₁, ← hc]
    have horigin : (methodContext program options owner method).method.origin = .declared decl := hdecl
    have hread : (read : Gen Context) (methodContext program options owner method) shared.start =
      (methodContext program options owner method, shared.start) := rfl
    rw [methodBody, apply_bind, hread]
    simp only [horigin]
    rw [declaredBody_eq]
    rfl
  simp only [inCore, Bool.and_eq_true, Bool.or_eq_true, decide_eq_true_eq] at hcore
  obtain ⟨⟨-, hret⟩, hstmts⟩ := hcore
  have hhere : Here x c := by
    subst hx hc
    refine ⟨rfl, rfl, rfl, rfl, harity, hret.imp_right fun ht => ?_, rfl⟩
    obtain ⟨t, ht⟩ := Option.isSome_iff_exists.1 ht
    exact ⟨t, Ty.ofStatic?_eq_some ht⟩
  obtain ⟨hfault, -, hlocals⟩ := Draft.finish_eq_ok hfinish
  -- nothing goes wrong up to the common exit, since nothing has gone wrong behind it
  have hF : Final s₁.draft s₁ := by
    have hframe := (framed_commonExit (b := .declares) c s₁ (sees_any c s₁) (Nat.zero_le _)).1
    rw [← happly] at hframe
    refine ⟨Bool.eq_false_iff.2 fun herrors => ?_, List.prefix_refl _, fun _ _ h => h,
      List.prefix_refl _, hframe.draft.fault hfault⟩
    rw [hlog, hframe.log herrors] at hclean
    cases hclean
  have hF' : Final s₁.draft (mainPart decl c shared.start).2 := by rw [hs₁]; exact hF
  have hmain := follows_mainPart hhere (by subst hc; rfl) (by subst hc; rfl) hstmts rfl rfl rfl hF'
  have hexit : s₁.exit = none := hs₁ ▸ (hmain 0).1
  rw [commonExit_apply hexit] at happly
  subst happly
  have hframe := (framed_methodBody (typing_any program) _ shared.start
    (sees_any (methodContext program options owner method) _) (Nat.zero_le _)).1
  rw [hs] at hframe
  refine ⟨s.draft, hfinish, hframe.draft.shaped hfault fun i hi => absurd hi List.not_mem_nil, ?_⟩
  exact fun n args m hm hstack => (hmain n).2 hm hstack

end

section

variable {F : Draft} {body : FinishedBody}

/-- The memory that a call starts with. -/
def startMemory (F : Draft) (args : List Int32) : Memory :=
  { stack := [], locals := List.replicate F.locals.size 0, args }

theorem holds_startMemory {x : Site} {this : List Int32} {args : List Value}
    (hthis : this.length = x.base) (hargs : args.map (·.type.static) = x.method.params) :
    Holds x F { args } (startMemory F (this ++ args.map Value.word)) where
  length := List.length_replicate
  locals := fun k hk => by
    rw [startMemory, List.getElem?_replicate, if_pos hk]
    rfl
  cells := fun k v hv => by cases hv
  args := ⟨this, hthis, rfl⟩
  params := hargs

/-- The instructions of a finished draft end as the draft does. -/
theorem comesTo_iff (hfinish : F.finish = .ok body) (hlength : body.code.length < 2 ^ 32)
    (args : List Int32) {s : Status Nat} {s' : Status UInt32}
    (hs : ∀ (f : Nat → UInt32) a, Status.map f a = s' ↔ a = s) :
    ComesTo F.instructions body.locals.length args s' ↔
      ∃ n, Machine.run F.fetch n (.running 0 (startMemory F args)) = s := by
  have hlocals : body.locals.length = F.locals.size := by
    rw [(Draft.finish_eq_ok hfinish).2.2, Array.length_toList]
  have hrun (n : Nat) := Machine.run_map (Draft.fetch_of_finish hfinish hlength) n
    (.running 0 (startMemory F args))
  have hentry : Machine.entry body.locals.length args = Status.map
      (fun k => UInt32.ofNat (Draft.place F.settled k)) (.running 0 (startMemory F args)) := by
    rw [hlocals]
    rfl
  simp only [ComesTo, hentry, hrun, hs]

end

section

variable {program : Program} {options : CodeOptions} {owner : Nat} {method : Method}
  {shared shared' : Shared} {body : FinishedBody} {decl : Source.MethodDecl}

/-- What a method of the core decodes to implements it. -/
theorem implements_of_lowerMethod {x : Site}
    (h : lowerMethod program options owner method shared = .ok (body, shared'))
    (hclean : shared'.log.hasErrors = false) (hdecl : method.origin = .declared decl)
    (hx : ⟨program, options.inferLocals, owner, method⟩ = x) (hcore : inCore x decl.body) :
    (body.code.length < 2 ^ 31 → ∃ is, Instruction.decodeStream body.code = .ok is) ∧
      (body.code.length < 2 ^ 32 → ∀ is, Instruction.decodeStream body.code = .ok is →
        Implements x decl.body body.locals.length is) := by
  obtain ⟨F, hfinish, hshaped, hfollows⟩ := follows_of_lowerMethod h hclean hdecl hx hcore
  refine ⟨fun hlength => ⟨_, Draft.decodeStream_of_finish hfinish hshaped hlength⟩,
    fun hlength is hdecode => ?_⟩
  obtain rfl := Draft.instructions_of_decodeStream hfinish hshaped hlength hdecode
  have hexact {this : List Int32} {args : List Value} (hthis : this.length = x.base)
      (hargs : args.map (·.type.static) = x.method.params) :=
    exact_of_follows fun n => hfollows n args _ (holds_startMemory hthis hargs) rfl
  refine ⟨?_, ?_⟩
  · intro this args hthis hargs v hv
    rw [← (hexact hthis hargs).1 v hv]
    refine comesTo_iff hfinish hlength _ fun f a => ?_
    cases a <;> simp [Status.map]
  · intro this args hthis hargs
    rw [← (hexact hthis hargs).2]
    refine comesTo_iff hfinish hlength _ fun f a => ?_
    cases a <;> simp [Status.map]

end

end CilScope.Core

namespace CilScope.Image

open CilScope.Core

/-- **Code generation preserves the meaning of the core.** If a program is accepted, a body stands at the
row of every method of the core. It decodes unless a branch is too long to be written, and the instructions
that it decodes to implement the method. -/
theorem implements_of_generate {language : Language} {options : CodeOptions} {mvid : Vector UInt8 16}
    {unit : Source.CompilationUnit} {log log' declared : Log} {program : Program} {image : Image}
    {owner : Nat} {method : Method} {decl : Source.MethodDecl}
    (hprogram : (Program.declare language unit).run log = (program, declared))
    (hgenerate : generate language options mvid unit log = .ok (some image, log'))
    (hmethod : method ∈ (program.membersOf owner).methods) (hdecl : method.origin = .declared decl)
    (hcore : inCore ⟨program, options.inferLocals, owner, method⟩ decl.body) :
    ∃ body, image.bodies[method.row]? = some body ∧
      (body.code.length < 2 ^ 31 → ∃ is, Instruction.decodeStream body.code = .ok is) ∧
      (body.code.length < 2 ^ 32 → ∀ is, Instruction.decodeStream body.code = .ok is →
        Implements ⟨program, options.inferLocals, owner, method⟩ decl.body body.locals.length is) := by
  obtain ⟨body, before, behind, hbody, hlower, hclean⟩ :=
    lowered_of_generate hprogram hgenerate hmethod
  exact ⟨body, hbody, implements_of_lowerMethod hlower hclean hdecl rfl hcore⟩

/-! ### A sum -/

/-- Adds up the numbers from 1 to `n`. -/
def sumDecl : Source.MethodDecl where
  name := "Sum"
  ret := ⟨.int, {}⟩
  params := [⟨"n", ⟨.int, {}⟩, {}⟩]
  access := none
  isStatic := true
  body := [
    .local_ {} "s" (some ⟨.int, {}⟩) (some (.int {} 0)),
    .while_ {} .while_ (some (.binary {} .gt (.name {} "n") (.int {} 0))) [
      .assign {} (.name {} "s") .add (.name {} "n"),
      .increment {} (.name {} "n") (-1)] none,
    .return_ {} (some (.name {} "s"))]
  pos := {}
  endPos := {}

/-- A class with the method. -/
def sumUnit : Source.CompilationUnit where
  imports := []
  types := [⟨"", "P", .class_, none, [], [sumDecl], [], {}⟩]

/-- The method as it is declared. -/
def sumMethod : Method where
  name := "Sum"
  ret := .int
  params := [.int]
  paramNames := ["n"]
  isStatic := true
  visibility := .private_
  origin := .declared sumDecl

/-- The program as it is declared. -/
def sumProgram : Program := ((Program.declare .csharp sumUnit).run (.forSnippet .csharp)).1

/-- The site of the method. -/
def sumSite : Site := ⟨sumProgram, true, 1, sumMethod⟩

/-- Optimized code. -/
def sumOptions : CodeOptions where
  optimize := true
  debug := false
  inferLocals := true
  core := ⟨4, 0, 0, 0⟩
  basicRuntime := false

/-- The instructions of the sum return 10 for 4, since its evaluation does. -/
theorem comesTo_sum : ∃ image log body is,
    generate .csharp sumOptions (Vector.replicate 16 0) sumUnit (.forSnippet .csharp) =
      .ok (some image, log) ∧
    image.bodies[0]? = some body ∧ Instruction.decodeStream body.code = .ok is ∧
    ComesTo is body.locals.length [4] (.returned [10]) := by
  have hgenerate : ((generate .csharp sumOptions (Vector.replicate 16 0) sumUnit
      (.forSnippet .csharp)).toOption.bind (·.1)).any (fun image =>
        (image.bodies[0]?).all (·.code.length < 2 ^ 31)) = true := by decide +kernel
  have hmethod : (sumProgram.membersOf 1).methods[0]? = some sumMethod := by cbv
  have hcore : inCore sumSite sumDecl.body := by decide +kernel
  have hcall : call sumSite sumDecl.body [.int 4] 5 = .ok (some (.int 10)) := by cbv
  cases hok : generate .csharp sumOptions (Vector.replicate 16 0) sumUnit (.forSnippet .csharp) with
  | error e =>
    rw [hok] at hgenerate
    cases hgenerate
  | ok result =>
    rw [hok] at hgenerate
    obtain ⟨_ | image, log⟩ := result
    · cases hgenerate
    · replace hgenerate : (image.bodies[0]?).all (·.code.length < 2 ^ 31) = true := hgenerate
      obtain ⟨body, hbody, hdecodes, himplements⟩ := implements_of_generate rfl hok
        (List.mem_of_getElem? hmethod) rfl hcore
      rw [show sumMethod.row = 0 from rfl] at hbody
      rw [hbody, Option.all_some, decide_eq_true_eq] at hgenerate
      obtain ⟨is, his⟩ := hdecodes hgenerate
      have hreturns := (himplements (by omega) is his).returns [] [.int 4] rfl rfl
        (some (.int 10)) rfl
      exact ⟨image, log, body, is, rfl, hbody, his, hreturns.2 ⟨5, hcall⟩⟩

end CilScope.Image
