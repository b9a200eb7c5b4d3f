import CilScope.Proofs.Core.Semantics
import CilScope.Proofs.Source.Meaning

/-!
# The core as a basis of statements

The evaluation of the core gives a `Basis`, and over it `Source.exec` is the execution of the core:
wherever the core has a meaning, both come to the same end and the same store.
-/

namespace CilScope.Core

open Source (Expr Stmt Basis Ending LoopKind)

/-! ## The basis -/

/-- A value that is found without a change of the store. -/
def look (r : Except Halt Value) : Source.Run Store Halt Value := fun st => r.map (·, st)

/-- A new store. -/
def put (r : Except Halt Store) : Source.Run Store Halt Unit := fun _ => r.map ((), ·)

theorem look_keeps {r : Except Halt Value} {st st' : Store} {v : Value}
    (h : look r st = .ok (v, st')) : st' = st := by
  cases r with
  | error e => cases h
  | ok w => exact (congrArg Prod.snd (Except.ok.inj h)).symm

/-- Whether a value is a negative integer. -/
def Value.isNegative : Value → Bool
  | int v => v < 0
  | bool _ => false

/-- The value of a variable by its name. -/
def readName (x : Site) (σ : Scope) (name : String) (st : Store) : Except Halt Value :=
  match x.lookup? σ name with
  | some r => st.read r
  | none => .error .meaningless

/-- Stores a value in a variable by its name. -/
def writeName (x : Site) (σ : Scope) (name : String) (v : Value) (st : Store) : Except Halt Store :=
  match x.lookup? σ name with
  | some r => st.write r v
  | none => .error .meaningless

/-- The core as a basis: nothing but integers and truth values has a meaning. -/
def basis (x : Site) : Basis Scope Value Store Halt where
  int := .int
  isNegative := Value.isNegative
  isNegative_int _ := rfl
  eval σ e st := look (eval x σ st e) st
  read σ name st := look (readName x σ name st) st
  write σ name v st := put (writeName x σ name v st) st
  operate op a b := look (applyBinary op a b)
  truth v st := (truth v).map (·, st)
  eval_int _ _ _ := rfl
  eval_name _ _ _ := rfl
  eval_comparison σ pos op l r hop := by
    funext st
    have heval : eval x σ st (.binary pos op l r) = (do
        let a ← eval x σ st l
        let b ← eval x σ st r
        applyBinary op a b) := by cases op <;> first | rfl | cases hop
    change look (eval x σ st (.binary pos op l r)) st = _
    rw [heval]
    change _ = (do
      let (a, st₁) ← look (eval x σ st l) st
      let (b, st₂) ← look (eval x σ st₁ r) st₁
      look (applyBinary op a b) st₂)
    cases hl : eval x σ st l with
    | error e => rfl
    | ok a =>
      cases hr : eval x σ st r with
      | error e => simp [look, hr, Except.map, bind, Except.bind]
      | ok b => simp [look, hr, Except.map, bind, Except.bind]
  read_keeps _ _ _ _ _ h := look_keeps h
  operate_keeps _ _ _ _ _ _ h := look_keeps h
  truth_keeps v st b st' h := by
    cases v with
    | int _ => cases h
    | bool _ => exact (congrArg Prod.snd (Except.ok.inj h)).symm
  effect σ s st := put ((update x σ st s).getD (.error .meaningless)) st
  throw_ _ _ _ := .error .meaningless
  protect _ _ _ _ _ := .error .meaningless
  after := after x
  after_assign _ _ _ _ _ := rfl
  closed σ body := σ.skip (cellsAll body)
  caught σ _ := σ
  exhausted _ := .exhausted

/-! ## The same execution -/

/-- The end of a statement. -/
def Outcome.ending : Outcome → Ending Value
  | normal => .normal
  | break_ k => .break_ k
  | continue_ k => .continue_ k
  | return_ v => .return_ v

/-- What a statement comes to over the basis. -/
def ended (r : Outcome × Store) : Ending Value × Store := (r.1.ending, r.2)

/-- The second computation gives what the first one does, wherever that has a meaning. -/
def Matches {α β : Type} (f : α → β) (p : Except Halt α) (q : Except Halt β) : Prop :=
  p ≠ .error .meaningless → q = p.map f

namespace Matches

variable {α β γ δ : Type} {f : α → β} {g : γ → δ} {p : Except Halt α} {q : Except Halt β}

theorem ok {a : α} {b : β} (h : b = f a) : Matches f (.ok a) (.ok b) := fun _ => congrArg Except.ok h

theorem error (e : Halt) : Matches f (.error e) (.error e) := fun _ => rfl

theorem meaningless : Matches f (.error .meaningless) q := fun h => absurd rfl h

theorem map : Matches f p (p.map f) := fun _ => rfl

theorem bind {k : α → Except Halt γ} {l : β → Except Halt δ} (h : Matches f p q)
    (hk : ∀ a, p = .ok a → Matches g (k a) (l (f a))) : Matches g (p >>= k) (q >>= l) := by
  cases p with
  | ok a =>
    rw [h (by simp)]
    exact hk a rfl
  | error e =>
    intro hp
    rw [h fun he => hp (he ▸ rfl)]
    rfl

end Matches

section

variable {x : Site} {σ : Scope} {st : Store}

/-- The same ends leave a loop. -/
theorem unlessLeft_ending (kind : LoopKind) (o : Outcome) (next : Source.Run Store Halt (Ending Value)) :
    o.ending.unlessLeft kind next =
      (loopOutcome kind o).elim next fun o => Pure.pure o.ending := by
  cases o with
  | normal | return_ => rfl
  | break_ k | continue_ k =>
    cases h : k.all (decide <| · = kind) <;>
      simp [Outcome.ending, Ending.unlessLeft, Ending.leaves, loopOutcome, h]

theorem matches_test (cond : Expr) :
    Matches (·, st) (test x σ cond st) ((basis x).test σ cond st) :=
  Matches.map.bind fun _ _ => .map

theorem matches_topTest (cond : Option Expr) :
    Matches (·, st) (topTest x σ cond st) ((basis x).topTest σ cond st) := by
  cases cond with
  | none => exact .ok rfl
  | some cond => exact matches_test cond

/-- Loops of the same parts match. -/
theorem matches_topRounds {kind : LoopKind} {test : Store → Except Halt Bool}
    {body : Store → Result} {step : Store → Except Halt Store} {test' : Source.Run Store Halt Bool}
    {body' : Source.Run Store Halt (Ending Value)} {step' : Source.Run Store Halt Unit}
    (htest : ∀ st, Matches (·, st) (test st) (test' st))
    (hbody : ∀ st, Matches ended (body st) (body' st))
    (hstep : ∀ st, Matches ((), ·) (step st) (step' st)) (n : Nat) (st : Store) :
    Matches ended (whileRounds kind test body step n st)
      ((basis x).topRounds kind test' body' step' n st) := by
  induction n generalizing st with
  | zero => exact .error _
  | succ n ih =>
    refine (htest st).bind fun goes _ => ?_
    cases goes with
    | false => exact .ok rfl
    | true =>
      refine (hbody st).bind fun r _ => ?_
      obtain ⟨o, st⟩ := r
      change Matches ended _ (o.ending.unlessLeft kind _ st)
      rw [unlessLeft_ending]
      dsimp only
      cases loopOutcome kind o with
      | some o => exact .ok rfl
      | none => exact (hstep st).bind fun st _ => ih st

/-- Loops tested at their bottom match. -/
theorem matches_bottomRounds {test : Store → Except Halt Bool} {body : Store → Result}
    {test' : Source.Run Store Halt Bool} {body' : Source.Run Store Halt (Ending Value)}
    (htest : ∀ st, Matches (·, st) (test st) (test' st))
    (hbody : ∀ st, Matches ended (body st) (body' st)) (n : Nat) (st : Store) :
    Matches ended (doRounds test body n st) ((basis x).bottomRounds test' body' n st) := by
  induction n generalizing st with
  | zero => exact .error _
  | succ n ih =>
    refine (hbody st).bind fun r _ => ?_
    obtain ⟨o, st⟩ := r
    change Matches ended _ (o.ending.unlessLeft .do_ _ st)
    rw [unlessLeft_ending]
    dsimp only
    cases loopOutcome .do_ o with
    | some o => exact .ok rfl
    | none =>
      refine (htest st).bind fun goes _ => ?_
      cases goes with
      | false => exact .ok rfl
      | true => exact ih st

theorem matches_write {name : String} {r : Ref} (h : x.lookup? σ name = some r) (v : Value) :
    Matches ((), ·) (st.write r v) ((basis x).write σ name v st) := by
  simp only [basis, writeName, h]
  exact .map

theorem matches_assign (pos pos' : Source.Position) (name : String) (op : Source.AssignOp) (e : Expr)
    {r : Except Halt Store} (h : update x σ st (.assign pos (.name pos' name) op e) = some r) :
    Matches ((), ·) r ((basis x).assign σ name op e st) := by
  cases h
  cases hname : x.lookup? σ name with
  | none => exact .meaningless
  | some r =>
    rw [Basis.assign]
    cases Lowering.compoundOperator? op with
    | none => exact Matches.map.bind fun v _ => matches_write hname v
    | some op =>
      have hread : Matches (·, st) (st.read r) ((basis x).read σ name st) := by
        simp only [basis, readName, hname]
        exact .map
      exact hread.bind fun old _ => Matches.map.bind fun v _ => Matches.map.bind fun w _ =>
        matches_write hname w

/-- An assignment or an increment is a step that ends normally. -/
theorem exists_update (n : Nat) (s : Stmt) {r : Except Halt Store} (h : update x σ st s = some r) :
    ∃ q : Source.Run Store Halt Unit, Matches ((), ·) r (q st) ∧
      Source.exec (basis x) n s σ = do q; return .normal := by
  have heffect : Matches ((), ·) r ((basis x).effect σ s st) := by
    simp only [basis, h]
    exact .map
  cases s with
  | assign pos target op e =>
    cases target with
    | name pos' name => exact ⟨_, matches_assign pos pos' name op e h, rfl⟩
    | _ => cases h
  | increment pos target delta => exact ⟨_, heffect, rfl⟩
  | _ => cases h

theorem matches_update (n : Nat) (s : Stmt) (hexec : exec x n s σ st =
      (update x σ st s).elim (.error .meaningless) fun r => return (.normal, ← r)) :
    Matches ended (exec x n s σ st) (Source.exec (basis x) n s σ st) := by
  rw [hexec]
  cases h : update x σ st s with
  | none => exact .meaningless
  | some r =>
    obtain ⟨q, hq, hsource⟩ := exists_update n s h
    rw [hsource]
    exact hq.bind fun _ _ => .ok rfl

theorem matches_roundStep (n : Nat) (s : Stmt) :
    Matches ((), ·) (roundStep x σ (some s) st) (discard (Source.exec (basis x) n s σ) st) := by
  rw [roundStep]
  cases h : update x σ st s with
  | none => exact .meaningless
  | some r =>
    obtain ⟨q, hq, hsource⟩ := exists_update n s h
    rwa [hsource, Source.discard_normal]

/-- A new local is the one that its name means. -/
theorem lookup?_declare (name : String) (t : Ty) :
    x.lookup? (σ.declare name t) name = some (.cell σ.next t) := by
  have hname : x.program.sameName name name := by
    rw [Outline.sameName]
    cases x.program.language <;> simp [Language.sameName]
  simp [Site.lookup?, Scope.declare, hname]

mutual

/-- **The core is executed as the basis says.** -/
theorem exec_matches (x : Site) (n : Nat) : ∀ (s : Stmt) (σ : Scope) (st : Store),
    Matches ended (exec x n s σ st) (Source.exec (basis x) n s σ st)
  | .local_ pos name type none, σ, st => by
    cases htype : localType? x σ type none with
    | none =>
      simp only [exec, htype]
      exact .meaningless
    | some t =>
      simp only [exec, htype]
      exact .ok rfl
  | .local_ pos name type (some e), σ, st => by
    cases htype : localType? x σ type (some e) with
    | none =>
      simp only [exec, htype]
      exact .meaningless
    | some t =>
      simp only [exec, htype]
      have hafter : (basis x).after σ (.local_ pos name type (some e)) = σ.declare name t := by
        simp only [basis, after, htype, Option.getD_some]
      rw [Source.exec, hafter]
      refine Matches.map.bind fun v _ => ?_
      exact (matches_write (lookup?_declare name t) v).bind fun _ _ => .ok rfl
  | .if_ _ cond then_ none, σ, st => by
    refine (matches_test cond).bind fun goes _ => ?_
    cases goes with
    | true => exact execAll_matches x n then_ σ st
    | false => exact .ok rfl
  | .if_ _ cond then_ (some else_), σ, st => by
    refine (matches_test cond).bind fun goes _ => ?_
    cases goes with
    | true => exact execAll_matches x n then_ σ st
    | false => exact execAll_matches x n else_ _ st
  | .while_ _ kind cond body none, σ, st =>
    matches_topRounds (fun _ => matches_topTest cond) (execAll_matches x n body σ)
      (fun _ => .ok rfl) n st
  | .while_ _ kind cond body (some step), σ, st =>
    matches_topRounds (fun _ => matches_topTest cond) (execAll_matches x n body σ)
      (fun _ => matches_roundStep n step) n st
  | .doWhile _ body cond until_, σ, st => by
    refine matches_bottomRounds (fun st => ?_) (execAll_matches x n body σ) n st
    exact (matches_test cond).bind fun _ _ => .ok rfl
  | .break_ .., _, _ | .continue_ .., _, _ => .ok rfl
  | .return_ _ none, _, _ => by
    rw [exec]
    split
    · exact .ok rfl
    · exact .meaningless
  | .return_ _ (some e), _, _ => by
    rw [exec]
    refine Matches.map.bind fun v _ => ?_
    split
    · exact .ok rfl
    · exact .meaningless
  | .throw_ .., _, _ | .try_ .., _, _ => .meaningless
  | .block _ body, σ, st => execAll_matches x n body σ st
  | .assign pos target op e, σ, st => by
    refine matches_update n _ ?_
    simp only [exec]
    split <;> simp_all
  | .increment pos target delta, σ, st => by
    refine matches_update n _ ?_
    simp only [exec]
    split <;> simp_all
  | .expr pos e, σ, st => .meaningless

theorem execAll_matches (x : Site) (n : Nat) : ∀ (s : List Stmt) (σ : Scope) (st : Store),
    Matches ended (execAll x n s σ st) (Source.execAll (basis x) n s σ st)
  | [], _, _ => .ok rfl
  | s :: rest, σ, st => by
    refine (exec_matches x n s σ st).bind fun r _ => ?_
    obtain ⟨o, st⟩ := r
    cases o with
    | normal => exact execAll_matches x n rest (after x σ s) st
    | break_ | continue_ | return_ => exact .ok rfl

end

end

end CilScope.Core
