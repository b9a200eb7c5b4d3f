import CilScope.Proofs.Source.Expression

/-!
# Loops of parsers

A loop of a parser is a recursion that hands its state to the turns behind it. `Turn` says what one
turn does: it leaves the loop, or it hands over with lexemes read. `Loops` says so of a loop whose
turns share the depth of the parsers around it, and `Counts` of a loop that has a bound of its own.
Such a bound is never what ends the loop: all that cover the lexemes ahead give the same
(`Counts.of_turn`).
-/

namespace CilScope.Source.Parser

variable {σ α β : Type} {N : Lexeme → Prop} {r j k n depth : Nat} {p : Parser β}

/-- One turn of a loop, given what the turns behind it do. Either it comes to a good end whatever they
do, or it hands a state over to them, behind `k` lexemes or more, and finishes what they give back. -/
def Turn (N : Lexeme → Prop) (r k : Nat) (turn : (σ → Parser α) → Parser α) : Prop :=
  ∀ c : Cursor, c.rest.length ≤ r → N c.next →
    (∃ x, Good c 0 x ∧ ∀ again, (turn again).run.run c = x) ∨
    ∃ (s : σ) (c' : Cursor) (finish : α → α), c.Reads c' ∧ c'.rest.length + k ≤ c.rest.length ∧
      ∀ again, (turn again).run.run c = (again s >>= fun a => pure (finish a)).run.run c'

namespace Turn

variable {turn : (σ → Parser α) → Parser α} {f : (σ → Parser α) → β → Parser α}

/-- A turn that leaves the loop. -/
theorem leave {q : Parser α} (h : Progress N r 0 q) :
    Turn N r k fun _ : σ → Parser α => q :=
  fun c hr hN => .inl ⟨_, h c hr hN, fun _ => rfl⟩

/-- A turn that hands over. -/
theorem again (s : σ) (finish : α → α) :
    Turn N r 0 fun again : σ → Parser α => again s >>= fun a => pure (finish a) :=
  fun c _ _ => .inr ⟨s, c, finish, .refl c, Nat.le_refl _, fun _ => rfl⟩

/-- A turn that gives back what the turns behind it give. -/
theorem next (s : σ) : Turn N r 0 fun again : σ → Parser α => again s := by
  have h := again (N := N) (r := r) (α := α) s id
  simpa only [id_eq, bind_pure] using h

theorem bind (hp : Progress N r j p)
    (hf : j ≤ r → ∀ b, Turn Any (r - j) (k - j) fun again => f again b) :
    Turn N r k fun again => p >>= f again := by
  intro c hr hN
  have hgood := hp c hr hN
  simp only [run_bind]
  generalize p.run.run c = x at hgood ⊢
  obtain ⟨e | b, c'⟩ := x
  · exact .inl ⟨(.error e, c'), hgood, fun _ => rfl⟩
  · obtain ⟨hc', hle⟩ := hgood
    rcases hf (by omega) b c' (by omega) trivial with ⟨x, hx, hrun⟩ | ⟨s, d, finish, hd, hlength, hrun⟩
    · exact .inl ⟨x, hx.mono hc' (by omega), hrun⟩
    · refine .inr ⟨s, d, finish, hc'.trans hd, by omega, fun again => ?_⟩
      rw [← run_bind]
      exact hrun again

theorem looks (h : Looks p) (hf : ∀ b, Turn N r k fun again => f again b) :
    Turn N r k fun again => p >>= f again := by
  intro c hr hN
  obtain ⟨b, hb⟩ := h c
  simp only [run_bind_of_ok hb]
  exact hf b c hr hN

theorem ite {b : Prop} [Decidable b] {x y : (σ → Parser α) → Parser α} (hx : b → Turn N r k x)
    (hy : ¬b → Turn N r k y) : Turn N r k fun again => if b then x again else y again := by
  split
  · exact hx ‹_›
  · exact hy ‹_›

theorem eats {p : Parser Bool} {x y : (σ → Parser α) → Parser α} (hp : Eats p)
    (hx : 1 ≤ r → Turn Any (r - 1) (k - 1) x) (hy : Turn N r k y) :
    Turn N r k fun again => p >>= fun yes => if yes = true then x again else y again := by
  intro c hr hN
  rcases hp c with hp | ⟨c', hp, hc', hlength⟩ <;> simp only [run_bind_of_ok hp]
  · exact hy c hr hN
  · rcases hx (by omega) c' (by omega) trivial with ⟨x, hx, hrun⟩ | ⟨s, d, finish, hd, hle, hrun⟩
    · exact .inl ⟨x, hx.mono hc' (by omega), hrun⟩
    · exact .inr ⟨s, d, finish, hc'.trans hd, by omega, hrun⟩

theorem fail {pos : Position} {cause : Cause} (h : cause.Grave) :
    Turn N r k fun _ : σ → Parser α => Parser.fail pos cause :=
  leave (.fail h)

/-- What would follow a stop does not run. -/
theorem fail_bind {pos : Position} {cause : Cause} (h : cause.Grave) :
    Turn N r k fun again => Parser.fail pos cause >>= f again :=
  fail (σ := σ) h

/-- The next lexeme is known where it has been looked at. -/
theorem lexeme {f : (σ → Parser α) → Lexeme → Parser α}
    (hf : ∀ t, Turn (· = t) r k fun again => f again t) :
    Turn N r k fun again => Parser.lexeme >>= f again :=
  fun c hr _ => hf c.next c hr rfl

/-- The number of lexemes ahead bounds what can be read. -/
theorem remaining {f : (σ → Parser α) → Nat → Parser α}
    (hf : ∀ m ≤ r, Turn N m k fun again => f again m) :
    Turn N r k fun again => Parser.remaining >>= f again :=
  fun c hr hN => hf c.rest.length hr c (Nat.le_refl _) hN

/-- The depth that is started with is enough for the lexemes ahead. -/
theorem depthBound {f : (σ → Parser α) → Nat → Parser α}
    (hf : ∀ m ≤ r, Turn N m k fun again => f again (16 * m + 16)) :
    Turn N r k fun again => Parser.depthBound >>= f again :=
  fun c hr hN => hf c.rest.length hr c (Nat.le_refl _) hN

/-- A lexeme that has been looked at is read. -/
theorem read {t : Lexeme} {f : (σ → Parser α) → Located → Parser α} (ht : t ≠ .eof)
    (hf : 1 ≤ r → ∀ l, Turn Any (r - 1) (k - 1) fun again => f again l) :
    Turn (· = t) r k fun again => advance >>= f again := by
  have h : Progress (· = t) r 1 advance := progress_advance fun _ h => h ▸ ht
  exact .bind h hf

end Turn

/-! ### Loops -/

/-- A loop with the depth that its turns need with `r` lexemes ahead. Every turn that hands over has read
a lexeme. -/
structure Loops (enough : Nat → Nat) (loop : Nat → σ → Parser α)
    (turn : Nat → (σ → Parser α) → σ → Parser α) : Prop where
  unroll : ∀ depth s, loop (depth + 1) s = turn depth (loop depth) s
  turn : ∀ {r depth s}, enough r ≤ depth + 1 → Turn Any r 1 fun again => turn depth again s

/-- A loop with a bound of its own. Every turn that hands over has read a lexeme, and it does not matter
by how much the bound exceeds the lexemes ahead. -/
structure Counts (loop : Nat → σ → Parser α) (turn : (σ → Parser α) → σ → Parser α) : Prop where
  unroll : ∀ n s, loop (n + 1) s = turn (loop n) s
  turn : ∀ {r s}, Turn Any r 1 fun again => turn again s
  steady : ∀ {c : Cursor} {n m s}, EndsFile c.rest → c.rest.length ≤ n → c.rest.length ≤ m →
    (loop n s).run.run c = (loop m s).run.run c

theorem Counts.of_turn {loop : Nat → σ → Parser α} {turn : (σ → Parser α) → σ → Parser α}
    (unroll : ∀ n s, loop (n + 1) s = turn (loop n) s)
    (hturn : ∀ {r s}, Turn Any r 1 fun again => turn again s) : Counts loop turn where
  unroll := unroll
  turn := hturn
  steady := by
    intro c n m s hc hn hm
    have hpos := hc.length_pos
    induction n generalizing m c s with
    | zero => omega
    | succ n ih =>
      obtain ⟨m, rfl⟩ := Nat.exists_eq_add_of_lt (hpos.trans_le hm)
      rw [Nat.zero_add, unroll, unroll]
      rcases hturn c (Nat.le_refl _) trivial with ⟨x, -, hx⟩ | ⟨s', c', finish, hc', hlength, hrun⟩
      · rw [hx, hx]
      · have hends := hc'.ends hc
        rw [hrun, hrun, run_bind, run_bind,
          ih (m := m) hends (by omega) (by omega) hends.length_pos]

/-! ### Lists with commas -/

/-- A turn of a list with commas between its elements. -/
def listTurn (element : Parser β) (again : Unit → Parser (List β)) (_ : Unit) : Parser (List β) := do
  let first ← element
  if ← eatPunct "," then return first :: (← again ())
  return [first]

theorem turn_list {element : Parser β} (h : Progress Any r 1 element) :
    Turn Any r 1 fun again => listTurn element again () := by
  refine .bind h fun _ first => .eats (eats_eatPunct ",") (fun _ => ?_) (.leave (.pure [first]))
  exact .again () (first :: ·)

/-! ### Names and types -/

/-- A punctuation that is seen is the next lexeme. -/
theorem Turn.isPunct {q : String} {f : (σ → Parser α) → Bool → Parser α}
    (htrue : Turn (· = .punct q) r k fun again => f again true)
    (hfalse : Turn N r k fun again => f again false) :
    Turn N r k fun again => Parser.isPunct q >>= f again := by
  intro c hr hN
  have hrun : (Parser.isPunct q).run.run c = (.ok (decide (c.next = .punct q)), c) := rfl
  simp only [run_bind_of_ok hrun]
  by_cases hnext : c.next = .punct q
  · rw [decide_eq_true hnext]
    exact htrue c hr hnext
  · rw [decide_eq_false hnext]
    exact hfalse c hr hN

/-- A turn of the parts of a dotted name. -/
def dottedTurn (again : String → Parser String) (name : String) : Parser String := do
  if (← isPunct ".") && (← isAnyWordAt 1) then
    let _ ← advance
    let part ← identifier
    again (name ++ "." ++ part)
  else return name

theorem counts_dottedRest : Counts dottedRest dottedTurn := by
  refine .of_turn (fun _ _ => rfl) fun {r name} => ?_
  refine .looks (looks_isPunctAt 0 ".") fun _ => .looks (looks_isAnyWordAt 1) fun _ => ?_
  refine .ite (fun _ => ?_) fun _ => .leave (.pure name)
  refine .bind progress_advance_any fun _ _ => .bind progress_identifier fun _ part => ?_
  exact .next _

/-- A turn of the brackets behind an element type. -/
def arrayTurn (again : TypeName → Parser TypeName) (name : TypeName) : Parser TypeName := do
  let (opening, closing) := arrayBrackets (← language)
  if (← isPunct opening) && (← isPunctAt 1 closing) then
    let _ ← advance
    let _ ← advance
    again (.array name)
  else return name

theorem counts_arrayRest : Counts arrayRest arrayTurn := by
  refine .of_turn (fun _ _ => rfl) fun {r name} => ?_
  refine .looks looks_language fun language => .isPunct ?_ ?_
  · refine .looks (looks_isPunctAt 1 _) fun _ => .ite (fun _ => ?_) fun _ => .leave (.pure name)
    exact .read nofun fun _ _ => .bind progress_advance_any fun _ _ => .next _
  · exact .looks (looks_isPunctAt 1 _) fun _ => .leave (.pure name)

/-! ### Expressions -/

/-- A turn of the operators of a level. -/
def binaryTurn (level : Level) (tighter : List Level) (depth : Nat) (again : Expr → Parser Expr)
    (lhs : Expr) : Parser Expr := do
  match ← operator? level with
  | none => return lhs
  | some op =>
    let pos := (← advance).start
    let rhs ← binary depth tighter
    again (.binary pos op lhs rhs)

theorem loops_binaryRest (level : Level) {tighter : List Level} (htighter : tighter.length ≤ 8) :
    Loops (16 * · + 5 + tighter.length) (binaryRest · level tighter) (binaryTurn level tighter) where
  unroll depth lhs := by
    rw [binaryRest]
    rfl
  turn := by
    intro r depth lhs hdepth
    refine .looks (looks_operator? level) fun op? => ?_
    cases op? with
    | none => exact .leave (.pure lhs)
    | some op =>
      refine .bind progress_advance_any fun _ t => ?_
      refine .bind ((expressionDepth depth).binary (by omega) htighter) fun _ rhs => ?_
      exact .next _

/-- A turn of what is applied to an expression. -/
def postfixTurn (depth : Nat) (again : Expr → Parser Expr) (e : Expr) : Parser Expr := do
  let pos ← position
  if ← eatPunct "." then
    let name ← memberName
    again (.member pos e name)
  else if ← isPunct "(" then
    let args ← arguments depth
    again (.call e.pos e args)
  else if ← eatCSharpPunct "[" then
    let index ← binary depth (levels (← language))
    expectPunct "]"
    again (.index pos e index)
  else return e

theorem loops_postfixRest : Loops (16 * · + 2) postfixRest postfixTurn where
  unroll depth e := by rw [postfixRest, postfixTurn]
  turn := by
    intro r depth e hdepth
    have h := expressionDepth depth
    refine .looks looks_position fun pos => .eats (eats_eatPunct ".") (fun _ => ?_) ?_
    · exact .bind progress_memberName fun _ _ => .next _
    refine .looks (looks_isPunctAt 0 "(") fun _ => .ite (fun _ => ?_) fun _ => ?_
    · exact .bind (h.arguments (by omega)) fun _ _ => .next _
    refine .eats (eats_eatCSharpPunct "[") (fun _ => .looks looks_language fun _ => ?_) (.leave (.pure e))
    refine .bind (h.whole (by omega)) fun _ _ => ?_
    exact .bind (progress_expectPunct "]") fun _ _ => .next _

theorem loops_argumentList : Loops (16 * · + 13) (fun depth (_ : Unit) => argumentList depth)
    fun depth => listTurn do binary depth (levels (← language)) where
  unroll depth _ := by
    rw [argumentList, listTurn, bind_assoc]
  turn := by
    intro r depth _ hdepth
    exact turn_list (.looks looks_language fun _ => (expressionDepth depth).whole (by omega))

end CilScope.Source.Parser
