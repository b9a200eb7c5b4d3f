import CilScope.Proofs.Source.Expression
import CilScope.Proofs.Source.Integers.Numeral
import CilScope.Proofs.Source.Integers.Tree

/-!
# Where the integers of a tree come from

Every integer of a syntax tree has been read from a literal, or from a minus sign with a literal behind
it; a `For` loop without a step gets a one (`Origin`). A parser `Gives` results of some kind if it does so
wherever it returns without a number that is too large having been reported. Like the bounds of what is
read, this is closed under the steps that parsers are made of; what is known of the lexeme ahead is needed
where an integer is made.
-/

namespace CilScope.Source

/-- Where an integer comes from that a tree read from these lexemes has at a position: from a literal, from
a minus sign and the literal behind it, or from a loop without a step. -/
inductive Origin (ts : List Located) (pos : Position) : Int32 → Prop
  | literal {t : Located} {n : Nat} (ht : t ∈ ts) (hpos : t.start = pos) (hn : t.lexeme = .int n)
      (hlt : n < 2 ^ 31) : Origin ts pos (.ofNat n)
  | negated {minus t : Located} {n : Nat} (ht : [minus, t] <:+: ts) (hpos : minus.start = pos)
      (hminus : minus.lexeme = .punct "-") (hn : t.lexeme = .int n) : Origin ts pos (.ofInt (-n))
  | step {t : Located} {w : String} (ht : t ∈ ts) (hpos : t.start = pos) (hw : t.lexeme = .word w)
      (hfor : Language.visualBasic.sameName w "for") : Origin ts pos 1

namespace Parser

variable {α β : Type} {ts : List Located} {N M : Cursor → Prop} {Q R : α → Prop} {S : β → Prop}
  {p : Parser α} {f : α → Parser β} {depth : Nat}

/-! ### What parsers give -/

/-- A parser that stays within the lexemes and, where it returns without a number having been reported as
too large, gives what satisfies `Q`; it is called where `N` holds. -/
def Gives (ts : List Located) (N : Cursor → Prop) (Q : α → Prop) (p : Parser α) : Prop :=
  ∀ (c c' : Cursor) (a : α), c.rest <:+ ts → N c → p.run.run c = (.ok a, c') →
    c'.rest <:+ ts ∧ (c'.log.NoOverflow → c.log.NoOverflow ∧ Q a)

/-- Nothing is known of a cursor. -/
def Anywhere : Cursor → Prop := fun _ => True

/-- Nothing is known of a result. -/
def Anything : α → Prop := fun _ => True

/-- The cursor is behind this lexeme, in front of which `N` held. -/
def Behind (ts : List Located) (N : Cursor → Prop) (l : Lexeme → Prop) (c' : Cursor) : Prop :=
  ∃ c t, N c ∧ c.rest <:+ ts ∧ c.rest = t :: c'.rest ∧ l t.lexeme

namespace Gives

theorem pure {a : α} (h : Q a) : Gives ts N Q (Pure.pure a) := by
  rintro c c' a hc - ⟨⟩
  exact ⟨hc, fun hlog => ⟨hlog, h⟩⟩

theorem mono (hp : Gives ts N Q p) (h : ∀ a, Q a → R a) : Gives ts N R p := by
  intro c c' a hc hN hrun
  obtain ⟨hc', hlog⟩ := hp c c' a hc hN hrun
  exact ⟨hc', fun h' => (hlog h').imp id (h a)⟩

theorem of (hp : Gives ts N Q p) (h : ∀ c, M c → N c) : Gives ts M Q p :=
  fun c c' a hc hM => hp c c' a hc (h c hM)

theorem anywhere (hp : Gives ts Anywhere Q p) : Gives ts N Q p := hp.of fun _ _ => trivial

theorem anything (hp : Gives ts N Q p) : Gives ts N Anything p := hp.mono fun _ _ => trivial

/-- What the first parser gives is known of what the second one makes of it. -/
theorem bind (hp : Gives ts N Q p) (hf : ∀ a, Gives ts Anywhere (fun b => Q a → S b) (f a)) :
    Gives ts N S (p >>= f) := by
  intro c c' b hc hN hrun
  obtain ⟨a, c₁, hp', hf'⟩ := exists_of_run_bind hrun
  obtain ⟨hc₁, hlog₁⟩ := hp c c₁ a hc hN hp'
  obtain ⟨hc', hlog'⟩ := hf a c₁ c' b hc₁ trivial hf'
  refine ⟨hc', fun h => ?_⟩
  obtain ⟨h₁, hb⟩ := hlog' h
  obtain ⟨h₀, ha⟩ := hlog₁ h₁
  exact ⟨h₀, hb ha⟩

/-- Nothing is needed of what the first parser gives. -/
theorem skip (hp : Gives ts N Q p) (hf : ∀ a, Gives ts Anywhere S (f a)) :
    Gives ts N S (p >>= f) :=
  hp.bind fun a => (hf a).mono fun _ h _ => h

theorem looks (h : Looks p) (hf : ∀ a, Gives ts N S (f a)) : Gives ts N S (p >>= f) := by
  intro c c' b hc hN hrun
  obtain ⟨a, ha⟩ := h c
  rw [run_bind_of_ok ha] at hrun
  exact hf a c c' b hc hN hrun

theorem map {g : α → β} (hp : Gives ts N Q p) (h : ∀ a, Q a → S (g a)) : Gives ts N S (g <$> p) := by
  rw [map_eq_pure_bind]
  exact hp.bind fun a => .pure (h a)

theorem ite {b : Prop} [Decidable b] {q : Parser α} (hp : b → Gives ts N Q p)
    (hq : ¬b → Gives ts N Q q) : Gives ts N Q (if b then p else q) := by
  split
  · exact hp ‹_›
  · exact hq ‹_›

theorem some_ (hp : Gives ts N Q p) : Gives ts N (fun x => ∀ a ∈ x, Q a) (some <$> p) :=
  hp.map fun a ha => by simpa using ha

theorem none_ : Gives ts N (fun x => ∀ a ∈ x, Q a) (Pure.pure none : Parser (Option α)) := pure (by simp)

/-- A part that is left out in front of some lexeme. -/
theorem optUnless {b : Bool} {g : Option α → Parser β} (hp : Gives ts N Q p)
    (hg : ∀ x, Gives ts Anywhere (fun y => (∀ a ∈ x, Q a) → S y) (g x)) :
    Gives ts N S (if b = true then Pure.pure none >>= g else some <$> p >>= g) :=
  ite (fun _ => none_.bind hg) fun _ => hp.some_.bind hg

/-- A position that is asked for is that of the next lexeme. -/
theorem position {g : Position → Parser β}
    (hg : ∀ pos, Gives ts (fun c => N c ∧ c.start = pos) S (g pos)) :
    Gives ts N S (Parser.position >>= g) :=
  fun c c' b hc hN hrun => hg c.start c c' b hc ⟨hN, rfl⟩ hrun

/-- The next lexeme is known where it has been looked at. -/
theorem lexeme {g : Lexeme → Parser β}
    (hg : ∀ l, Gives ts (fun c => N c ∧ c.next = l) S (g l)) :
    Gives ts N S (Parser.lexeme >>= g) :=
  fun c c' b hc hN hrun => hg c.next c c' b hc ⟨hN, rfl⟩ hrun

/-- What is known of the cursor may show something else. -/
theorem assume {φ : Prop} (h : ∀ c : Cursor, c.rest <:+ ts → N c → φ) (hp : φ → Gives ts N Q p) :
    Gives ts N Q p :=
  fun c c' a hc hN hrun => hp (h c hc hN) c c' a hc hN hrun

theorem fail {pos : Position} {cause : Cause} : Gives ts N Q (Parser.fail pos cause) := by
  rintro c c' a - - ⟨⟩

/-- What would follow a stop does not run. -/
theorem fail_bind {pos : Position} {cause : Cause} : Gives ts N S (Parser.fail pos cause >>= f) := by
  rintro c c' a - - ⟨⟩

theorem throw {e : Abort} : Gives ts N Q (MonadExcept.throw e) := by
  rintro c c' a - - ⟨⟩

theorem report {pos : Position} {cause : Cause} :
    Gives ts N (fun _ => cause ≠ .integerTooLarge) (Parser.report pos cause) := by
  rintro c c' a hc - ⟨⟩
  exact ⟨hc, fun h => ⟨h.of_report, fun hlarge => Log.not_noOverflow_report (hlarge ▸ h)⟩⟩

end Gives

/-! ### Lexemes -/

/-- Reading a lexeme that is there. -/
theorem exists_of_run_advance {c c' : Cursor} {a : Located} (h : advance.run.run c = (.ok a, c'))
    (hnext : c.next ≠ .eof) :
    c.rest = a :: c'.rest ∧ a.lexeme = c.next ∧ a.start = c.start ∧ c'.log = c.log := by
  obtain ⟨rest, stop, log⟩ := c
  cases rest with
  | nil => exact absurd rfl hnext
  | cons t rest =>
    rw [run_advance_cons hnext] at h
    cases h
    exact ⟨rfl, rfl, rfl, rfl⟩

theorem gives_advance : Gives ts N Anything advance := by
  intro c c' a hc hN hrun
  by_cases hnext : c.next = .eof
  · obtain ⟨t, ht⟩ := run_advance_eof hnext
    rw [ht] at hrun
    cases hrun
    exact ⟨hc, fun h => ⟨h, trivial⟩⟩
  · obtain ⟨hrest, -, -, hlog⟩ := exists_of_run_advance hrun hnext
    exact ⟨(List.suffix_cons a _).trans (hrest ▸ hc), fun h => ⟨hlog ▸ h, trivial⟩⟩

/-- A lexeme that has been looked at is read. -/
theorem Gives.read {l : Lexeme} (hl : l ≠ .eof) {g : Located → Parser β}
    (hg : ∀ t, Gives ts (Behind ts N (· = l)) S (g t)) :
    Gives ts (fun c => N c ∧ c.next = l) S (advance >>= g) := by
  intro c c' b hc hN hrun
  obtain ⟨t, c₁, ht, hrun⟩ := exists_of_run_bind hrun
  obtain ⟨hrest, hlexeme, -, hlog⟩ := exists_of_run_advance ht (hN.2 ▸ hl)
  have hbehind : Behind ts N (· = l) c₁ := ⟨c, t, hN.1, hc, hrest, hlexeme.trans hN.2⟩
  obtain ⟨hc', h⟩ := hg t c₁ c' b ((List.suffix_cons t _).trans (hrest ▸ hc)) hbehind hrun
  exact ⟨hc', fun h' => (h h').imp (hlog ▸ ·) id⟩

/-- A lexeme is read if a question about it is answered with yes. -/
theorem Gives.eats {p : Parser Bool} {l : Lexeme → Prop} {x y : Parser β}
    (hp : ∀ c, p.run.run c = (.ok false, c) ∨ p.run.run c = (.ok true, c) ∧ c.next ≠ .eof ∧ l c.next)
    (hx : Gives ts (Behind ts N l) S x) (hy : Gives ts N S y) :
    Gives ts N S
      ((p >>= fun yes => if yes then advance >>= fun _ => Pure.pure true else Pure.pure false) >>=
        fun yes => if yes = true then x else y) := by
  intro c c' b hc hN hrun
  rw [bind_assoc] at hrun
  rcases hp c with h | ⟨h, hnext, hl⟩
  · rw [run_bind_of_ok h] at hrun
    exact hy c c' b hc hN hrun
  · rw [run_bind_of_ok h] at hrun
    simp only [if_true, bind_assoc, pure_bind] at hrun
    obtain ⟨t, c₁, ht, hrun⟩ := exists_of_run_bind hrun
    obtain ⟨hrest, hlexeme, -, hlog⟩ := exists_of_run_advance ht hnext
    have hbehind : Behind ts N l c₁ := ⟨c, t, hN, hc, hrest, hlexeme ▸ hl⟩
    obtain ⟨hc', h⟩ := hx c₁ c' b ((List.suffix_cons t _).trans (hrest ▸ hc)) hbehind hrun
    exact ⟨hc', fun h' => (h h').imp (hlog ▸ ·) id⟩

theorem Gives.eatPunct {s : String} {x y : Parser β} (hx : Gives ts (Behind ts N (· = .punct s)) S x)
    (hy : Gives ts N S y) :
    Gives ts N S (Parser.eatPunct s >>= fun yes => if yes = true then x else y) := by
  refine .eats (fun c => ?_) hx hy
  have hrun : (isPunct s).run.run c = (.ok (decide (c.next = .punct s)), c) := rfl
  rw [hrun]
  by_cases hnext : c.next = .punct s
  · exact .inr ⟨by rw [decide_eq_true hnext], by simp [hnext], hnext⟩
  · exact .inl (by rw [decide_eq_false hnext])

theorem Gives.eatCSharpPunct {s : String} {x y : Parser β}
    (hx : Gives ts (Behind ts N (· = .punct s)) S x) (hy : Gives ts N S y) :
    Gives ts N S (Parser.eatCSharpPunct s >>= fun yes => if yes = true then x else y) := by
  rw [Parser.eatCSharpPunct, bind_assoc]
  refine .looks looks_language fun language => ?_
  cases language with
  | csharp => exact .eatPunct hx hy
  | visualBasic => exact hy

/-- A word that is this keyword in Visual Basic at least. -/
def Keyword (s : String) (l : Lexeme) : Prop := ∃ w, l = .word w ∧ Language.visualBasic.sameName w s

theorem sameName_visualBasic_of {language : Language} {a b : String} (h : language.sameName a b) :
    Language.visualBasic.sameName a b := by
  cases language with
  | csharp => rw [Language.sameName, eq_of_beq h, beq_self_eq_true]
  | visualBasic => exact h

theorem Gives.eatWord {s : String} {x y : Parser β} (hx : Gives ts (Behind ts N (Keyword s)) S x)
    (hy : Gives ts N S y) :
    Gives ts N S (Parser.eatWord s >>= fun yes => if yes = true then x else y) := by
  refine .eats (fun c => ?_) hx hy
  rw [isWord, isWordAt, run_bind_of_ok (run_lexeme c)]
  cases hnext : c.next with
  | word w =>
    have hrun : (do return (← language).sameName w s : Parser Bool).run.run c =
      (.ok (c.log.language.sameName w s), c) := rfl
    dsimp only
    rw [hrun]
    cases hsame : c.log.language.sameName w s with
    | false => exact .inl rfl
    | true => exact .inr ⟨rfl, by simp, w, rfl, sameName_visualBasic_of hsame⟩
  | _ => exact .inl rfl

/-! ### Names, types and punctuation -/

theorem gives_identifier : Gives ts N Anything identifier := by
  refine .lexeme fun l => ?_
  cases l with
  | word w =>
    refine .looks looks_language fun _ => .ite (fun _ => ?_) fun _ => ?_
    · exact .looks looks_position fun _ => .fail_bind
    · exact .skip gives_advance fun _ => .pure trivial
  | _ => exact .looks looks_position fun _ => .fail

theorem gives_memberName : Gives ts N Anything memberName := by
  refine .looks looks_language fun language => .lexeme fun l => ?_
  split
  · exact .skip gives_advance fun _ => .pure trivial
  · exact gives_identifier

theorem gives_dottedRest (n : Nat) (name : String) : Gives ts N Anything (dottedRest n name) := by
  induction n generalizing N name with
  | zero => exact .pure trivial
  | succ n ih =>
    refine .looks (looks_isPunctAt 0 ".") fun _ => .looks (looks_isAnyWordAt 1) fun _ => ?_
    refine .ite (fun _ => ?_) fun _ => .pure trivial
    exact .skip gives_advance fun _ => .skip gives_identifier fun _ => ih _

theorem gives_qualifiedName : Gives ts N Anything qualifiedName :=
  .looks looks_remaining fun _ => .skip gives_identifier fun _ => gives_dottedRest _ _

theorem gives_arrayRest (n : Nat) (name : TypeName) : Gives ts N Anything (arrayRest n name) := by
  induction n generalizing N name with
  | zero => exact .pure trivial
  | succ n ih =>
    refine .looks looks_language fun _ => ?_
    refine .looks (looks_isPunctAt 0 _) fun _ => .looks (looks_isPunctAt 1 _) fun _ => ?_
    refine .ite (fun _ => ?_) fun _ => .pure trivial
    exact .skip gives_advance fun _ => .skip gives_advance fun _ => ih _

theorem gives_typeUse : Gives ts N Anything typeUse := by
  refine .looks looks_position fun pos => .looks looks_typeKeyword? fun type => ?_
  have hrest {element : TypeName} : Gives ts Anywhere Anything
      (do return TypeUse.mk (← arrayRest (← remaining) element) pos) :=
    .looks looks_remaining fun _ => .skip (gives_arrayRest _ _) fun _ => .pure trivial
  cases type with
  | some type => exact .skip gives_advance fun _ => .skip (.pure (Q := Anything) trivial) fun _ => hrest
  | none => exact .skip (gives_qualifiedName.map (S := Anything) fun _ _ => trivial) fun _ => hrest

theorem gives_expectPunct (s : String) : Gives ts N Anything (expectPunct s) := by
  refine .eatPunct (.pure trivial) ?_
  refine .looks looks_language fun _ => .looks looks_describe fun _ => ?_
  exact .ite (fun _ => .looks looks_position fun _ => .fail)
    fun _ => .looks looks_previousStop fun _ => .fail

theorem gives_unexpected : Gives ts N Q (unexpected : Parser α) :=
  .looks looks_position fun _ => .looks looks_describe fun _ => .fail

/-- What would follow a stop does not run. -/
theorem Gives.unexpected_bind : Gives ts N S (unexpected >>= f) := by
  rw [unexpected, bind_assoc]
  refine .looks looks_position fun _ => ?_
  rw [bind_assoc]
  exact .looks looks_describe fun _ => .fail_bind

/-! ### Expressions -/

/-- A literal gives its value, or it has been reported. -/
theorem gives_literal {pos : Position} {n : Nat} :
    Gives ts (fun c => c.start = pos ∧ c.next = .int n) (Expr.Ints (Origin ts)) (literal pos n) := by
  refine .assume (φ := ∃ t ∈ ts, t.start = pos ∧ t.lexeme = .int n) (fun c hc hN => ?_) ?_
  · obtain ⟨t, rest, hrest⟩ : ∃ t rest, c.rest = t :: rest := by
      cases hrest : c.rest with
      | nil => rw [Cursor.next, hrest] at hN; cases hN.2
      | cons t rest => exact ⟨t, rest, rfl⟩
    rw [Cursor.start, Cursor.next, hrest] at hN
    exact ⟨t, hc.subset (hrest ▸ List.mem_cons_self), hN⟩
  rintro ⟨t, ht, hpos, hn⟩
  refine .skip gives_advance fun _ => ?_
  refine .ite (fun _ => ?_) fun h => .pure (.literal ht hpos hn (by omega))
  exact .bind .report fun _ => .pure fun h => absurd rfl h

/-- The constants are no integers. -/
theorem gives_constant? :
    Gives ts N (fun k? => ∀ k ∈ k?, ∀ pos, (k pos).Ints (Origin ts)) constant? := by
  have hall (language : Language) : ∀ k ∈ constants language, ∀ pos, (k.2 pos).Ints (Origin ts) := by
    cases language <;> simp [constants, Expr.Ints]
  refine .looks looks_language fun language => .lexeme fun l => ?_
  cases l with
  | word w =>
    refine .pure fun k hk pos => ?_
    obtain ⟨entry, hfind, rfl⟩ := Option.mem_map.1 hk
    exact hall language entry (List.mem_of_find?_eq_some hfind) pos
  | _ => exact .pure (by simp)

/-- The parsers of expressions give trees whose integers come from the lexemes. -/
structure ExpressionOrigin (ts : List Located) (depth : Nat) : Prop where
  binary : ∀ {N ls}, Gives ts N (Expr.Ints (Origin ts)) (Parser.binary depth ls)
  binaryRest : ∀ {N level tighter lhs},
    Gives ts N (fun e => lhs.Ints (Origin ts) → e.Ints (Origin ts))
      (Parser.binaryRest depth level tighter lhs)
  unary : ∀ {N}, Gives ts N (Expr.Ints (Origin ts)) (Parser.unary depth)
  operand : ∀ {N}, Gives ts N (Expr.Ints (Origin ts)) (Parser.operand depth)
  postfixRest : ∀ {N e}, Gives ts N (fun e' => e.Ints (Origin ts) → e'.Ints (Origin ts))
    (Parser.postfixRest depth e)
  arguments : ∀ {N}, Gives ts N (Expr.IntsAll (Origin ts)) (Parser.arguments depth)
  argumentList : ∀ {N}, Gives ts N (Expr.IntsAll (Origin ts)) (Parser.argumentList depth)
  primary : ∀ {N}, Gives ts N (Expr.Ints (Origin ts)) (Parser.primary depth)

namespace ExpressionOrigin

theorem zero : ExpressionOrigin ts 0 where
  binary := .throw
  binaryRest := .throw
  unary := .throw
  operand := .throw
  postfixRest := .throw
  arguments := .throw
  argumentList := .throw
  primary := .throw

theorem binary_succ (h : ExpressionOrigin ts depth) {ls : List Level} :
    Gives ts N (Expr.Ints (Origin ts)) (Parser.binary (depth + 1) ls) := by
  cases ls with
  | nil =>
    rw [Parser.binary]
    exact h.unary
  | cons level tighter =>
    rw [Parser.binary]
    refine .looks looks_position fun pos => ?_
    have hrest {M : Cursor → Prop} : Gives ts M (Expr.Ints (Origin ts))
        (do Parser.binaryRest depth level tighter (← Parser.binary depth tighter)) :=
      .bind h.binary fun _ => h.binaryRest
    refine .ite (fun _ => ?_) fun _ => hrest
    exact .eatWord (.bind h.binary fun _ => .pure fun he => he) hrest

theorem binaryRest_succ (h : ExpressionOrigin ts depth) {level : Level} {tighter : List Level}
    {lhs : Expr} : Gives ts N (fun e => lhs.Ints (Origin ts) → e.Ints (Origin ts))
      (Parser.binaryRest (depth + 1) level tighter lhs) := by
  rw [Parser.binaryRest]
  refine .looks (looks_operator? level) fun op? => ?_
  cases op? with
  | none => exact .pure id
  | some op =>
    refine .skip gives_advance fun t => .bind h.binary fun rhs => ?_
    exact h.binaryRest.mono fun _ he hrhs hlhs => he ⟨hlhs, hrhs⟩

theorem unary_succ (h : ExpressionOrigin ts depth) :
    Gives ts N (Expr.Ints (Origin ts)) (Parser.unary (depth + 1)) := by
  rw [Parser.unary]
  refine .position fun pos => .eatPunct (.lexeme fun l => ?_) ?_
  · have hneg : Gives ts Anywhere (Expr.Ints (Origin ts))
        (do return Expr.unary pos .neg (← Parser.unary depth)) :=
      .bind h.unary fun _ => .pure fun he => he
    cases l with
    | int n =>
      refine .assume (φ := Origin ts pos (.ofInt (-n))) (fun c hc hN => ?_) fun ho => ?_
      · obtain ⟨⟨c₀, minus, ⟨-, hpos⟩, hc₀, hrest₀, hminus⟩, hnext⟩ := hN
        obtain ⟨t, rest, hrest⟩ : ∃ t rest, c.rest = t :: rest := by
          cases hrest : c.rest with
          | nil => rw [Cursor.next, hrest] at hnext; cases hnext
          | cons t rest => exact ⟨t, rest, rfl⟩
        rw [Cursor.next, hrest] at hnext
        rw [Cursor.start, hrest₀] at hpos
        rw [hrest₀, hrest] at hc₀
        exact .negated (.trans ⟨[], rest, rfl⟩ hc₀.isInfix) hpos hminus hnext
      · exact .skip gives_advance fun _ => h.postfixRest.mono fun _ he => he ho
    | _ => exact hneg.anywhere
  · exact .eatCSharpPunct (.bind h.unary fun _ => .pure fun he => he) h.operand

theorem operand_succ (h : ExpressionOrigin ts depth) :
    Gives ts N (Expr.Ints (Origin ts)) (Parser.operand (depth + 1)) := by
  rw [Parser.operand]
  exact .bind h.primary fun _ => h.postfixRest

theorem postfixRest_succ (h : ExpressionOrigin ts depth) {e : Expr} :
    Gives ts N (fun e' => e.Ints (Origin ts) → e'.Ints (Origin ts))
      (Parser.postfixRest (depth + 1) e) := by
  rw [Parser.postfixRest]
  refine .looks looks_position fun pos => .eatPunct ?_ ?_
  · exact .skip gives_memberName fun _ => h.postfixRest
  refine .looks (looks_isPunctAt 0 "(") fun _ => .ite (fun _ => ?_) fun _ => ?_
  · exact .bind h.arguments fun _ => h.postfixRest.mono fun _ he hargs hcallee => he ⟨hcallee, hargs⟩
  refine .eatCSharpPunct (.looks looks_language fun _ => .bind h.binary fun _ => ?_) (.pure id)
  refine .skip (gives_expectPunct "]") fun _ => ?_
  exact h.postfixRest.mono fun _ he hindex htarget => he ⟨htarget, hindex⟩

theorem arguments_succ (h : ExpressionOrigin ts depth) :
    Gives ts N (Expr.IntsAll (Origin ts)) (Parser.arguments (depth + 1)) := by
  rw [Parser.arguments]
  refine .skip (gives_expectPunct "(") fun _ => .looks (looks_isPunctAt 0 ")") fun _ => ?_
  have hrest {args : List Expr} : Gives ts Anywhere
      (fun es => Expr.IntsAll (Origin ts) args → Expr.IntsAll (Origin ts) es)
      (do expectPunct ")"; return args) :=
    .skip (gives_expectPunct ")") fun _ => .pure id
  exact .ite (fun _ => .bind (.pure trivial) fun _ => hrest) fun _ => .bind h.argumentList fun _ => hrest

theorem argumentList_succ (h : ExpressionOrigin ts depth) :
    Gives ts N (Expr.IntsAll (Origin ts)) (Parser.argumentList (depth + 1)) := by
  rw [Parser.argumentList]
  refine .looks looks_language fun _ => .bind h.binary fun arg => ?_
  refine .eatPunct (.bind h.argumentList fun _ => ?_) (.pure fun harg => ⟨harg, trivial⟩)
  exact .pure fun hargs harg => ⟨harg, hargs⟩

theorem primary_succ (h : ExpressionOrigin ts depth) :
    Gives ts N (Expr.Ints (Origin ts)) (Parser.primary (depth + 1)) := by
  rw [Parser.primary]
  refine .position fun pos => .looks looks_language fun language => .lexeme fun l => ?_
  split
  · exact gives_literal.of fun _ h => ⟨h.1.2, h.2⟩
  · exact .skip gives_advance fun _ => .pure trivial
  · refine .skip gives_advance fun _ => .bind h.binary fun inner => ?_
    exact .skip (gives_expectPunct ")") fun _ => .pure id
  · rename_i w
    refine .bind gives_constant? fun constant => ?_
    split
    · exact .skip gives_advance fun _ => .pure fun h => h _ rfl pos
    refine Gives.mono (Q := Expr.Ints (Origin ts)) ?_ fun _ h _ => h
    refine .looks looks_typeKeyword? fun type => ?_
    extract_lets name other
    have hother : Gives ts Anywhere (Expr.Ints (Origin ts)) (other ()) := by
      dsimp only [other]
      refine .eatWord (.skip gives_typeUse fun type => ?_) ?_
      · refine .looks (looks_isPunctAt 0 "(") fun _ => .ite (fun _ => ?_) fun _ => ?_
        · exact .bind h.arguments fun _ => .pure fun hargs => hargs
        · exact .bind (.pure (Q := Expr.IntsAll (Origin ts)) trivial) fun _ => .pure fun hargs => hargs
      · exact .ite (fun _ => .fail_bind) fun _ => .skip gives_advance fun _ => .pure trivial
    split
    · exact .ite (fun _ => .skip gives_typeUse fun _ => .pure trivial) fun _ => hother
    · exact hother
  · exact .looks looks_describe fun _ => .fail

theorem succ (h : ExpressionOrigin ts depth) : ExpressionOrigin ts (depth + 1) where
  binary := h.binary_succ
  binaryRest := h.binaryRest_succ
  unary := h.unary_succ
  operand := h.operand_succ
  postfixRest := h.postfixRest_succ
  arguments := h.arguments_succ
  argumentList := h.argumentList_succ
  primary := h.primary_succ

end ExpressionOrigin

theorem expressionOrigin (depth : Nat) : ExpressionOrigin ts depth := by
  induction depth with
  | zero => exact .zero
  | succ depth ih => exact ih.succ

theorem looks_depthBound : Looks depthBound := fun _ => ⟨_, rfl⟩

theorem gives_expression : Gives ts N (Expr.Ints (Origin ts)) expression :=
  .looks looks_depthBound fun _ => .looks looks_language fun _ => (expressionOrigin _).binary

theorem gives_unaryExpression : Gives ts N (Expr.Ints (Origin ts)) unaryExpression :=
  .looks looks_depthBound fun _ => (expressionOrigin _).unary

theorem gives_operandExpression : Gives ts N (Expr.Ints (Origin ts)) operandExpression :=
  .looks looks_depthBound fun _ => (expressionOrigin _).operand

theorem gives_eatWord (s : String) : Gives ts N Anything (eatWord s) := by
  have h : Gives ts N Anything (do if ← eatWord s then return true else return false) :=
    .eatWord (.pure trivial) (.pure trivial)
  have heta : (fun yes : Bool => if yes = true then (pure true : Parser Bool) else pure false) = pure :=
    funext fun yes => by cases yes <;> rfl
  rwa [heta, bind_pure] at h

/-- A part that may be left out, behind the keyword that announces it. -/
theorem Gives.optional {s : String} {g : Option α → Parser β} (hp : ∀ {N}, Gives ts N Q p)
    (hg : ∀ x, Gives ts Anywhere (fun y => (∀ a ∈ x, Q a) → S y) (g x)) :
    Gives ts N S (Parser.eatWord s >>= fun yes =>
      if yes = true then some <$> p >>= g else Pure.pure none >>= g) :=
  .eatWord (hp.some_.bind hg) (none_.bind hg)

end Parser

end CilScope.Source
