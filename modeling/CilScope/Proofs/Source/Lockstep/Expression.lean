import CilScope.Proofs.Source.Expression
import CilScope.Proofs.Source.Grammar
import CilScope.Proofs.Source.Lockstep.Basic

/-!
# Expressions are read in step

An expression is never gone on with by a semicolon or a closing brace, so in front of either it ends at
the same place. As in the bound on their depth, the parsers of expressions call each other at most sixteen
deep between two lexemes, and a depth of sixteen times the number of lexemes ahead is enough for the
second run.
-/

namespace CilScope.Source.Parser

variable {α β : Type} {g : Gap} {N : Lexeme → Lexeme → Prop} {r k depth : Nat}

/-! ### Words and punctuation -/

theorem tells_lexeme : Tells lexeme id := fun _ _ => rfl

theorem tells_atEof : Tells atEof fun t => decide (t = .eof) := fun _ _ => rfl

theorem tells_isPunct (s : String) : Tells (isPunct s) fun t => decide (t = .punct s) :=
  fun _ _ => rfl

/-- How a report spells a lexeme. -/
def spelling : Lexeme → String
  | .word w => w
  | .int v => toString v
  | .str s => "\"" ++ s ++ "\""
  | .punct p => p
  | .newline | .eof => ""

theorem tells_describe : Tells describe spelling := fun c _ => by
  rw [describe, lexeme, run_bind_of_ok (run_lexeme c)]
  cases c.next <;> rfl

theorem run_language {c : Cursor} (hc : c.log.language = .csharp) :
    language.run.run c = (.ok .csharp, c) :=
  congrArg (fun l => (Except.ok l, c)) hc

theorem tells_isWord (k : String) : Tells (isWord k) (matchesWord .csharp k) := by
  intro c hc
  rw [isWord, isWordAt, run_bind_of_ok (run_lexeme c)]
  cases c.next with
  | word w => exact run_bind_of_ok (run_language hc)
  | _ => rfl

/-- The predefined type a lexeme stands for. -/
def keywordType? : Lexeme → Option TypeName
  | .word w => meaning .csharp (typeKeywords .csharp) w
  | _ => none

theorem tells_typeKeyword? : Tells typeKeyword? keywordType? := by
  intro c hc
  rw [typeKeyword?, run_bind_of_ok (run_language hc), lexeme, run_bind_of_ok (run_lexeme c)]
  cases c.next <;> rfl

/-- Whether a lexeme is an identifier. -/
def isIdentifier : Lexeme → Bool
  | .word w => !isReserved .csharp w
  | _ => false

theorem run_isIdentifierAt (n : Nat) {c : Cursor} (hc : c.log.language = .csharp) :
    (isIdentifierAt n).run.run c = (.ok (isIdentifier (c.ahead n)), c) := by
  have hlexeme : (lexemeAt n).run.run c = (.ok (c.ahead n), c) := rfl
  rw [isIdentifierAt, run_bind_of_ok hlexeme]
  cases c.ahead n with
  | word w => exact run_bind_of_ok (run_language hc)
  | _ => rfl

theorem tells_isIdentifier : Tells (isIdentifierAt 0) isIdentifier :=
  fun _ hc => run_isIdentifierAt 0 hc

theorem takes_of_tells {p : Parser Bool} {h : Lexeme → Bool} (hp : Tells p h) (heof : h .eof = false) :
    Takes (p >>= fun yes => if yes then advance >>= fun _ => pure true else pure false) h where
  eof := heof
  yes c hc hyes := by
    have hnext : c.next ≠ .eof := by
      intro hnext
      rw [hnext, heof] at hyes
      cases hyes
    obtain ⟨t, ht⟩ := run_advance_skip hnext
    rw [run_bind_of_ok (hp c hc), hyes, if_pos rfl, run_bind_of_ok ht]
    rfl
  no c hc hno := by
    rw [run_bind_of_ok (hp c hc), hno]
    rfl

theorem takes_eatPunct (s : String) : Takes (eatPunct s) fun t => decide (t = .punct s) :=
  takes_of_tells (tells_isPunct s) rfl

theorem takes_eatCSharpPunct (s : String) :
    Takes (eatCSharpPunct s) fun t => decide (t = .punct s) where
  eof := (takes_eatPunct s).eof
  yes c hc hyes := by
    rw [eatCSharpPunct, run_bind_of_ok (run_language hc)]
    exact (takes_eatPunct s).yes c hc hyes
  no c hc hno := by
    rw [eatCSharpPunct, run_bind_of_ok (run_language hc)]
    exact (takes_eatPunct s).no c hc hno

theorem takes_eatWord (k : String) : Takes (eatWord k) (matchesWord .csharp k) :=
  takes_of_tells (tells_isWord k) rfl

/-! ### Steps -/

theorem asks_isPunct {s : String} (hs : s ≠ ";" ∧ s ≠ "\x7d") :
    Asks g N (isPunct s) (isPunct s) := by
  refine .of_tells (tells_isPunct s) (looks_isPunctAt 0 s) fun _ => ?_
  rw [decide_eq_false, decide_eq_false]
  · exact fun h => hs.2 (Lexeme.punct.inj h).symm
  · exact fun h => hs.1 (Lexeme.punct.inj h).symm

/-- A question about the lexeme behind the next one. -/
theorem asks_second {p : Parser α} {h : Lexeme → α} (hp : ∀ c : Cursor, c.log.language = .csharp →
      p.run.run c = (.ok (h (c.ahead 1)), c)) (hlooks : Looks p)
    (hgap : h (.punct ";") = h (.punct "\x7d")) : Asks g Same p p where
  looks := hlooks
  agrees {c d} hcd hnext := by
    refine ⟨_, hp c hcd.left, ?_⟩
    rw [hp d hcd.right]
    have hfirst : ∀ i < 1, c.ahead i = d.ahead i := fun i hi => by
      obtain rfl : i = 0 := by omega
      exact hnext
    rcases hcd.ahead hfirst with h | ⟨hc, hd⟩
    · rw [h]
    · rw [hc, hd, hgap]

namespace Lockstep

theorem eatPunct {s : String} {x x' y y' : Parser β} (hs : s ≠ ";" ∧ s ≠ "\x7d")
    (hx : 1 ≤ r → Lockstep g Free (r - 1) (k - 1) x x') (hy : Lockstep g N r k y y') :
    Lockstep g N r k (Parser.eatPunct s >>= fun yes => if yes = true then x else y)
      (Parser.eatPunct s >>= fun yes => if yes = true then x' else y') := by
  refine takes (takes_eatPunct s) (fun _ => ⟨?_, ?_⟩) hx hy
  · exact decide_eq_false fun h => hs.1 (Lexeme.punct.inj h).symm
  · exact decide_eq_false fun h => hs.2 (Lexeme.punct.inj h).symm

theorem eatCSharpPunct {s : String} {x x' y y' : Parser β} (hs : s ≠ ";" ∧ s ≠ "\x7d")
    (hx : 1 ≤ r → Lockstep g Free (r - 1) (k - 1) x x') (hy : Lockstep g N r k y y') :
    Lockstep g N r k (Parser.eatCSharpPunct s >>= fun yes => if yes = true then x else y)
      (Parser.eatCSharpPunct s >>= fun yes => if yes = true then x' else y') := by
  refine takes (takes_eatCSharpPunct s) (fun _ => ⟨?_, ?_⟩) hx hy
  · exact decide_eq_false fun h => hs.1 (Lexeme.punct.inj h).symm
  · exact decide_eq_false fun h => hs.2 (Lexeme.punct.inj h).symm

theorem eatPunct_same {s : String} {x x' y y' : Parser β}
    (hx : 1 ≤ r → Lockstep g Free (r - 1) (k - 1) x x') (hy : Lockstep g Same r k y y') :
    Lockstep g Same r k (Parser.eatPunct s >>= fun yes => if yes = true then x else y)
      (Parser.eatPunct s >>= fun yes => if yes = true then x' else y') :=
  takes (takes_eatPunct s) (fun h => absurd h not_same_torn) hx hy

theorem eatWord {s : String} {x x' y y' : Parser β}
    (hx : 1 ≤ r → Lockstep g Free (r - 1) (k - 1) x x') (hy : Lockstep g N r k y y') :
    Lockstep g N r k (Parser.eatWord s >>= fun yes => if yes = true then x else y)
      (Parser.eatWord s >>= fun yes => if yes = true then x' else y') :=
  takes (takes_eatWord s) (fun _ => ⟨rfl, rfl⟩) hx hy

theorem lexeme {a b : Lexeme} {f f' : Lexeme → Parser β}
    (hf : Lockstep g (Next a b) r k (f a) (f' b)) :
    Lockstep g (Next a b) r k (Parser.lexeme >>= f) (Parser.lexeme >>= f') :=
  told tells_lexeme hf

end Lockstep

/-! ### Names and types -/

theorem lockstep_expectPunct (s : String) : Lockstep g N r 1 (expectPunct s) (expectPunct s) := by
  refine .of_same le_rfl (.eatPunct_same (fun _ => .pure ()) (.language ?_))
  refine .asks (.of_tells tells_describe looks_describe fun h => absurd h not_same_torn) fun _ => ?_
  exact .ite (fun _ => .looks looks_position looks_position fun _ _ => .fail _ _ _)
    fun _ => .looks looks_previousStop looks_previousStop fun _ _ => .fail _ _ _

theorem lockstep_identifier : Lockstep g N r 1 identifier identifier := by
  refine .of_same le_rfl (.cases_same fun t => .lexeme ?_)
  cases t with
  | word w =>
    refine .language (.ite (fun _ => ?_) fun _ => .read (by simp) fun _ _ => .pure w)
    exact .looks looks_position looks_position fun _ _ => .fail_bind _
  | _ => exact .looks looks_position looks_position fun _ _ => .fail _ _ _

/-- Whether a lexeme is a word. -/
def isAnyWord : Lexeme → Bool
  | .word _ => true
  | _ => false

theorem run_isAnyWordAt (n : Nat) (c : Cursor) :
    (isAnyWordAt n).run.run c = (.ok (isAnyWord (c.ahead n)), c) := by
  have hlexeme : (lexemeAt n).run.run c = (.ok (c.ahead n), c) := rfl
  rw [isAnyWordAt, run_bind_of_ok hlexeme]
  cases c.ahead n <;> rfl

theorem asks_isAnyWord : Asks g Same (isAnyWordAt 1) (isAnyWordAt 1) :=
  asks_second (fun c _ => run_isAnyWordAt 1 c) (looks_isAnyWordAt 1) rfl

theorem asks_second_isPunct {s : String} (hs : s ≠ ";" ∧ s ≠ "\x7d") :
    Asks g Same (isPunctAt 1 s) (isPunctAt 1 s) := by
  refine asks_second (h := fun t => decide (t = .punct s)) (fun _ _ => rfl) (looks_isPunctAt 1 s) ?_
  rw [decide_eq_false, decide_eq_false]
  · exact fun h => hs.2 (Lexeme.punct.inj h).symm
  · exact fun h => hs.1 (Lexeme.punct.inj h).symm

/-- Two lexemes that are asked for one behind the other. The second one is not at the gap where the first
one is in front of it. -/
theorem Lockstep.pair {p q : Parser Bool} {h : Lexeme → Bool} {x x' y y' : Parser β} (hp : Tells p h)
    (hq : Asks g Same q q) (hgap : h (.punct ";") = false ∧ h (.punct "\x7d") = false)
    (hx : ∀ t, h t = true → Lockstep g (Next t t) r k x x')
    (hy : ∀ {N}, Lockstep g N r k y y') :
    Lockstep g N r k (p >>= fun a => q >>= fun b => if (a && b) = true then x else y)
      (p >>= fun a => q >>= fun b => if (a && b) = true then x' else y') := by
  have hno : ∀ {a b : Lexeme}, h a = false → h b = false →
      Lockstep g (Next a b) r k (p >>= fun a => q >>= fun b => if (a && b) = true then x else y)
        (p >>= fun a => q >>= fun b => if (a && b) = true then x' else y') := fun ha hb => by
    refine .told hp (.looks hq.looks hq.looks fun _ _ => ?_)
    rw [ha, hb]
    exact hy
  refine .cases_next (fun t => ?_) (hno hgap.1 hgap.2)
  cases ht : h t with
  | false => exact hno ht ht
  | true =>
    refine .told hp (.asks (hq.imp same_of_next) fun second => ?_)
    exact .ite (fun _ => hx t ht) fun _ => hy

theorem lockstep_dottedRest {n m : Nat} {name : String} (hn : r < n)
    (hm : r < m + g.removed.length) :
    Lockstep g N r 0 (dottedRest n name) (dottedRest m name) := by
  refine Lockstep.loop (F := dottedRest) (fun {N n m r name} hn hm ih => ?_) hn hm
  rw [dottedRest, dottedRest]
  refine .pair (tells_isPunct ".") asks_isAnyWord ⟨rfl, rfl⟩ (fun t ht => ?_) (.pure name)
  refine .read (of_decide_eq_true ht ▸ by simp) fun hr _ => ?_
  exact lockstep_identifier.bind fun hr part => (ih (by omega) (by omega)).weaken (Nat.zero_le _)

theorem lockstep_qualifiedName : Lockstep g N r 1 qualifiedName qualifiedName :=
  .remaining fun _ _ hn hm hm' => lockstep_identifier.bind fun _ name =>
    lockstep_dottedRest (by omega) (by omega)

theorem lockstep_arrayRest {n m : Nat} {name : TypeName} (hn : r < n)
    (hm : r < m + g.removed.length) :
    Lockstep g N r 0 (arrayRest n name) (arrayRest m name) := by
  refine Lockstep.loop (F := arrayRest) (fun {N n m r name} hn hm ih => ?_) hn hm
  rw [arrayRest, arrayRest]
  refine .language (.pair (tells_isPunct "[") (asks_second_isPunct (by decide)) ⟨rfl, rfl⟩
    (fun t ht => ?_) (.pure name))
  refine .read (of_decide_eq_true ht ▸ by simp) fun hr _ => ?_
  exact Lockstep.advance.bind fun _ _ => ih (by omega) (by omega)

theorem lockstep_typeUse : Lockstep g N r 1 typeUse typeUse := by
  refine .of_same le_rfl (.position fun pos => .cases_same fun t => .told tells_typeKeyword? ?_)
  cases htype : keywordType? t with
  | some type =>
    refine .read (fun ht => ?_) fun _ _ => ?_
    · rw [ht] at htype
      cases htype
    · refine (Lockstep.pure type).bind fun _ element => .remaining fun n m _ _ _ => ?_
      exact (lockstep_arrayRest (by omega) (by omega)).bind fun _ _ => .pure _
  | none =>
    refine lockstep_qualifiedName.map.bind fun _ element => ?_
    refine .remaining fun n m _ _ _ => (lockstep_arrayRest (by omega) (by omega)).bind fun _ _ => .pure _

/-! ### Expressions -/

/-- No operator of a level is a semicolon or a closing brace. -/
def Level.Plain (level : Level) : Prop :=
  ∀ x ∈ level.operators, x.1 ≠ .punct ";" ∧ x.1 ≠ .punct "\x7d"

theorem plain_levels : ∀ level ∈ levels .csharp, Level.Plain level := by
  unfold Level.Plain
  decide

theorem tells_operator? (level : Level) : Tells (operator? level) (level.read? .csharp) := by
  intro c hc
  rw [operator?, run_bind_of_ok (run_language hc), lexeme, run_bind_of_ok (run_lexeme c)]
  rfl

theorem Level.Plain.read?_eq_none {level : Level} (h : Level.Plain level) {s : String}
    (hs : s = ";" ∨ s = "\x7d") : level.read? .csharp (.punct s) = none := by
  rw [Level.read?, Option.map_eq_none_iff, List.find?_eq_none]
  rintro ⟨spelling, op⟩ hx
  cases spelling with
  | word w => exact Bool.false_ne_true
  | punct p =>
    obtain ⟨hsemi, hbrace⟩ := h _ hx
    intro hspells
    obtain rfl : s = p := eq_of_beq hspells
    exact hs.elim (fun hs => hsemi (hs ▸ rfl)) fun hs => hbrace (hs ▸ rfl)

/-- The end of the file spells no operator. -/
theorem read?_eof (level : Level) : level.read? .csharp .eof = none := by
  rw [Level.read?, Option.map_eq_none_iff, List.find?_eq_none]
  exact fun _ _ => Bool.false_ne_true

/-- The constant a lexeme stands for. -/
def constantOf? : Lexeme → Option (Position → Expr)
  | .word w => meaning .csharp (constants .csharp) w
  | _ => none

theorem tells_constant? : Tells constant? constantOf? := by
  intro c hc
  rw [constant?, run_bind_of_ok (run_language hc), lexeme, run_bind_of_ok (run_lexeme c)]
  cases c.next <;> rfl

theorem lockstep_memberName : Lockstep g N r 1 memberName memberName := by
  refine .of_same le_rfl (.language (.cases_same fun t => .lexeme ?_))
  exact lockstep_identifier

theorem lockstep_literal (pos : Position) (value : Nat) :
    Lockstep g (Next (.int value) (.int value)) r 1 (literal pos value) (literal pos value) :=
  .read (by simp) fun _ _ => .ite (fun _ => (Lockstep.report _ _ _).bind fun _ _ => .pure _) fun _ => .pure _

/-- The depth that the second run of the parsers of expressions needs with `r` lexemes before the end of
the file, whatever that of the first one is. -/
structure ExpressionSteps (g : Gap) (depth m : Nat) : Prop where
  binary : ∀ {N r ls}, 16 * r + 4 + ls.length ≤ m → ls.length ≤ 8 → (∀ l ∈ ls, Level.Plain l) →
    Lockstep g N r 1 (Parser.binary depth ls) (Parser.binary m ls)
  binaryRest : ∀ {N r level tighter lhs}, 16 * r + 5 + tighter.length ≤ m → tighter.length ≤ 8 →
    (∀ l ∈ level :: tighter, Level.Plain l) →
    Lockstep g N r 0 (Parser.binaryRest depth level tighter lhs) (Parser.binaryRest m level tighter lhs)
  unary : ∀ {N r}, 16 * r + 3 ≤ m → Lockstep g N r 1 (Parser.unary depth) (Parser.unary m)
  operand : ∀ {N r}, 16 * r + 2 ≤ m → Lockstep g N r 1 (Parser.operand depth) (Parser.operand m)
  postfixRest : ∀ {N r e}, 16 * r + 2 ≤ m →
    Lockstep g N r 0 (Parser.postfixRest depth e) (Parser.postfixRest m e)
  arguments : ∀ {N r}, 16 * r + 1 ≤ m →
    Lockstep g N r 1 (Parser.arguments depth) (Parser.arguments m)
  argumentList : ∀ {N r}, 16 * r + 13 ≤ m →
    Lockstep g N r 1 (Parser.argumentList depth) (Parser.argumentList m)
  primary : ∀ {N r}, 16 * r + 1 ≤ m → Lockstep g N r 1 (Parser.primary depth) (Parser.primary m)

namespace ExpressionSteps

variable {m : Nat}

/-- Without depth the first run stops. -/
theorem zero_left : ExpressionSteps g 0 m where
  binary _ _ _ := by rw [Parser.binary]; exact .throw _
  binaryRest _ _ _ := by rw [Parser.binaryRest]; exact .throw _
  unary _ := by rw [Parser.unary]; exact .throw _
  operand _ := by rw [Parser.operand]; exact .throw _
  postfixRest _ := by rw [Parser.postfixRest]; exact .throw _
  arguments _ := by rw [Parser.arguments]; exact .throw _
  argumentList _ := by rw [Parser.argumentList]; exact .throw _
  primary _ := by rw [Parser.primary]; exact .throw _

/-- No second run has that little depth. -/
theorem zero_right : ExpressionSteps g depth 0 where
  binary h := by omega
  binaryRest h := by omega
  unary h := by omega
  operand h := by omega
  postfixRest h := by omega
  arguments h := by omega
  argumentList h := by omega
  primary h := by omega

/-- An expression of any level. -/
theorem whole (h : ExpressionSteps g depth m) (hm : 16 * r + 12 ≤ m) :
    Lockstep g N r 1 (Parser.binary depth (levels .csharp)) (Parser.binary m (levels .csharp)) := by
  have := length_levels .csharp
  exact h.binary (by omega) this plain_levels

theorem binary_succ (h : ExpressionSteps g depth m) {ls : List Level}
    (hm : 16 * r + 4 + ls.length ≤ m + 1) (hls : ls.length ≤ 8) (hplain : ∀ l ∈ ls, Level.Plain l) :
    Lockstep g N r 1 (Parser.binary (depth + 1) ls) (Parser.binary (m + 1) ls) := by
  cases ls with
  | nil =>
    rw [Parser.binary, Parser.binary]
    exact h.unary (by rw [List.length_nil] at hm; omega)
  | cons level tighter =>
    rw [List.length_cons] at hm hls
    rw [Parser.binary, Parser.binary]
    refine .of_same le_rfl (.position fun pos => ?_)
    have hrest : ∀ {M}, Lockstep g M r 1
        (do Parser.binaryRest depth level tighter (← Parser.binary depth tighter))
        (do Parser.binaryRest m level tighter (← Parser.binary m tighter)) :=
      (h.binary (by omega) (by omega) fun l hl => hplain l (List.mem_cons_of_mem _ hl)).bind
        fun _ lhs => h.binaryRest (by omega) (by omega) hplain
    refine .ite (fun _ => ?_) fun _ => hrest
    refine .eatWord (fun _ => ?_) hrest
    refine Lockstep.weaken (j := 0) ?_ (Nat.zero_le 1)
    exact (h.binary (by rw [List.length_cons]; omega) (by rw [List.length_cons]; omega) hplain).bind
      fun _ _ => .weaken (.pure _) (Nat.zero_le _)

theorem binaryRest_succ (h : ExpressionSteps g depth m) {level : Level} {tighter : List Level}
    {lhs : Expr} (hm : 16 * r + 5 + tighter.length ≤ m + 1) (htighter : tighter.length ≤ 8)
    (hplain : ∀ l ∈ level :: tighter, Level.Plain l) :
    Lockstep g N r 0 (Parser.binaryRest (depth + 1) level tighter lhs)
      (Parser.binaryRest (m + 1) level tighter lhs) := by
  rw [Parser.binaryRest, Parser.binaryRest]
  have hlevel := hplain level List.mem_cons_self
  refine .cases_next (fun t => .told (tells_operator? level) ?_) (.told (tells_operator? level) ?_)
  · cases hop : level.read? .csharp t with
    | none => exact .pure lhs
    | some op =>
      refine .read (fun ht => ?_) fun _ _ => ?_
      · rw [ht, read?_eof] at hop
        cases hop
      refine (h.binary (by omega) htighter fun l hl => hplain l (List.mem_cons_of_mem _ hl)).bind
        fun _ rhs => ?_
      exact h.binaryRest (by omega) htighter hplain
  · rw [hlevel.read?_eq_none (.inl rfl), hlevel.read?_eq_none (.inr rfl)]
    exact .pure lhs

theorem unary_succ (h : ExpressionSteps g depth m) (hm : 16 * r + 3 ≤ m + 1) :
    Lockstep g N r 1 (Parser.unary (depth + 1)) (Parser.unary (m + 1)) := by
  rw [Parser.unary, Parser.unary]
  refine .of_same le_rfl (.position fun pos => .eatPunct (by decide) (fun _ => ?_) ?_)
  · refine Lockstep.weaken (.of_same le_rfl (.cases_same fun t => .lexeme ?_)) (Nat.zero_le 1)
    have hneg : Lockstep g (Next t t) (r - 1) 1 (do return Expr.unary pos .neg (← Parser.unary depth))
        (do return Expr.unary pos .neg (← Parser.unary m)) :=
      (h.unary (by omega)).bind fun _ _ => .pure _
    cases t with
    | int v => exact .read (by simp) fun _ _ => h.postfixRest (by omega)
    | _ => exact hneg
  · refine .eatCSharpPunct (by decide) (fun _ => ?_) (h.operand (by omega))
    exact ((h.unary (by omega)).bind fun _ _ => .pure _).weaken (Nat.zero_le 1)

theorem operand_succ (h : ExpressionSteps g depth m) (hm : 16 * r + 2 ≤ m + 1) :
    Lockstep g N r 1 (Parser.operand (depth + 1)) (Parser.operand (m + 1)) := by
  rw [Parser.operand, Parser.operand]
  exact (h.primary (by omega)).bind fun _ _ => h.postfixRest (by omega)

theorem postfixRest_succ (h : ExpressionSteps g depth m) {e : Expr} (hm : 16 * r + 2 ≤ m + 1) :
    Lockstep g N r 0 (Parser.postfixRest (depth + 1) e) (Parser.postfixRest (m + 1) e) := by
  rw [Parser.postfixRest, Parser.postfixRest]
  refine .cases_next (fun t => ?_) ?_
  · refine .imp (.position fun pos => .eatPunct (by decide) (fun _ => ?_) ?_) same_of_next
    · exact lockstep_memberName.bind fun _ _ => h.postfixRest (by omega)
    refine .asks (asks_isPunct (by decide)) fun _ => .ite (fun _ => ?_) fun _ => ?_
    · exact (h.arguments (by omega)).bind fun _ _ => h.postfixRest (by omega)
    refine .eatCSharpPunct (by decide) (fun _ => .language ?_) (.pure e)
    refine (h.whole (by omega)).bind fun _ _ => ?_
    exact (lockstep_expectPunct "]").bind fun _ _ => h.postfixRest (by omega)
  · refine .looks looks_position looks_position fun _ _ => ?_
    refine .untaken (takes_eatPunct ".") (by decide) (by decide) ?_
    refine .told (tells_isPunct "(") (.untaken (takes_eatCSharpPunct "[") (by decide) (by decide) ?_)
    exact .pure e

theorem arguments_succ (h : ExpressionSteps g depth m) (hm : 16 * r + 1 ≤ m + 1) :
    Lockstep g N r 1 (Parser.arguments (depth + 1)) (Parser.arguments (m + 1)) := by
  rw [Parser.arguments, Parser.arguments]
  refine (lockstep_expectPunct "(").bind fun _ _ => .asks (asks_isPunct (by decide)) fun _ => ?_
  refine .ite_bind (.pure []) ((h.argumentList (by omega)).weaken (Nat.zero_le 1)) fun _ args => ?_
  exact ((lockstep_expectPunct ")").bind fun _ _ => .pure args).weaken (Nat.zero_le 1)

theorem argumentList_succ (h : ExpressionSteps g depth m) (hm : 16 * r + 13 ≤ m + 1) :
    Lockstep g N r 1 (Parser.argumentList (depth + 1)) (Parser.argumentList (m + 1)) := by
  rw [Parser.argumentList, Parser.argumentList]
  refine .language ((h.whole (by omega)).bind fun _ arg => ?_)
  refine .eatPunct (by decide) (fun _ => ?_) (.pure [arg])
  exact ((h.argumentList (by omega)).bind fun _ _ => .pure _).weaken (Nat.zero_le 1)

theorem primary_succ (h : ExpressionSteps g depth m) (hm : 16 * r + 1 ≤ m + 1) :
    Lockstep g N r 1 (Parser.primary (depth + 1)) (Parser.primary (m + 1)) := by
  rw [Parser.primary, Parser.primary]
  refine .of_same le_rfl (.position fun pos => .language (.cases_same fun t => .lexeme ?_))
  split
  · exact lockstep_literal _ _
  · exact .read (by simp) fun _ _ => .pure _
  · refine .read (by simp) fun _ _ => (h.whole (by omega)).bind fun _ inner => ?_
    exact ((lockstep_expectPunct ")").bind fun _ _ => .pure inner).weaken (Nat.zero_le 1)
  · rename_i w
    refine .told tells_constant? ?_
    split
    · exact .read (by simp) fun _ _ => .pure _
    refine .told tells_typeKeyword? ?_
    extract_lets name other other'
    have hother : Lockstep g (Next (.word w) (.word w)) r 1 (other ()) (other' ()) := by
      dsimp only [other, other']
      refine .eatWord (fun _ => lockstep_typeUse.bind fun _ type => ?_) ?_
      · refine .asks (asks_isPunct (by decide)) fun _ => ?_
        refine .ite_bind ((h.arguments (by omega)).weaken (Nat.zero_le 1)) (.pure []) fun _ _ => ?_
        exact .pure _
      · exact .ite (fun _ => .fail_bind _) fun _ => .read (by simp) fun _ _ => .pure _
    split
    · refine .ite (fun _ => ?_) fun _ => hother
      exact lockstep_typeUse.bind fun _ _ => .pure _
    · exact hother
  · refine .looks looks_describe looks_describe fun _ _ => .fail _ _ _

theorem succ (h : ExpressionSteps g depth m) : ExpressionSteps g (depth + 1) (m + 1) where
  binary := h.binary_succ
  binaryRest := h.binaryRest_succ
  unary := h.unary_succ
  operand := h.operand_succ
  postfixRest := h.postfixRest_succ
  arguments := h.arguments_succ
  argumentList := h.argumentList_succ
  primary := h.primary_succ

end ExpressionSteps

theorem expressionSteps (g : Gap) (depth m : Nat) : ExpressionSteps g depth m := by
  induction depth generalizing m with
  | zero => exact .zero_left
  | succ depth ih =>
    cases m with
    | zero => exact .zero_right
    | succ m => exact (ih m).succ

theorem lockstep_expression : Lockstep g N r 1 expression expression :=
  .depthBound fun _ _ _ hm => .language ((expressionSteps g _ _).whole (by omega))

theorem lockstep_unaryExpression : Lockstep g N r 1 unaryExpression unaryExpression :=
  .depthBound fun _ _ _ hm => (expressionSteps g _ _).unary (by omega)

end CilScope.Source.Parser
