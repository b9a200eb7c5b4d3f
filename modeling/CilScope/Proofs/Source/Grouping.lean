import CilScope.Proofs.Source.Expression
import CilScope.Proofs.Source.Grammar

/-!
# Expressions are read as the grammar says

In front of a lexeme that cannot go on an expression, the parsers of expressions read exactly the
lexemes that the grammar gives and return the tree that it gives. `Reads` says this of one parser and
is closed under the steps parsers are made of. The chain of a level is read from the left: what has
been read so far is grouped already, and the next operator of the level becomes its root.
-/

namespace CilScope.Source.Parser

variable {α β : Type} {language : Language} {p : Parser α} {f : α → Parser β}
  {ts us vs rest input : List Located} {t : Located} {a : α} {b : β}

/-- A parser that returns `a` and leaves the lexemes where they are. -/
def Peeks (language : Language) (input : List Located) (p : Parser α) (a : α) : Prop :=
  ∀ stop log, log.language = language → p.run.run ⟨input, stop, log⟩ = (.ok a, ⟨input, stop, log⟩)

/-- The literals among some lexemes are signed words. -/
def Fits (ts : List Located) : Prop := ∀ t ∈ ts, ∀ v, t.lexeme = .int v → v < 0x80000000

/-- A parser that reads exactly `ts` in front of `rest` and returns `a`. At most literals that are too
large are reported. -/
def Reads (language : Language) (p : Parser α) (ts rest : List Located) (a : α) : Prop :=
  ∀ stop log, log.language = language → ∃ log', log'.language = language ∧ (Fits ts → log' = log) ∧
    p.run.run ⟨ts ++ rest, stop, log⟩ = (.ok a, ⟨rest, ts.foldl (fun _ t => t.stop) stop, log'⟩)

/-! ### Looking ahead -/

namespace Peeks

theorem pure (a : α) : Peeks language input (Pure.pure a) a := fun _ _ _ => rfl

theorem bind (hp : Peeks language input p a) (hf : Peeks language input (f a) b) :
    Peeks language input (p >>= f) b := by
  intro stop log hlog
  rw [run_bind_of_ok (hp stop log hlog)]
  exact hf stop log hlog

end Peeks

theorem peeks_language : Peeks language input Parser.language language := by
  intro stop log hlog
  subst hlog
  rfl

theorem peeks_remaining : Peeks language input remaining input.length := fun _ _ _ => rfl

theorem peeks_position : Peeks language input position (input.headD ⟨.eof, {}, {}⟩).start :=
  fun _ _ _ => rfl

theorem peeks_lexeme {l : Lexeme} (h : front input = l) : Peeks language input lexeme l :=
  fun _ _ _ => congrArg (fun l => (Except.ok l, _)) h

theorem peeks_isPunct {s : String} (h : front input = .punct s) :
    Peeks language input (isPunct s) true :=
  fun _ _ _ => congrArg (fun b => (Except.ok b, _)) (decide_eq_true h)

theorem peeks_not_isPunct {s : String} (h : front input ≠ .punct s) :
    Peeks language input (isPunct s) false :=
  fun _ _ _ => congrArg (fun b => (Except.ok b, _)) (decide_eq_false h)

theorem peeks_isWord (k : String) :
    Peeks language input (isWord k) (matchesWord language k (front input)) := by
  refine Peeks.bind (peeks_lexeme rfl) ?_
  cases front input with
  | word w => exact peeks_language.bind (.pure _)
  | _ => exact .pure _

theorem peeks_constant? {w : String} (h : front input = .word w) :
    Peeks language input constant? (meaning language (constants language) w) :=
  peeks_language.bind ((peeks_lexeme h).bind (.pure _))

theorem peeks_typeKeyword? {w : String} (h : front input = .word w) :
    Peeks language input typeKeyword? (meaning language (typeKeywords language) w) :=
  peeks_language.bind ((peeks_lexeme h).bind (.pure _))

theorem peeks_operator? (level : Level) :
    Peeks language input (operator? level) (level.read? language (front input)) :=
  peeks_language.bind ((peeks_lexeme rfl).bind (.pure _))

theorem peeks_not_eatPunct {s : String} (h : front input ≠ .punct s) :
    Peeks language input (eatPunct s) false :=
  (peeks_not_isPunct h).bind (.pure _)

theorem peeks_not_eatCSharpPunct {s : String} (h : language = .csharp → front input ≠ .punct s) :
    Peeks language input (eatCSharpPunct s) false := by
  refine peeks_language.bind ?_
  cases language with
  | csharp => exact peeks_not_eatPunct (h rfl)
  | visualBasic => exact .pure _

theorem peeks_not_eatWord {k : String} (h : matchesWord language k (front input) = false) :
    Peeks language input (eatWord k) false := by
  refine (peeks_isWord k).bind ?_
  rw [h]
  exact .pure _

/-! ### Reading -/

theorem Fits.append (h : Fits (ts ++ us)) : Fits ts ∧ Fits us :=
  ⟨fun t ht => h t (List.mem_append_left _ ht), fun t ht => h t (List.mem_append_right _ ht)⟩

namespace Reads

theorem pure (a : α) : Reads language (Pure.pure a) [] rest a :=
  fun _ log hlog => ⟨log, hlog, fun _ => rfl, rfl⟩

theorem bind (hp : Reads language p ts (us ++ rest) a) (hf : Reads language (f a) us rest b) :
    Reads language (p >>= f) (ts ++ us) rest b := by
  intro stop log hlog
  obtain ⟨log₁, hlog₁, hfits₁, hrun₁⟩ := hp stop log hlog
  obtain ⟨log₂, hlog₂, hfits₂, hrun₂⟩ := hf (ts.foldl (fun _ t => t.stop) stop) log₁ hlog₁
  refine ⟨log₂, hlog₂, fun h => ?_, ?_⟩
  · rw [hfits₂ h.append.2, hfits₁ h.append.1]
  · rw [List.append_assoc, run_bind_of_ok hrun₁, hrun₂, List.foldl_append]

/-- A step that reads one lexeme, and what is read behind it. -/
theorem first (hp : Reads language p [t] (ts ++ rest) a) (hf : Reads language (f a) ts rest b) :
    Reads language (p >>= f) (t :: ts) rest b :=
  hp.bind hf

theorem peek (hp : Peeks language (ts ++ rest) p a) (hf : Reads language (f a) ts rest b) :
    Reads language (p >>= f) ts rest b := by
  intro stop log hlog
  rw [run_bind_of_ok (hp stop log hlog)]
  exact hf stop log hlog

/-- The first parser reads all of it. -/
theorem all (hp : Reads language p ts rest a) (hf : Reads language (f a) [] rest b) :
    Reads language (p >>= f) ts rest b := by
  have h := hp.bind hf
  rwa [List.append_nil] at h

theorem map {g : α → β} (hp : Reads language p ts rest a) :
    Reads language (p >>= fun a => Pure.pure (g a)) ts rest (g a) :=
  hp.all (pure (g a))

/-- A function of what has been read. -/
theorem functorMap {g : α → β} (hp : Reads language p ts rest a) :
    Reads language (g <$> p) ts rest (g a) := by
  rw [map_eq_pure_bind]
  exact hp.map

theorem advance (ht : t.lexeme ≠ .eof) : Reads language Parser.advance [t] rest t :=
  fun stop log hlog => ⟨log, hlog, fun _ => rfl, run_advance_cons ht stop log⟩

theorem next {f : Located → Parser β} (ht : t.lexeme ≠ .eof)
    (hf : Reads language (f t) ts rest b) : Reads language (Parser.advance >>= f) (t :: ts) rest b :=
  (advance ht).bind hf

theorem pos {c : Prop} [Decidable c] {q : Parser α} (hc : c) (hp : Reads language p ts rest a) :
    Reads language (if c then p else q) ts rest a := by
  rwa [if_pos hc]

theorem neg {c : Prop} [Decidable c] {q : Parser α} (hc : ¬c) (hq : Reads language q ts rest a) :
    Reads language (if c then p else q) ts rest a := by
  rwa [if_neg hc]

end Reads

theorem reads_eatPunct {s : String} (ht : t.lexeme = .punct s) :
    Reads language (eatPunct s) [t] rest true :=
  .peek (peeks_isPunct ht) (.next (by rw [ht]; simp) (.pure true))

theorem reads_eatCSharpPunct {s : String} (hlanguage : language = .csharp) (ht : t.lexeme = .punct s) :
    Reads language (eatCSharpPunct s) [t] rest true := by
  subst hlanguage
  exact .peek peeks_language (reads_eatPunct ht)

theorem reads_eatWord {k w : String} (ht : t.lexeme = .word w) (hw : language.sameName w k) :
    Reads language (eatWord k) [t] rest true := by
  refine .peek (peeks_isWord k) ?_
  rw [List.singleton_append, front_cons, ht, matchesWord, hw]
  exact .next (by rw [ht]; simp) (.pure true)

theorem reads_expectPunct {s : String} (ht : t.lexeme = .punct s) :
    Reads language (expectPunct s) [t] rest () :=
  (reads_eatPunct ht).first (.pure ())

theorem reads_identifier {w : String} (ht : t.lexeme = .word w)
    (hw : isReserved language w = false) : Reads language identifier [t] rest w := by
  refine .peek (peeks_lexeme ht) (.peek peeks_language ?_)
  exact .neg (ne_true_of_eq_false hw) (.next (by rw [ht]; simp) (.pure w))

theorem reads_memberName {w : String} (ht : t.lexeme = .word w)
    (hw : language = .csharp → isReserved language w = false) :
    Reads language memberName [t] rest w := by
  refine .peek peeks_language (.peek (peeks_lexeme ht) ?_)
  cases language with
  | csharp => exact reads_identifier ht (hw rfl)
  | visualBasic => exact .next (by rw [ht]; simp) (.pure w)

/-- A literal that does not fit is reported. -/
theorem reads_literal {pos : Position} {v : Nat} (ht : t.lexeme = .int v) :
    Reads language (literal pos v) [t] rest (.int pos (Int32.ofNat v)) := by
  intro stop log hlog
  have hadvance : Parser.advance.run.run ⟨[t] ++ rest, stop, log⟩ = (.ok t, ⟨rest, t.stop, log⟩) :=
    run_advance_cons (by rw [ht]; simp) stop log
  by_cases hv : 0x80000000 ≤ v
  · refine ⟨log.report pos .integerTooLarge, hlog, fun hfits => ?_, ?_⟩
    · exact absurd (hfits t (List.mem_singleton_self t) v ht) (not_lt.mpr hv)
    · rw [literal, run_bind_of_ok hadvance, if_pos hv]
      rfl
  · refine ⟨log, hlog, fun _ => rfl, ?_⟩
    rw [literal, run_bind_of_ok hadvance, if_neg hv]
    rfl

/-! ### Types -/

theorem peeks_isPunctAt (n : Nat) (s : String) :
    Peeks language input (isPunctAt n s)
      (decide ((input[n]?.map (·.lexeme)).getD .eof = .punct s)) := fun _ _ _ => rfl

/-- Whether a lexeme is a word. -/
def isSomeWord : Lexeme → Bool
  | .word _ => true
  | _ => false

theorem peeks_isAnyWordAt (n : Nat) :
    Peeks language input (isAnyWordAt n) (isSomeWord ((input[n]?.map (·.lexeme)).getD .eof)) := by
  refine Peeks.bind (a := (input[n]?.map (·.lexeme)).getD .eof) (fun _ _ _ => rfl) ?_
  cases (input[n]?.map (·.lexeme)).getD .eof <;> exact .pure _

/-- A dotted name is read to its end. -/
theorem reads_dottedRest {name whole : String} (h : Dotted language name ts whole)
    (hrest : front rest ≠ .punct ".") {n : Nat} (hn : ts.length ≤ n) :
    Reads language (dottedRest n name) ts rest whole := by
  induction h generalizing n with
  | nil name =>
    cases n with
    | zero => exact .pure name
    | succ n =>
      refine .peek (peeks_not_isPunct hrest) (.peek (peeks_isAnyWordAt 1) ?_)
      exact .pure name
  | @cons name whole w dot t ts hdot ht hw hts ih =>
    obtain ⟨n, rfl⟩ := Nat.exists_eq_add_of_le' (Nat.zero_lt_of_lt hn)
    refine .peek (peeks_isPunct hdot) (.peek (peeks_isAnyWordAt 1) ?_)
    have hword : isSomeWord t.lexeme = true := by rw [ht]; rfl
    refine .pos hword (.next (by rw [hdot]; simp) ?_)
    refine .first (reads_identifier ht hw) (ih ?_)
    rw [List.length_cons, List.length_cons] at hn
    omega

theorem reads_qualifiedName {w whole : String} (ht : t.lexeme = .word w)
    (hw : isReserved language w = false) (h : Dotted language w ts whole)
    (hrest : front rest ≠ .punct ".") : Reads language qualifiedName (t :: ts) rest whole := by
  refine .peek peeks_remaining (.first (reads_identifier ht hw) ?_)
  exact reads_dottedRest h hrest (by simp; omega)

/-- Pairs of brackets are read to their end. -/
theorem reads_arrayRest {element whole : TypeName} (h : Brackets language element ts whole)
    (hrest : ¬PairAhead language rest) {n : Nat} (hn : ts.length ≤ n) :
    Reads language (arrayRest n element) ts rest whole := by
  induction h generalizing n with
  | nil element =>
    cases n with
    | zero => exact .pure element
    | succ n =>
      refine .peek peeks_language (.peek (peeks_isPunctAt 0 _) (.peek (peeks_isPunctAt 1 _) ?_))
      refine .neg ?_ (.pure element)
      rw [Bool.and_eq_true, decide_eq_true_eq, decide_eq_true_eq]
      rwa [PairAhead, front, front, List.getElem?_tail] at hrest
  | @cons element whole opening closing ts hopening hclosing hts ih =>
    obtain ⟨n, rfl⟩ := Nat.exists_eq_add_of_le' (Nat.zero_lt_of_lt hn)
    refine .peek peeks_language (.peek (peeks_isPunct hopening) (.peek (peeks_isPunctAt 1 _) ?_))
    refine .pos (decide_eq_true hclosing) (.next (by rw [hopening]; simp) ?_)
    refine .next (by rw [hclosing]; simp) (ih ?_)
    rw [List.length_cons, List.length_cons] at hn
    omega

theorem reads_typeUse {type : TypeUse} {isOpen : Bool} (h : Written language ts type isOpen)
    (hpair : ¬PairAhead language rest) (hdot : isOpen → front rest ≠ .punct ".") :
    Reads language typeUse ts rest type := by
  cases h with
  | @keyword t w element whole brackets ht hw hbrackets =>
    refine .peek peeks_position (.peek (peeks_typeKeyword? ht) ?_)
    rw [hw]
    refine .next (by rw [ht]; simp) (.peek (.pure element) (.peek peeks_remaining ?_))
    exact (reads_arrayRest hbrackets hpair (by simp)).map
  | @named t w name whole ts brackets ht hw hts hbrackets =>
    refine .peek peeks_position (.peek (peeks_typeKeyword? ht) ?_)
    rw [meaning_eq_none_of_not_isReserved hw (by cases language <;> decide)]
    have hname : Reads language qualifiedName (t :: ts) (brackets ++ rest) name := by
      refine reads_qualifiedName ht hw hts ?_
      cases hbrackets with
      | nil => exact hdot rfl
      | cons hopening =>
        rw [List.cons_append, front_cons, hopening]
        cases language <;> simp [arrayBrackets]
    refine hname.functorMap.bind (.peek peeks_remaining ?_)
    exact (reads_arrayRest hbrackets hpair (by simp)).map

/-! ### Expressions -/

/-- What the parsers of expressions read with a depth, in proportion to the lexemes of the
grammar. -/
structure ExpressionReads (language : Language) (depth : Nat) : Prop where
  binary : ∀ {k b us vs rest first links}, Item language b us first →
    Links language (Item language) b vs links → (b → k ≤ comparisons) →
    (∀ l ∈ links, k ≤ rank language l.op) → Stops language k rest →
    k ≤ (levels language).length →
    16 * (us ++ vs).length + 4 + ((levels language).length - k) ≤ depth →
    ∃ e, Groups language first links e ∧
      Reads language (Parser.binary depth ((levels language).drop k)) (us ++ vs) rest e
  binaryRest : ∀ {k level b vs rest first lhs before links}, (levels language)[k]? = some level →
    Groups language first before lhs → (∀ l ∈ before, k ≤ rank language l.op) →
    Links language (Item language) b vs links → (∀ l ∈ links, k ≤ rank language l.op) →
    (∀ l ∈ links.head?, rank language l.op ≤ k) → Stops language k rest →
    16 * vs.length + 3 + ((levels language).length - k) ≤ depth →
    ∃ e, Groups language first (before ++ links) e ∧
      Reads language (Parser.binaryRest depth level ((levels language).drop (k + 1)) lhs) vs rest e
  unary : ∀ {ts rest e}, Signed language ts e → Ends rest → 16 * ts.length + 3 ≤ depth →
    Reads language (Parser.unary depth) ts rest e
  operand : ∀ {ts rest e}, Applied language ts e → Ends rest → 16 * ts.length + 2 ≤ depth →
    Reads language (Parser.operand depth) ts rest e
  postfixRest : ∀ {ts rest e whole}, Suffixes language e ts whole → Ends rest →
    16 * ts.length + 2 ≤ depth → Reads language (Parser.postfixRest depth e) ts rest whole
  arguments : ∀ {ts rest args}, Arguments language ts args → 16 * ts.length + 1 ≤ depth →
    Reads language (Parser.arguments depth) ts rest args
  argumentList : ∀ {ts rest args}, ArgumentList language ts args → front rest = .punct ")" →
    16 * ts.length + 13 ≤ depth → Reads language (Parser.argumentList depth) ts rest args
  primary : ∀ {ts rest e}, Primary language ts e → 16 * ts.length + 1 ≤ depth →
    Reads language (Parser.primary depth) ts rest e
  bare : ∀ {ts rest e}, Bare language rest ts e → 16 * ts.length + 1 ≤ depth →
    Reads language (Parser.primary depth) ts rest e

namespace ExpressionReads

variable {depth k : Nat} {e whole first lhs : Expr} {links : List Link} {c : Bool}

theorem zero : ExpressionReads language 0 where
  binary _ _ _ _ _ _ h := by omega
  binaryRest _ _ _ _ _ _ _ h := by omega
  unary _ _ h := by omega
  operand _ _ h := by omega
  postfixRest _ _ h := by omega
  arguments _ h := by omega
  argumentList _ _ h := by omega
  primary _ h := by omega
  bare _ h := by omega

/-- An expression of any level. -/
theorem whole_of (h : ExpressionReads language depth) (he : Whole language ts e)
    (hrest : Stops language 0 rest) (hdepth : 16 * ts.length + 12 ≤ depth) :
    Reads language (Parser.binary depth (levels language)) ts rest e := by
  obtain ⟨hfirst, hlinks, he⟩ := he
  have hlength := length_levels language
  obtain ⟨e', he', hreads⟩ := h.binary (k := 0) hfirst hlinks (fun _ => Nat.zero_le _)
    (fun _ _ => Nat.zero_le _) hrest (Nat.zero_le _) (by omega)
  rwa [he'.unique he] at hreads

theorem length_levels_pos (language : Language) : comparisons < (levels language).length := by
  cases language <;> decide

/-- The only level that `Not` may stand in front of is that of the comparisons of Visual Basic. -/
theorem negatable_iff {level : Level} (hlevel : (levels language)[k]? = some level) :
    level.negatable = true ↔ language = .visualBasic ∧ k = comparisons := by
  have hall : ∀ x ∈ (levels language).zipIdx,
      x.1.negatable = true ↔ language = .visualBasic ∧ x.2 = comparisons := by
    cases language <;> decide
  exact hall (level, k) (List.mk_mem_zipIdx_iff_getElem?.mpr hlevel)

/-- An operand with the tighter operators behind it, up to the next operator of the level. -/
theorem segment (h : ExpressionReads language depth) (hfirst : Item language c us first)
    (hlinks : Links language (Item language) c vs links) (hc : c → k < comparisons)
    (hranks : ∀ l ∈ links, k ≤ rank language l.op) (hrest : Stops language k rest)
    (hk : k < (levels language).length)
    (hdepth : 16 * (us ++ vs).length + 3 + ((levels language).length - k) ≤ depth) :
    ∃ d near far tight loose e, vs = near ++ far ∧ links = tight ++ loose ∧
      (∀ l ∈ tight, k < rank language l.op) ∧ Groups language first tight e ∧
      Reads language (Parser.binary depth ((levels language).drop (k + 1))) (us ++ near)
        (far ++ rest) e ∧
      Links language (Item language) d far loose ∧ ∀ l ∈ loose.head?, rank language l.op ≤ k := by
  obtain ⟨d, near, far, tight, loose, rfl, rfl, hnear, htight, hfar, hhead⟩ := hlinks.split k
  have hstops : Stops language (k + 1) (far ++ rest) := by
    cases hfar with
    | nil => exact hrest.mono (Nat.le_succ k)
    | cons ht => exact ht.stops (Nat.lt_succ_of_le (hhead _ rfl)) _
  obtain ⟨e, he, hreads⟩ := h.binary hfirst hnear hc htight hstops hk
    (by simp only [List.length_append] at hdepth ⊢; omega)
  exact ⟨d, near, far, tight, loose, e, rfl, rfl, htight, he, hreads, hfar, hhead⟩

/-- The operand that a level starts with, and the operators of the level. -/
theorem level (h : ExpressionReads language depth) {level : Level}
    (hlevel : (levels language)[k]? = some level) (hfirst : Item language c us first)
    (hlinks : Links language (Item language) c vs links) (hc : c → k < comparisons)
    (hranks : ∀ l ∈ links, k ≤ rank language l.op) (hrest : Stops language k rest)
    (hdepth : 16 * (us ++ vs).length + 3 + ((levels language).length - k) ≤ depth) :
    ∃ e, Groups language first links e ∧
      Reads language (Parser.binary depth ((levels language).drop (k + 1)) >>=
        Parser.binaryRest depth level ((levels language).drop (k + 1))) (us ++ vs) rest e := by
  have hk := (List.getElem?_eq_some_iff.mp hlevel).1
  obtain ⟨d, near, far, tight, loose, lhs, rfl, rfl, htight, hlhs, hreads, hfar, hhead⟩ :=
    h.segment hfirst hlinks hc hranks hrest hk hdepth
  obtain ⟨e, he, hreads'⟩ := h.binaryRest hlevel hlhs (fun l hl => (htight l hl).le) hfar
    (fun l hl => hranks l (List.mem_append_right _ hl)) hhead hrest
    (by simp only [List.length_append] at hdepth; omega)
  refine ⟨e, he, ?_⟩
  rw [← List.append_assoc]
  exact hreads.bind hreads'

theorem binary_succ (h : ExpressionReads language depth) (hfirst : Item language c us first)
    (hlinks : Links language (Item language) c vs links) (hc : c → k ≤ comparisons)
    (hranks : ∀ l ∈ links, k ≤ rank language l.op) (hrest : Stops language k rest)
    (hk : k ≤ (levels language).length)
    (hdepth : 16 * (us ++ vs).length + 4 + ((levels language).length - k) ≤ depth + 1) :
    ∃ e, Groups language first links e ∧
      Reads language (Parser.binary (depth + 1) ((levels language).drop k)) (us ++ vs) rest e := by
  rcases hk.eq_or_lt with rfl | hk
  · -- No operator is left, and `Not` stands in front of the comparisons only.
    have hlength := length_levels_pos language
    obtain rfl : links = [] := List.eq_nil_iff_forall_not_mem.mpr fun l hl =>
      (hlinks.rank_lt l hl).not_ge (hranks l hl)
    obtain rfl := hlinks.eq_nil rfl
    cases hfirst with
    | not => exact absurd (hc rfl) (by omega)
    | signed he =>
      rw [List.append_nil] at hdepth ⊢
      rw [List.drop_length, Parser.binary]
      exact ⟨first, .operand first, h.unary he hrest.ends (by omega)⟩
  have hlevel := List.getElem?_eq_getElem hk
  rw [List.drop_eq_getElem_cons hk]
  generalize (levels language)[k] = level at hlevel
  have hdrop : level :: (levels language).drop (k + 1) = (levels language).drop k := by
    obtain ⟨_, rfl⟩ := List.getElem?_eq_some_iff.mp hlevel
    exact List.getElem_cons_drop hk
  -- Unless `Not` is read on this level, its operators are.
  have hread (hc : c → k < comparisons) := h.level hlevel hfirst hlinks hc hranks hrest (by omega)
  rw [Parser.binary]
  cases hfirst with
  | signed he =>
    obtain ⟨e, hgroups, hread⟩ := hread (by simp)
    refine ⟨e, hgroups, .peek peeks_position ?_⟩
    by_cases hnot : level.negatable = true
    · obtain ⟨rfl, -⟩ := (negatable_iff hlevel).mp hnot
      refine .pos hnot (.peek (peeks_not_eatWord ?_) hread)
      rw [List.append_assoc]
      exact he.matchesWord_not _
    · exact .neg hnot hread
  | @not t w d us ws inner e links' hlanguage ht hw hinner hlinks' htight he =>
    by_cases hnot : level.negatable = true
    · obtain ⟨-, rfl⟩ := (negatable_iff hlevel).mp hnot
      obtain rfl : links = [] := by
        cases hlinks with
        | nil => rfl
        | cons _ hop => exact absurd (hop (.inl rfl)) (hranks _ List.mem_cons_self).not_gt
      obtain rfl := hlinks.eq_nil rfl
      rw [List.append_nil] at hdepth ⊢
      obtain ⟨e', he', hreads⟩ := h.binary hinner hlinks' (fun _ => le_rfl) htight hrest hk.le
        (by simp only [List.length_cons] at hdepth; omega)
      obtain rfl := he'.unique he
      refine ⟨_, .operand _, .peek peeks_position (.pos hnot ?_)⟩
      refine .first (reads_eatWord ht hw) ?_
      rw [hdrop]
      exact hreads.map
    · have hlt : k < comparisons := (hc rfl).lt_of_ne fun hk =>
        hnot ((negatable_iff hlevel).mpr ⟨hlanguage, hk⟩)
      obtain ⟨e, hgroups, hread⟩ := hread fun _ => hlt
      exact ⟨e, hgroups, .peek peeks_position (.neg hnot hread)⟩

theorem binaryRest_succ (h : ExpressionReads language depth) {level : Level} {before : List Link}
    (hlevel : (levels language)[k]? = some level) (hlhs : Groups language first before lhs)
    (hbefore : ∀ l ∈ before, k ≤ rank language l.op)
    (hlinks : Links language (Item language) c vs links)
    (hranks : ∀ l ∈ links, k ≤ rank language l.op)
    (hhead : ∀ l ∈ links.head?, rank language l.op ≤ k) (hrest : Stops language k rest)
    (hdepth : 16 * vs.length + 3 + ((levels language).length - k) ≤ depth + 1) :
    ∃ e, Groups language first (before ++ links) e ∧
      Reads language (Parser.binaryRest (depth + 1) level ((levels language).drop (k + 1)) lhs) vs
        rest e := by
  rw [Parser.binaryRest]
  cases hlinks with
  | nil =>
    refine ⟨lhs, by rwa [List.append_nil], .peek (peeks_operator? level) ?_⟩
    rw [List.nil_append, hrest.read? hlevel]
    exact .pure lhs
  | @cons _ d t op us vs operand links ht hop he hlinks =>
    have hrank : rank language op = k := (hhead _ rfl).antisymm (hranks _ List.mem_cons_self)
    have hk := (List.getElem?_eq_some_iff.mp hlevel).1
    rw [List.length_cons] at hdepth
    obtain ⟨b, near, far, tight, loose, rhs, rfl, rfl, htight, hrhs, hreads, hfar, hhead⟩ :=
      h.segment he hlinks (fun hd => hrank ▸ hop (.inr hd))
        (fun l hl => hranks l (List.mem_cons_of_mem _ hl)) hrest hk (by omega)
    -- What has been read so far is in front of the operator: it is not looser.
    have hgroups : Groups language first (before ++ ⟨t.start, op, operand⟩ :: tight)
        (.binary t.start op lhs rhs) :=
      @Groups.root _ _ _ _ _ _ ⟨t.start, op, operand⟩ (fun l hl => hrank ▸ hbefore l hl)
        (fun l hl => hrank ▸ htight l hl) hlhs hrhs
    have hranks' : ∀ l ∈ before ++ ⟨t.start, op, operand⟩ :: tight, k ≤ rank language l.op := by
      intro l hl
      rcases List.mem_append.mp hl with hl | hl
      · exact hbefore l hl
      · exact hranks l (List.mem_append_left loose hl)
    obtain ⟨e, he, hreads'⟩ := h.binaryRest hlevel hgroups hranks' hfar
      (fun l hl => hranks l (List.mem_cons_of_mem _ (List.mem_append_right _ hl))) hhead hrest
      (by simp only [List.length_append] at hdepth; omega)
    refine ⟨e, by rwa [List.append_assoc] at he, .peek (peeks_operator? level) ?_⟩
    rw [List.cons_append, front_cons, ht.read? hlevel, if_pos hrank, ← List.append_assoc]
    exact .next ht.ne_eof (hreads.bind hreads')

theorem unary_succ (h : ExpressionReads language depth) (he : Signed language ts e)
    (hrest : Ends rest) (hdepth : 16 * ts.length + 3 ≤ depth + 1) :
    Reads language (Parser.unary (depth + 1)) ts rest e := by
  rw [Parser.unary]
  refine .peek peeks_position ?_
  cases he with
  | applied he =>
    refine .peek (peeks_not_eatPunct ?_) (.peek (peeks_not_eatCSharpPunct fun _ => ?_) ?_)
    · exact he.front_ne (by decide) _
    · exact he.front_ne (by decide) _
    · exact h.operand he hrest (by omega)
  | @literal t i v ts _ ht hi hts =>
    refine .first (reads_eatPunct ht) (.peek (peeks_lexeme hi) ?_)
    refine .next (by rw [hi]; simp) (h.postfixRest hts hrest ?_)
    simp only [List.length_cons] at hdepth
    omega
  | @neg t ts e ht hts he =>
    rw [List.length_cons] at hdepth
    refine .first (reads_eatPunct ht) (.peek (peeks_lexeme rfl) ?_)
    have hne : ∀ v, front (ts ++ rest) ≠ .int v := by
      obtain ⟨u, us, rfl, -⟩ := he.start
      exact hts
    split
    · exact absurd ‹_› (hne _)
    · exact (h.unary he hrest (by omega)).map
  | @not t ts e hlanguage ht he =>
    rw [List.length_cons] at hdepth
    refine .peek (peeks_not_eatPunct (by rw [List.cons_append, front_cons, ht]; decide)) ?_
    refine .first (reads_eatCSharpPunct hlanguage ht) ?_
    exact (h.unary he hrest (by omega)).map

theorem operand_succ (h : ExpressionReads language depth) (he : Applied language ts e)
    (hrest : Ends rest) (hdepth : 16 * ts.length + 2 ≤ depth + 1) :
    Reads language (Parser.operand (depth + 1)) ts rest e := by
  rw [Parser.operand]
  cases he with
  | primary he hus =>
    obtain ⟨t, us, rfl, -⟩ := he.start
    simp only [List.length_append, List.length_cons] at hdepth
    refine (h.primary he ?_).bind (h.postfixRest hus hrest (by omega))
    rw [List.length_cons]
    omega
  | bare he hus =>
    obtain ⟨t, us, rfl, -⟩ := he.start
    simp only [List.length_append, List.length_cons] at hdepth
    refine (h.bare (he.append hus hrest) ?_).bind (h.postfixRest hus hrest (by omega))
    rw [List.length_cons]
    omega

theorem postfixRest_succ (h : ExpressionReads language depth) (hts : Suffixes language e ts whole)
    (hrest : Ends rest) (hdepth : 16 * ts.length + 2 ≤ depth + 1) :
    Reads language (Parser.postfixRest (depth + 1) e) ts rest whole := by
  rw [Parser.postfixRest]
  refine .peek peeks_position ?_
  cases hts with
  | nil =>
    refine .peek (peeks_not_eatPunct (hrest _ (by decide))) ?_
    refine .peek (peeks_not_isPunct (hrest _ (by decide))) ?_
    exact .peek (peeks_not_eatCSharpPunct fun _ => hrest _ (by decide)) (.pure e)
  | @member _ _ dot t w ts hdot ht hw hts =>
    simp only [List.length_cons] at hdepth
    refine .first (reads_eatPunct hdot) ?_
    exact .first (reads_memberName ht hw) (h.postfixRest hts hrest (by omega))
  | @call _ _ us ts args hargs hts =>
    obtain ⟨opening, u, us', rfl, hopening⟩ := hargs.start
    simp only [List.length_append, List.length_cons] at hdepth
    have hfront : front (opening :: u :: us' ++ ts ++ rest) = .punct "(" := hopening
    refine .peek (peeks_not_eatPunct ?_) (.peek (peeks_isPunct hfront) ?_)
    · rw [hfront]
      decide
    · refine (h.arguments hargs ?_).bind (h.postfixRest hts hrest (by omega))
      simp only [List.length_cons]
      omega
  | @element _ index _ opening closing us ts hlanguage hopening hindex hclosing hts =>
    simp only [List.length_cons, List.length_append] at hdepth
    refine .peek (peeks_not_eatPunct ?_) (.peek (peeks_not_isPunct ?_) ?_)
    · rw [List.cons_append, front_cons, hopening]
      decide
    · rw [List.cons_append, front_cons, hopening]
      decide
    refine .first (reads_eatCSharpPunct hlanguage hopening) (.peek peeks_language ?_)
    refine .bind (h.whole_of hindex (stops_of_punct hclosing (by decide) 0 _) (by omega)) ?_
    refine .first (reads_expectPunct hclosing) ?_
    exact h.postfixRest hts hrest (by omega)

theorem arguments_succ (h : ExpressionReads language depth) {args : List Expr}
    (hargs : Arguments language ts args) (hdepth : 16 * ts.length + 1 ≤ depth + 1) :
    Reads language (Parser.arguments (depth + 1)) ts rest args := by
  rw [Parser.arguments]
  cases hargs with
  | @none opening closing hopening hclosing =>
    refine .first (reads_expectPunct hopening) ?_
    refine .peek (peeks_isPunct hclosing) (.peek (.pure []) ?_)
    exact (reads_expectPunct hclosing).map
  | @some opening closing ts args hopening hargs hclosing =>
    simp only [List.length_cons, List.length_append] at hdepth
    refine .first (reads_expectPunct hopening) ?_
    refine .peek (peeks_not_isPunct ?_) ?_
    · obtain ⟨t, us, rfl, ht⟩ := hargs.start
      exact ht
    · refine .bind (h.argumentList hargs ?_ (by omega)) (reads_expectPunct hclosing).map
      exact hclosing

theorem argumentList_succ (h : ExpressionReads language depth) {args : List Expr}
    (hargs : ArgumentList language ts args) (hrest : front rest = .punct ")")
    (hdepth : 16 * ts.length + 13 ≤ depth + 1) :
    Reads language (Parser.argumentList (depth + 1)) ts rest args := by
  rw [Parser.argumentList]
  refine .peek peeks_language ?_
  cases hargs with
  | @last _ e he =>
    have hstops : Stops language 0 rest := by
      cases rest with
      | nil => cases hrest
      | cons t rest => exact stops_of_punct hrest (by decide) 0 _
    refine .all (h.whole_of he hstops (by omega)) (.peek (peeks_not_eatPunct ?_) (.pure [e]))
    rw [List.nil_append, hrest]
    decide
  | @cons us vs comma e args he hcomma hargs =>
    simp only [List.length_cons, List.length_append] at hdepth
    refine .bind (h.whole_of he (stops_of_punct hcomma (by decide) 0 _) (by omega)) ?_
    refine .first (reads_eatPunct hcomma) ?_
    exact (h.argumentList hargs hrest (by omega)).map

/-- What creates an object is neither a constant nor a type. -/
theorem meaning_new {w : String} (hw : language.sameName w "new") :
    meaning language (constants language) w = none ∧
      meaning language (typeKeywords language) w = none :=
  ⟨meaning_eq_none hw (by cases language <;> decide +kernel),
    meaning_eq_none hw (by cases language <;> decide +kernel)⟩

/-- An object is read with its type and its arguments, which Visual Basic may leave out. -/
theorem primary_new {w : String} {type : TypeUse} {isOpen : Bool} {args : List Expr}
    (ht : t.lexeme = .word w) (hw : language.sameName w "new")
    (htype : Written language ts type isOpen) (hpair : ¬PairAhead language (us ++ rest))
    (hdot : isOpen → front (us ++ rest) ≠ .punct ".")
    (hargs : front (us ++ rest) = .punct "(" ∧ Reads language (Parser.arguments depth) us rest args ∨
      language = .visualBasic ∧ front (us ++ rest) ≠ .punct "(" ∧ us = [] ∧ args = []) :
    Reads language (Parser.primary (depth + 1)) (t :: (ts ++ us)) rest
      (.new t.start type args) := by
  obtain ⟨hconstant, hkeyword⟩ := meaning_new hw
  rw [Parser.primary]
  refine .peek peeks_position (.peek peeks_language (.peek (peeks_lexeme ht) ?_))
  refine .peek (peeks_constant? ht) ?_
  rw [hconstant]
  refine .peek (peeks_typeKeyword? ht) ?_
  rw [hkeyword]
  refine .first (reads_eatWord ht hw) (.bind (reads_typeUse htype hpair hdot) ?_)
  rcases hargs with ⟨hopening, hargs⟩ | ⟨rfl, hopening, rfl, rfl⟩
  · exact .peek (peeks_isPunct hopening) (.pos (Bool.or_true _) hargs.map)
  · exact .peek (peeks_not_isPunct hopening) (.neg (by simp) (.peek (.pure []) (.pure _)))

theorem primary_succ (h : ExpressionReads language depth) (he : Primary language ts e)
    (hdepth : 16 * ts.length + 1 ≤ depth + 1) :
    Reads language (Parser.primary (depth + 1)) ts rest e := by
  cases he with
  | int ht =>
    rw [Parser.primary]
    refine .peek peeks_position (.peek peeks_language (.peek (peeks_lexeme ht) ?_))
    exact reads_literal ht
  | str ht =>
    rw [Parser.primary]
    refine .peek peeks_position (.peek peeks_language (.peek (peeks_lexeme ht) ?_))
    exact .next (by rw [ht]; simp) (.pure _)
  | constant ht hw =>
    rw [Parser.primary]
    refine .peek peeks_position (.peek peeks_language (.peek (peeks_lexeme ht) ?_))
    refine .peek (peeks_constant? ht) ?_
    rw [hw]
    exact .next (by rw [ht]; simp) (.pure _)
  | name ht hw =>
    rw [Parser.primary]
    refine .peek peeks_position (.peek peeks_language (.peek (peeks_lexeme ht) ?_))
    refine .peek (peeks_constant? ht) ?_
    rw [meaning_eq_none_of_not_isReserved hw (by cases language <;> decide)]
    refine .peek (peeks_typeKeyword? ht) ?_
    rw [meaning_eq_none_of_not_isReserved hw (by cases language <;> decide)]
    have hnew : language.sameName "new" _ = false :=
      not_isReserved_iff.mp hw "new" (by cases language <;> decide)
    refine .peek (peeks_not_eatWord ?_) ?_
    · rw [List.singleton_append, front_cons, ht, matchesWord, Language.sameName_comm, hnew]
    · refine .neg Bool.false_ne_true (.neg (ne_true_of_eq_false hw) ?_)
      exact .next (by rw [ht]; simp) (.pure _)
  | @parentheses opening closing ts e hopening he hclosing =>
    simp only [List.length_cons, List.length_append] at hdepth
    rw [Parser.primary]
    refine .peek peeks_position (.peek peeks_language (.peek (peeks_lexeme hopening) ?_))
    refine .next (by rw [hopening]; simp) ?_
    refine .bind (h.whole_of he (stops_of_punct hclosing (by decide) 0 _) (by omega)) ?_
    exact (reads_expectPunct hclosing).map
  | @new t w ts us type isOpen args ht hw htype hargs hus =>
    simp only [List.length_cons, List.length_append] at hdepth
    have hread : Reads language (Parser.arguments depth) us rest args := h.arguments hargs (by omega)
    obtain ⟨opening, u, us, rfl, hopening⟩ := hargs.start
    have hfront : front (opening :: u :: us ++ rest) = .punct "(" := hopening
    refine primary_new ht hw htype hus (fun _ => ?_) (.inl ⟨hfront, hread⟩)
    rw [hfront]
    decide

theorem bare_succ (he : Bare language rest ts e) :
    Reads language (Parser.primary (depth + 1)) ts rest e := by
  cases he with
  | @type t w element type brackets ht hw helement hbrackets hbehind =>
    rw [Parser.primary]
    refine .peek peeks_position (.peek peeks_language (.peek (peeks_lexeme ht) ?_))
    refine .peek (peeks_constant? ht) ?_
    rw [meaning_constants_of_typeKeywords hw]
    refine .peek (peeks_typeKeyword? ht) ?_
    rw [hw]
    have hwritten : Written language (t :: brackets) ⟨type, t.start⟩ false :=
      .keyword ht hw hbrackets
    exact .pos helement (reads_typeUse hwritten hbehind (by simp)).map
  | @new t w ts type isOpen hlanguage ht hw htype hbehind hdot =>
    have hpair : ¬PairAhead language rest := fun hahead =>
      hbehind (by rw [hahead.1, hlanguage]; rfl)
    have hread : Reads language (Parser.primary (depth + 1)) (t :: (ts ++ [])) rest
        (.new t.start type []) :=
      primary_new ht hw htype hpair hdot (.inr ⟨hlanguage, hbehind, rfl, rfl⟩)
    rwa [List.append_nil] at hread

theorem succ (h : ExpressionReads language depth) : ExpressionReads language (depth + 1) where
  binary := h.binary_succ
  binaryRest := h.binaryRest_succ
  unary := h.unary_succ
  operand := h.operand_succ
  postfixRest := h.postfixRest_succ
  arguments := h.arguments_succ
  argumentList := h.argumentList_succ
  primary := h.primary_succ
  bare he _ := bare_succ he

end ExpressionReads

theorem expressionReads (language : Language) (depth : Nat) : ExpressionReads language depth := by
  induction depth with
  | zero => exact .zero
  | succ depth ih => exact ih.succ

/-- **Binary operators group as the levels say.** A chain of any length in front of a lexeme that
cannot go on an expression is read to its end, and the expression returned is the one tree that the
chain stands for: its root is the last operator of the loosest level, and both sides are grouped by
the same rule. -/
theorem expression_groups {c : Bool} {first : Expr} {links : List Link}
    (hfirst : Item language c us first) (hlinks : Links language (Item language) c vs links)
    (hrest : Stops language 0 rest) :
    ∃ e, Groups language first links e ∧ (∀ e', Groups language first links e' → e' = e) ∧
      Reads language expression (us ++ vs) rest e := by
  have hlength := length_levels language
  obtain ⟨e, he, hread⟩ := (expressionReads language (16 * (us ++ vs ++ rest).length + 16)).binary
    (k := 0) hfirst hlinks (fun _ => Nat.zero_le _) (fun _ _ => Nat.zero_le _) hrest
    (Nat.zero_le _) (by simp only [List.length_append]; omega)
  exact ⟨e, he, fun e' he' => he'.unique he,
    .peek (peeks_remaining.bind (.pure _)) (.peek peeks_language hread)⟩

/-- Differences group to the left, around a product. -/
theorem expression_groups_differences :
    Reads .csharp expression
      [⟨.word "a", {}, {}⟩, ⟨.punct "-", {}, {}⟩, ⟨.word "b", {}, {}⟩, ⟨.punct "*", {}, {}⟩,
        ⟨.word "c", {}, {}⟩, ⟨.punct "-", {}, {}⟩, ⟨.word "d", {}, {}⟩]
      [⟨.punct ";", {}, {}⟩]
      (.binary {} .sub
        (.binary {} .sub (.name {} "a") (.binary {} .mul (.name {} "b") (.name {} "c")))
        (.name {} "d")) := by
  have hname (w : String) (hw : isReserved .csharp w = false) :
      Item .csharp false [⟨.word w, {}, {}⟩] (.name {} w) :=
    .signed (.applied (.primary (.name rfl hw) (.nil _)))
  have hlink (p w : String) (op : BinaryOp) {vs : List Located} {links : List Link}
      (hp : (.punct p, op) ∈ spellings .csharp) (hw : isReserved .csharp w = false)
      (hlinks : Links .csharp (Item .csharp) false vs links) :
      Links .csharp (Item .csharp) false (⟨.punct p, {}, {}⟩ :: ([⟨.word w, {}, {}⟩] ++ vs))
        (⟨{}, op, .name {} w⟩ :: links) :=
    .cons (t := ⟨.punct p, {}, {}⟩) ⟨.punct p, hp, beq_self_eq_true p⟩ (by simp) (hname w hw) hlinks
  have hlinks := hlink "-" "b" .sub (by decide) (by decide)
    (hlink "*" "c" .mul (by decide) (by decide)
      (hlink "-" "d" .sub (by decide) (by decide) (.nil false)))
  obtain ⟨e, -, hunique, hread⟩ := expression_groups (hname "a" (by decide)) hlinks
    (stops_of_punct (t := ⟨.punct ";", {}, {}⟩) rfl (by decide) 0 [])
  have hproduct : Groups .csharp (.name {} "b") [⟨{}, .mul, .name {} "c"⟩]
      (.binary {} .mul (.name {} "b") (.name {} "c")) :=
    @Groups.root _ _ _ _ [] _ ⟨{}, .mul, .name {} "c"⟩ nofun nofun (.operand _) (.operand _)
  have hleft : Groups .csharp (.name {} "a")
      [⟨{}, .sub, .name {} "b"⟩, ⟨{}, .mul, .name {} "c"⟩]
      (.binary {} .sub (.name {} "a") (.binary {} .mul (.name {} "b") (.name {} "c"))) :=
    @Groups.root _ _ _ _ [] _ ⟨{}, .sub, .name {} "b"⟩ nofun (by decide) (.operand _) hproduct
  have hwhole := @Groups.root _ _ _ _ _ _ ⟨{}, .sub, .name {} "d"⟩ (by decide) (by simp) hleft (.operand _)
  rwa [hunique _ hwhole]

end CilScope.Source.Parser
