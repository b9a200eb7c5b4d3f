import CilScope.Proofs.Source.Lockstep.Semicolon

/-!
# Calls as statements

Before a statement without a keyword is read as an expression, a look ahead decides whether it declares a
local variable: it does if it starts with a predefined type, or with a type name and an identifier behind
it. Where the parser of expressions reads up to a semicolon, no identifier is behind such a name: the
parser would have read the name as the members that it looks like, and stopped at the identifier. So it is
the predefined types that keep a call from being a statement, and nothing else (`statement_of_expression`).
-/

namespace CilScope.Source.CSharp

open CilScope.Source.Parser

variable {c c' d : Cursor} {e e' : Expr} {depth r k n : Nat} {w : String}

theorem run_position (c : Cursor) : position.run.run c = (.ok c.start, c) := rfl

/-! ### In front of a word -/

/-- No operator stands in front of an operand of any level, and none is a word. -/
theorem infix_levels {level : Level} (h : level ∈ levels .csharp) :
    level.negatable = false ∧ ∀ w, level.read? .csharp (.word w) = none := by
  simp only [levels, List.mem_cons, List.not_mem_nil, or_false] at h
  rcases h with rfl | rfl | rfl | rfl | rfl | rfl <;> exact ⟨rfl, fun _ => rfl⟩

theorem eq_of_run_binaryRest {level : Level} {tighter : List Level} (hlevel : level ∈ levels .csharp)
    (hc : c.log.language = .csharp) (hnext : isAnyWord c.next)
    (hrun : (binaryRest depth level tighter e).run.run c = (.ok e', c')) : c' = c := by
  cases depth with
  | zero =>
    rw [binaryRest] at hrun
    cases hrun
  | succ depth =>
    cases hword : c.next with
    | word w =>
      rw [binaryRest, run_bind_of_ok (tells_operator? level c hc), hword,
        (infix_levels hlevel).2 w] at hrun
      cases hrun
      rfl
    | _ =>
      rw [hword] at hnext
      cases hnext

theorem eq_of_run_postfixRest (hc : c.log.language = .csharp) (hnext : isAnyWord c.next)
    (hrun : (postfixRest depth e).run.run c = (.ok e', c')) : c' = c := by
  have hno : ∀ s, c.next ≠ .punct s := by
    intro s hs
    rw [hs] at hnext
    cases hnext
  cases depth with
  | zero =>
    rw [postfixRest] at hrun
    cases hrun
  | succ depth =>
    rw [postfixRest, run_bind_of_ok (run_position c),
      run_bind_of_ok ((takes_eatPunct ".").no c hc (decide_eq_false (hno _))),
      if_neg Bool.false_ne_true, run_bind_of_ok (run_isPunct "(" c), decide_eq_false (hno _),
      if_neg Bool.false_ne_true,
      run_bind_of_ok ((takes_eatCSharpPunct "[").no c hc (decide_eq_false (hno _)))] at hrun
    cases hrun
    rfl

/-- An expression starts with an operand, and ends with it in front of a word. -/
theorem exists_run_unary {ls : List Level} (hls : ∀ l ∈ ls, l ∈ levels .csharp) (hlength : ls.length ≤ 8)
    (hc : c.Ready r) (hrun : (binary depth ls).run.run c = (.ok e, c')) :
    ∃ m e₁ c₁, (unary m).run.run c = (.ok e₁, c₁) ∧ (isAnyWord c₁.next → c' = c₁) := by
  induction depth generalizing ls e c' with
  | zero =>
    rw [binary] at hrun
    cases hrun
  | succ depth ih =>
    cases ls with
    | nil =>
      rw [binary] at hrun
      exact ⟨depth, e, c', hrun, fun _ => rfl⟩
    | cons level tighter =>
      obtain ⟨hlevel, htighter⟩ := List.forall_mem_cons.1 hls
      have hplain : ∀ l ∈ tighter, Level.Plain l := fun l hl => plain_levels l (htighter l hl)
      rw [List.length_cons] at hlength
      rw [binary, run_bind_of_ok (run_position c), (infix_levels hlevel).1,
        if_neg Bool.false_ne_true] at hrun
      obtain ⟨lhs, c₂, hlhs, hrest⟩ := exists_of_run_bind hrun
      obtain ⟨m, e₁, c₁, hunary, hword⟩ := ih htighter (by omega) hlhs
      refine ⟨m, e₁, c₁, hunary, fun hnext => ?_⟩
      obtain rfl := hword hnext
      have hsteps := expressionSteps (.none []) depth (16 * r + 4 + tighter.length)
      have hc₂ := hc.onward ((hsteps.binary le_rfl (by omega) hplain).reads hc hlhs)
      exact eq_of_run_binaryRest hlevel hc₂.language hnext hrest

/-! ### What an expression starts with -/

/-- An operand with a sign in front of it starts with the sign, another one with a primary expression. -/
theorem run_unary_cases (hc : c.log.language = .csharp)
    (hrun : (unary depth).run.run c = (.ok e, c')) :
    c.next = .punct "-" ∨ c.next = .punct "!" ∨ ∃ m e₁ c₁,
      (primary m).run.run c = (.ok e₁, c₁) ∧ (postfixRest m e₁).run.run c₁ = (.ok e, c') := by
  cases depth with
  | zero =>
    rw [unary] at hrun
    cases hrun
  | succ depth =>
    by_cases hminus : c.next = .punct "-"
    · exact .inl hminus
    by_cases hnot : c.next = .punct "!"
    · exact .inr (.inl hnot)
    rw [unary, run_bind_of_ok (run_position c),
      run_bind_of_ok ((takes_eatPunct "-").no c hc (decide_eq_false hminus)), if_neg Bool.false_ne_true,
      run_bind_of_ok ((takes_eatCSharpPunct "!").no c hc (decide_eq_false hnot)),
      if_neg Bool.false_ne_true] at hrun
    cases depth with
    | zero =>
      rw [operand] at hrun
      cases hrun
    | succ depth =>
      rw [operand] at hrun
      obtain ⟨e₁, c₁, hprimary, hrest⟩ := exists_of_run_bind hrun
      exact .inr (.inr ⟨depth, e₁, c₁, hprimary, hrest⟩)

/-- What is read at a word that is no constant. -/
def named (depth : Nat) (pos : Position) (w : String) : Parser Expr := do
  if ← eatWord "new" then
    let type ← typeUse
    return .new pos type (← arguments depth)
  if isReserved .csharp w then fail pos (.invalidExpressionTerm w)
  let _ ← advance
  return .name pos w

theorem run_primary_word (hc : c.log.language = .csharp) (hnext : c.next = .word w)
    (hconstant : constantOf? c.next = none) (htype : ∀ type ∈ keywordType? c.next, type = .void) :
    (primary (depth + 1)).run.run c = (named depth c.start w).run.run c := by
  rw [primary, run_bind_of_ok (run_position c), run_bind_of_ok (run_language hc), lexeme,
    run_bind_of_ok (run_lexeme c), hnext]
  dsimp only
  rw [run_bind_of_ok (tells_constant? c hc), hconstant]
  dsimp only
  rw [run_bind_of_ok (tells_typeKeyword? c hc)]
  cases hkeyword : keywordType? c.next with
  | none => rfl
  | some type =>
    rw [htype type hkeyword]
    rfl

theorem exists_word_of_keywordType? {t : Lexeme} {type : TypeName} (h : keywordType? t = some type) :
    ∃ w, t = .word w ∧ w ∈ ["void", "int", "bool", "string", "object"] := by
  cases t with
  | word w =>
    obtain ⟨x, hx, hw⟩ := exists_of_meaning h
    have hall : ∀ x ∈ typeKeywords .csharp, x.1 ∈ ["void", "int", "bool", "string", "object"] := by
      decide
    exact ⟨w, rfl, eq_of_beq hw ▸ hall x hx⟩
  | _ => cases h

theorem constantOf?_of_keywordType? {t : Lexeme} {type : TypeName} (h : keywordType? t = some type) :
    constantOf? t = none := by
  cases t with
  | word w => exact meaning_constants_of_typeKeywords h
  | _ => rfl

theorem run_primary_type {type : TypeName} (hc : c.log.language = .csharp)
    (hkeyword : keywordType? c.next = some type) (htype : type ≠ .void) :
    (primary (depth + 1)).run.run c =
      (do return Expr.typeKeyword c.start (← typeUse).name : Parser Expr).run.run c := by
  obtain ⟨w, hnext, -⟩ := exists_word_of_keywordType? hkeyword
  rw [primary, run_bind_of_ok (run_position c), run_bind_of_ok (run_language hc), lexeme,
    run_bind_of_ok (run_lexeme c), hnext]
  dsimp only
  rw [run_bind_of_ok (tells_constant? c hc), constantOf?_of_keywordType? hkeyword]
  dsimp only
  rw [run_bind_of_ok (tells_typeKeyword? c hc), hkeyword]
  dsimp only
  rw [if_pos htype]

theorem run_eatWord_new_no (hc : c.log.language = .csharp) (hnext : c.next = .word w) (hw : w ≠ "new") :
    (eatWord "new").run.run c = (.ok false, c) :=
  (takes_eatWord "new").no c hc (by rw [hnext]; exact beq_false_of_ne hw)

theorem run_named_identifier {pos : Position} (hc : c.log.language = .csharp) (hnext : c.next = .word w)
    (hw : isReserved .csharp w = false) : (named depth pos w).run.run c = (.ok (.name pos w), c.skip) := by
  have hnew : w ≠ "new" := by
    rintro rfl
    exact absurd hw (by decide)
  obtain ⟨t, ht⟩ := run_advance_skip (c := c) (hnext ▸ by simp)
  rw [named, run_bind_of_ok (run_eatWord_new_no hc hnext hnew), if_neg Bool.false_ne_true, hw,
    if_neg Bool.false_ne_true, run_bind_of_ok ht]
  rfl

theorem not_run_named {pos : Position} (hc : c.log.language = .csharp) (hnext : c.next = .word w)
    (hnew : w ≠ "new") (hw : isReserved .csharp w) : (named depth pos w).run.run c ≠ (.ok e, c') := by
  rw [named, run_bind_of_ok (run_eatWord_new_no hc hnext hnew), if_neg Bool.false_ne_true, if_pos hw]
  exact nofun

/-- Whether an expression may start with this lexeme. -/
def opens : Lexeme → Bool
  | .int _ | .str _ => true
  | .punct p => p ∈ ["-", "!", "("]
  | .word w => (constantOf? (.word w)).isSome || (keywordType? (.word w)).isSome || w = "new" ||
      !isReserved .csharp w
  | _ => false

theorem opens_of_run_primary (hc : c.log.language = .csharp)
    (hrun : (primary depth).run.run c = (.ok e, c')) : opens c.next := by
  cases depth with
  | zero =>
    rw [primary] at hrun
    cases hrun
  | succ depth =>
    by_cases hword : ∃ w, c.next = .word w
    · obtain ⟨w, hnext⟩ := hword
      by_contra hopens
      rw [hnext, opens, Bool.not_eq_true, Bool.or_eq_false_iff, Bool.or_eq_false_iff,
        Bool.or_eq_false_iff, Option.isSome_eq_false_iff, Option.isSome_eq_false_iff,
        Option.isNone_iff_eq_none, Option.isNone_iff_eq_none, decide_eq_false_iff_not,
        Bool.not_eq_false'] at hopens
      obtain ⟨⟨⟨hconstant, htype⟩, hnew⟩, hreserved⟩ := hopens
      rw [run_primary_word hc hnext (hnext ▸ hconstant) (by simp [hnext, htype])] at hrun
      exact not_run_named hc hnext hnew hreserved hrun
    · rw [primary, run_bind_of_ok (run_position c), run_bind_of_ok (run_language hc), lexeme,
        run_bind_of_ok (run_lexeme c)] at hrun
      split at hrun
      · next hnext => exact hnext ▸ rfl
      · next hnext => exact hnext ▸ rfl
      · next hnext => exact hnext ▸ rfl
      · next w hnext => exact absurd ⟨w, hnext⟩ hword
      · rw [run_bind_of_ok (tells_describe c hc)] at hrun
        cases hrun

theorem opens_of_run_binary {ls : List Level} (hls : ∀ l ∈ ls, l ∈ levels .csharp)
    (hlength : ls.length ≤ 8) (hc : c.Ready r) (hrun : (binary depth ls).run.run c = (.ok e, c')) :
    opens c.next := by
  obtain ⟨m, e₁, c₁, hunary, -⟩ := exists_run_unary hls hlength hc hrun
  rcases run_unary_cases hc.language hunary with hnext | hnext | ⟨m, e₂, c₂, hprimary, -⟩
  · rw [hnext]
    decide
  · rw [hnext]
    decide
  · exact opens_of_run_primary hc.language hprimary

/-- No statement with a keyword starts the way an expression does. -/
theorem isPlain_of_opens {t : Lexeme} (h : opens t) : isPlain t := by
  by_contra hplain
  cases t with
  | word w =>
    have hall : ∀ w ∈ ["if", "while", "do", "for", "break", "continue", "return", "throw", "try"],
        opens (.word w) = false := by decide +kernel
    have hw : w ∈ ["if", "while", "do", "for", "break", "continue", "return", "throw", "try"] :=
      by_contra fun hw => hplain (decide_eq_true hw)
    rw [hall w hw] at h
    cases h
  | punct p =>
    have hp : p ∈ ["\x7b", ";"] := by_contra fun hp => hplain (decide_eq_true hp)
    have hall : ∀ p ∈ ["\x7b", ";"], opens (.punct p) = false := by decide
    rw [hall p hp] at h
    cases h
  | _ => exact hplain rfl

/-! ### Names with members -/

theorem rest_skip (c : Cursor) : c.skip.rest = c.rest.tail := by
  unfold Cursor.skip
  split <;> simp [*]

theorem next_of_rest_drop (hrest : d.rest = c.rest.drop k) : d.next = c.ahead k := by
  rw [Cursor.next, hrest, List.getElem?_drop, Nat.add_zero, Cursor.ahead]

theorem rest_skip_of_rest_drop (hrest : d.rest = c.rest.drop k) : d.skip.rest = c.rest.drop (k + 1) := by
  rw [rest_skip, hrest, List.tail_drop]

theorem isAnyWord_of_isIdentifier {t : Lexeme} (h : isIdentifier t) : isAnyWord t := by
  cases t with
  | word w => rfl
  | _ => cases h

/-- A name that is read is a word that is not reserved. -/
theorem run_identifier_cases (hc : c.log.language = .csharp)
    (hrun : identifier.run.run c = (.ok w, c')) : c.next = .word w ∧ c' = c.skip := by
  rw [identifier, lexeme, run_bind_of_ok (run_lexeme c)] at hrun
  cases hnext : c.next with
  | word v =>
    obtain ⟨t, ht⟩ := run_advance_skip (c := c) (hnext ▸ by simp)
    rw [hnext] at hrun
    dsimp only at hrun
    rw [run_bind_of_ok (run_language hc)] at hrun
    split at hrun
    · cases hrun
    · rw [run_bind_of_ok ht] at hrun
      cases hrun
      exact ⟨rfl, rfl⟩
  | _ =>
    rw [hnext] at hrun
    cases hrun

theorem run_memberName_cases (hc : c.log.language = .csharp)
    (hrun : memberName.run.run c = (.ok w, c')) : c.next = .word w ∧ c' = c.skip := by
  rw [memberName, run_bind_of_ok (run_language hc)] at hrun
  exact run_identifier_cases hc hrun

theorem exists_run_member (hc : c.log.language = .csharp) (hnext : c.next = .punct ".")
    (hrun : (postfixRest depth e).run.run c = (.ok e', c')) :
    ∃ m e₁, (postfixRest m e₁).run.run c.skip.skip = (.ok e', c') := by
  cases depth with
  | zero =>
    rw [postfixRest] at hrun
    cases hrun
  | succ depth =>
    rw [postfixRest, run_bind_of_ok (run_position c),
      run_bind_of_ok ((takes_eatPunct ".").yes c hc (decide_eq_true hnext)), if_pos rfl] at hrun
    obtain ⟨name, c₁, hname, hrun⟩ := exists_of_run_bind hrun
    obtain ⟨-, rfl⟩ := run_memberName_cases (c.log_skip.symm ▸ hc) hname
    exact ⟨depth, _, hrun⟩

/-- Behind an opening bracket an expression starts. -/
theorem opens_of_run_index (hc : c.Ready r) (hnext : c.next = .punct "[")
    (hrun : (postfixRest depth e).run.run c = (.ok e', c')) : opens c.skip.next := by
  cases depth with
  | zero =>
    rw [postfixRest] at hrun
    cases hrun
  | succ depth =>
    have hskip := hc.skip (hnext ▸ by simp)
    have hno : ∀ s, s ≠ "[" → c.next ≠ .punct s := fun s hs h =>
      hs (Lexeme.punct.inj (h.symm.trans hnext))
    rw [postfixRest, run_bind_of_ok (run_position c),
      run_bind_of_ok ((takes_eatPunct ".").no c hc.language (decide_eq_false (hno _ (by decide)))),
      if_neg Bool.false_ne_true, run_bind_of_ok (run_isPunct "(" c),
      decide_eq_false (hno _ (by decide)), if_neg Bool.false_ne_true,
      run_bind_of_ok ((takes_eatCSharpPunct "[").yes c hc.language (decide_eq_true hnext)), if_pos rfl,
      run_bind_of_ok (run_language hskip.language)] at hrun
    obtain ⟨index, c₁, hindex, -⟩ := exists_of_run_bind hrun
    exact opens_of_run_binary (fun _ hl => hl) (length_levels .csharp) hskip hindex

/-- What a type name seems to go on with is read behind an operand, so the operand ends in front of an
identifier behind the name. -/
theorem isAnyWord_of_typeNameEnd {steps : Nat} (hd : d.Ready r) (hrest : d.rest = c.rest.drop k)
    (hend : (typeNameEnd steps k).run.run c = (.ok n, c)) (hident : isIdentifier (c.ahead n))
    (hrun : (postfixRest depth e).run.run d = (.ok e', c')) : isAnyWord c'.next := by
  induction steps generalizing k d e depth r with
  | zero =>
    cases hend
    have hword : isAnyWord d.next := next_of_rest_drop hrest ▸ isAnyWord_of_isIdentifier hident
    exact eq_of_run_postfixRest hd.language hword hrun ▸ hword
  | succ steps ih =>
    have hnext := next_of_rest_drop hrest
    rw [run_typeNameEnd_succ] at hend
    split at hend
    · next hgoes =>
      have hskip := rest_skip_of_rest_drop hrest
      rw [goesOn, Bool.or_eq_true, Bool.and_eq_true, Bool.and_eq_true, decide_eq_true_eq,
        decide_eq_true_eq, decide_eq_true_eq, ← hnext, ← next_of_rest_drop hskip] at hgoes
      obtain ⟨hdot, hmember⟩ | ⟨hopen, hclose⟩ := hgoes
      · obtain ⟨m, e₁, hrun⟩ := exists_run_member hd.language hdot hrun
        have hready := (hd.skip (hdot ▸ by simp)).skip fun heof => by
          rw [heof] at hmember
          cases hmember
        exact ih hready (rest_skip_of_rest_drop hskip) hend hrun
      · have hopens := opens_of_run_index hd hopen hrun
        rw [hclose] at hopens
        exact absurd hopens (by decide)
    · cases hend
      have hword : isAnyWord d.next := hnext ▸ isAnyWord_of_isIdentifier hident
      exact eq_of_run_postfixRest hd.language hword hrun ▸ hword

/-! ### Expressions up to a semicolon -/

theorem run_expression (hc : c.log.language = .csharp) :
    expression.run.run c = (binary (16 * c.rest.length + 16) (levels .csharp)).run.run c := by
  have hdepth : depthBound.run.run c = (.ok (16 * c.rest.length + 16), c) := rfl
  rw [expression, run_bind_of_ok hdepth, run_bind_of_ok (run_language hc)]

theorem opens_of_run_expression (hc : c.Ready r) (hrun : expression.run.run c = (.ok e, c')) :
    opens c.next := by
  rw [run_expression hc.language] at hrun
  exact opens_of_run_binary (fun _ hl => hl) (length_levels .csharp) hc hrun

/-- An expression up to a semicolon that starts with a word starts with an operand that ends elsewhere than
in front of a word. -/
theorem exists_run_operand (hc : c.Ready r) (hword : isAnyWord c.next)
    (hrun : expression.run.run c = (.ok e, c')) (hsemi : c'.next = .punct ";") :
    ∃ m e₁ c₁ e₂ c₂, (primary m).run.run c = (.ok e₁, c₁) ∧
      (postfixRest m e₁).run.run c₁ = (.ok e₂, c₂) ∧ ¬isAnyWord c₂.next := by
  rw [run_expression hc.language] at hrun
  obtain ⟨m, e₂, c₂, hunary, hend⟩ := exists_run_unary (fun _ hl => hl) (length_levels .csharp) hc hrun
  have hnot : ¬isAnyWord c₂.next := fun hnext => by
    rw [← hend hnext, hsemi] at hnext
    cases hnext
  rcases run_unary_cases hc.language hunary with hnext | hnext | ⟨m, e₁, c₁, hprimary, hrest⟩
  · rw [hnext] at hword
    cases hword
  · rw [hnext] at hword
    cases hword
  · exact ⟨m, e₁, c₁, e₂, c₂, hprimary, hrest, hnot⟩

theorem eq_skip_of_run_primary (hc : c.log.language = .csharp) (hident : isIdentifier c.next)
    (hrun : (primary depth).run.run c = (.ok e, c')) : c' = c.skip := by
  cases depth with
  | zero =>
    rw [primary] at hrun
    cases hrun
  | succ depth =>
    cases hnext : c.next with
    | word w =>
      have hw : isReserved .csharp w = false := by
        rw [hnext] at hident
        exact Bool.not_eq_true' _ ▸ hident
      have hconstant : constantOf? c.next = none := by
        rw [hnext]
        exact meaning_eq_none_of_not_isReserved hw (by decide)
      have htype : keywordType? c.next = none := by
        rw [hnext]
        exact meaning_eq_none_of_not_isReserved hw (by decide)
      rw [run_primary_word hc hnext hconstant (by simp [htype]), run_named_identifier hc hnext hw] at hrun
      cases hrun
      rfl
    | _ =>
      rw [hnext] at hident
      cases hident

/-- Where an expression is read up to a semicolon, no local variable is declared, unless a predefined type
is next. -/
theorem run_startsLocal_expression (hc : c.Ready r) (hkeyword : keywordType? c.next = none)
    (hrun : expression.run.run c = (.ok e, c')) (hsemi : c'.next = .punct ";") :
    startsLocal.run.run c = (.ok false, c) := by
  have hremaining : remaining.run.run c = (.ok c.rest.length, c) := rfl
  obtain ⟨n, hn⟩ := looks_typeNameEnd c.rest.length 1 c
  rw [startsLocal, run_bind_of_ok (tells_typeKeyword? c hc.language), hkeyword]
  dsimp only
  rw [run_bind_of_ok (tells_isIdentifier c hc.language)]
  cases hident : isIdentifier c.next with
  | false => rfl
  | true =>
    have hnot : isIdentifier (c.ahead n) = false := by
      by_contra hahead
      have hword := isAnyWord_of_isIdentifier hident
      obtain ⟨m, e₁, c₁, e₂, c₂, hprimary, hrest, hend⟩ := exists_run_operand hc hword hrun hsemi
      obtain rfl := eq_skip_of_run_primary hc.language hident hprimary
      have hskip := hc.skip fun heof => by
        rw [heof] at hword
        cases hword
      have hdrop : c.skip.rest = c.rest.drop 1 := by rw [rest_skip, List.drop_one]
      exact hend (isAnyWord_of_typeNameEnd hskip hdrop hn (Bool.not_eq_false _ ▸ hahead) hrest)
    rw [if_pos rfl, run_bind_of_ok hremaining, run_bind_of_ok hn, run_isIdentifierAt n hc.language, hnot]

theorem run_simpleStatement_expression (hc : c.Ready r) (hrun : expression.run.run c = (.ok e, c'))
    (hsemi : c'.next = .punct ";") (heffect : isEffect e) :
    simpleStatement.run.run c = (.ok (.expr c.start e), c') := by
  have hopens := opens_of_run_expression hc hrun
  have hc' := (hc.onward ((lockstep_expression (g := .none [])).reads hc hrun)).language
  have hno : ∀ s, opens (.punct s) = false → (eatPunct s).run.run c = (.ok false, c) := fun s hs =>
    (takes_eatPunct s).no c hc.language (decide_eq_false fun h => by
      rw [h, hs] at hopens
      cases hopens)
  have hafter : ∀ s, s ≠ ";" → (eatPunct s).run.run c' = (.ok false, c') := fun s hs =>
    (takes_eatPunct s).no c' hc' (decide_eq_false fun h => hs (Lexeme.punct.inj (h.symm.trans hsemi)))
  rw [simpleStatement, run_bind_of_ok (run_position c), run_bind_of_ok (hno "++" (by decide)),
    if_neg Bool.false_ne_true, run_bind_of_ok (hno "--" (by decide)), if_neg Bool.false_ne_true,
    run_bind_of_ok hrun, run_bind_of_ok (hafter "++" (by decide)), if_neg Bool.false_ne_true,
    run_bind_of_ok (hafter "--" (by decide)), if_neg Bool.false_ne_true, lexeme,
    run_bind_of_ok (run_lexeme c'), hsemi]
  have hlookup : assignments.lookup ";" = none := by decide
  dsimp only
  rw [hlookup]
  dsimp only
  rw [if_pos heffect]
  rfl

/-! ### Predefined types -/

theorem run_identifier_of_not (hnext : ¬isAnyWord c.next) :
    identifier.run.run c =
      (.error .abort, { c with log := c.log.report c.start .identifierExpected }) := by
  rw [identifier, lexeme, run_bind_of_ok (run_lexeme c)]
  cases hword : c.next with
  | word w => exact absurd (hword ▸ rfl) hnext
  | _ => rfl

theorem log_of_run_advance {t : Located} (hrun : advance.run.run c = (.ok t, c')) : c'.log = c.log := by
  by_cases heof : c.next = .eof
  · obtain ⟨u, hu⟩ := run_advance_eof heof
    rw [hu] at hrun
    cases hrun
    rfl
  · obtain ⟨u, hu⟩ := run_advance_skip heof
    rw [hu] at hrun
    cases hrun
    exact c.log_skip

theorem log_of_run_arrayRest {name name' : TypeName}
    (hrun : (arrayRest n name).run.run c = (.ok name', c')) : c'.log = c.log := by
  induction n generalizing c name with
  | zero =>
    cases hrun
    rfl
  | succ n ih =>
    have hlanguage : language.run.run c = (.ok c.log.language, c) := rfl
    have hpunct : ∀ i s, (isPunctAt i s).run.run c = (.ok (decide (c.ahead i = .punct s)), c) :=
      fun _ _ => rfl
    rw [arrayRest, run_bind_of_ok hlanguage, run_bind_of_ok (run_isPunct _ c),
      run_bind_of_ok (hpunct 1 _)] at hrun
    split at hrun
    · obtain ⟨_, c₁, hfirst, hrun⟩ := exists_of_run_bind hrun
      obtain ⟨_, c₂, hsecond, hrun⟩ := exists_of_run_bind hrun
      rw [ih hrun, log_of_run_advance hsecond, log_of_run_advance hfirst]
    · cases hrun
      rfl

/-- Reading a predefined type reports nothing. -/
theorem log_of_run_typeUse {type : TypeName} {t : TypeUse} (hc : c.log.language = .csharp)
    (hkeyword : keywordType? c.next = some type) (hrun : typeUse.run.run c = (.ok t, c')) :
    c'.log = c.log := by
  have hremaining : ∀ d : Cursor, remaining.run.run d = (.ok d.rest.length, d) := fun _ => rfl
  rw [typeUse, run_bind_of_ok (run_position c), run_bind_of_ok (tells_typeKeyword? c hc), hkeyword] at hrun
  dsimp only at hrun
  obtain ⟨_, c₁, hadvance, hrun⟩ := exists_of_run_bind hrun
  rw [pure_bind, run_bind_of_ok (hremaining c₁)] at hrun
  obtain ⟨name, c₂, harray, hrun⟩ := exists_of_run_bind hrun
  cases hrun
  rw [log_of_run_arrayRest harray, log_of_run_advance hadvance]

/-- Where an expression that starts with a predefined type is read up to a semicolon, no name is behind the
type. -/
theorem exists_run_typeUse {type : TypeName} (hc : c.Ready r) (hkeyword : keywordType? c.next = some type)
    (hrun : expression.run.run c = (.ok e, c')) (hsemi : c'.next = .punct ";") :
    type ≠ .void ∧ ∃ t c₁, typeUse.run.run c = (.ok t, c₁) ∧ ¬isAnyWord c₁.next := by
  obtain ⟨w, hnext, hw⟩ := exists_word_of_keywordType? hkeyword
  have hword : isAnyWord c.next := hnext ▸ rfl
  obtain ⟨m, e₁, c₁, e₂, c₂, hprimary, hrest, hend⟩ := exists_run_operand hc hword hrun hsemi
  cases m with
  | zero =>
    rw [primary] at hprimary
    cases hprimary
  | succ m =>
    by_cases htype : type = .void
    · have hreserved : ∀ w ∈ ["void", "int", "bool", "string", "object"],
          w ≠ "new" ∧ isReserved .csharp w := by decide +kernel
      obtain ⟨hnew, hreserved⟩ := hreserved w hw
      have hconstant := constantOf?_of_keywordType? hkeyword
      rw [run_primary_word hc.language hnext hconstant (by simp [hkeyword, htype])] at hprimary
      exact absurd hprimary (not_run_named hc.language hnext hnew hreserved)
    · rw [run_primary_type hc.language hkeyword htype] at hprimary
      obtain ⟨t, c₃, htypeUse, hprimary⟩ := exists_of_run_bind hprimary
      cases hprimary
      have hc₁ := (hc.onward ((lockstep_typeUse (g := .none [])).reads hc htypeUse)).language
      refine ⟨htype, t, c₁, htypeUse, fun hnot => hend ?_⟩
      exact eq_of_run_postfixRest hc₁ hnot hrest ▸ hnot

theorem run_localDeclaration_of_not {type : TypeName} {t : TypeUse} (hc : c.Ready r)
    (hkeyword : keywordType? c.next = some type) (hrun : typeUse.run.run c = (.ok t, c'))
    (hnot : ¬isAnyWord c'.next) : localDeclaration.run.run c =
      (.error .abort, { c' with log := c.log.report c'.start .identifierExpected }) := by
  have hremaining : remaining.run.run c' = (.ok c'.rest.length, c') := rfl
  have hvar : (isWord "var").run.run c = (.ok false, c) := by
    obtain ⟨w, hnext, hw⟩ := exists_word_of_keywordType? hkeyword
    have hno : ∀ w ∈ ["void", "int", "bool", "string", "object"],
        matchesWord .csharp "var" (.word w) = false := by decide +kernel
    rw [tells_isWord "var" c hc.language, hnext, hno w hw]
  have hsome : (some <$> typeUse).run.run c = (.ok (some t), c') := by
    rw [map_eq_pure_bind, run_bind_of_ok hrun]
    rfl
  have hpos := (hc.onward ((lockstep_typeUse (g := .none [])).reads hc hrun)).ends.length_pos
  obtain ⟨n, hn⟩ := Nat.exists_eq_add_one_of_ne_zero hpos.ne'
  rw [localDeclaration, run_bind_of_ok hvar, run_bind_of_ok (run_isAnyWordAt 1 c), Bool.false_and,
    if_neg Bool.false_ne_true, run_bind_of_ok hsome, run_bind_of_ok hremaining, hn, declarators,
    run_bind_of_ok (run_position c'), run_bind, run_identifier_of_not hnot,
    log_of_run_typeUse hc.language hkeyword hrun]

/-- **A call is a statement unless it starts with a predefined type.** An expression that does something and
is read up to a semicolon is read as a statement of it; where it starts with a predefined type, a name is
missing behind the type. -/
theorem statement_of_expression (hc : c.log.language = .csharp) (hends : EndsFile c.rest)
    (hrun : expression.run.run c = (.ok e, c')) (hsemi : c'.next = .punct ";") (heffect : isEffect e)
    (depth : Nat) :
    (keywordType? c.next = none → (statement (depth + 1)).run.run c = (.ok [.expr c.start e], c'.skip)) ∧
    (keywordType? c.next ≠ none → ∃ pos d, (statement (depth + 1)).run.run c = (.error .abort, d) ∧
      d.log = c.log.report pos .identifierExpected) := by
  have hready : c.Ready (c.rest.length - 1) := Cursor.Ready.exact ⟨hends, Nat.le_succ _, hc⟩
  have hplain := isPlain_of_opens (opens_of_run_expression hready hrun)
  have hstatement : (statement (depth + 1)).run.run c =
      (do let declared ← plain; expectSemicolon; return declared : Parser (List Stmt)).run.run c := by
    rw [statement_eq, run_bind_of_ok (run_position c), lexeme, run_bind_of_ok (run_lexeme c),
      statementFrom_of_isPlain hplain]
  rw [hstatement]
  refine ⟨fun hkeyword => ?_, fun hkeyword => ?_⟩
  · have hlocal := run_startsLocal_expression hready hkeyword hrun hsemi
    have hsimple := run_simpleStatement_expression hready hrun hsemi heffect
    have hc' := (hready.onward ((lockstep_expression (g := .none [])).reads hready hrun)).language
    have hplain : plain.run.run c = (.ok [.expr c.start e], c') := by
      rw [plain, run_bind_of_ok hlocal, if_neg Bool.false_ne_true, run_bind_of_ok hsimple]
      rfl
    rw [run_bind_of_ok hplain, run_bind_of_ok (run_expectSemicolon hc' hsemi)]
    rfl
  · obtain ⟨type, hkeyword⟩ := Option.ne_none_iff_exists'.1 hkeyword
    obtain ⟨htype, t, c₁, htypeUse, hnot⟩ := exists_run_typeUse hready hkeyword hrun hsemi
    have hlocal : startsLocal.run.run c = (.ok true, c) := by
      rw [startsLocal, run_bind_of_ok (tells_typeKeyword? c hc), hkeyword]
      exact congrArg (fun b => (Except.ok b, c)) (decide_eq_true htype)
    have hplain : plain.run.run c = localDeclaration.run.run c := by
      rw [plain, run_bind_of_ok hlocal, if_pos rfl]
    refine ⟨c₁.start, { c₁ with log := c.log.report c₁.start .identifierExpected }, ?_, rfl⟩
    rw [run_bind, hplain, run_localDeclaration_of_not hready hkeyword htypeUse hnot]

end CilScope.Source.CSharp
