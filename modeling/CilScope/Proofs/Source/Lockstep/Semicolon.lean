import CilScope.Proofs.Source.Lockstep.Mending

/-!
# A missing semicolon

The recursive descent leads from the start of a text to every semicolon that ends something: a declaration
of local variables, an assignment, an increment or a call, a `break` or a `continue`, a `return` or a
`throw` with a value, the test of a `do` loop, fields, and a `using` directive in a namespace. The relations
here follow the descent. `InStatement depth c s` says that a semicolon at the cursor `s` ends the statement
that is read at the cursor `c`, or something inside it, and so do the others for the other constructs, each
with the runs that lie between the two cursors.

By induction on the way to the semicolon, the run on the text and the run on the text without it are mended
behind the gap (`InUnit.mends`). So a semicolon that is missing in front of a closing brace costs one
diagnostic and nothing else (`compilationUnit_missing_semicolon`).
-/

namespace CilScope.Source.CSharp

open CilScope.Source.Parser

/-- Whether a statement that starts with this lexeme has no keyword: it is a declaration of local
variables, an assignment, an increment or a call. -/
def isPlain : Lexeme → Bool
  | .punct p => p ∉ ["\x7b", ";"]
  | .word w => w ∉ ["if", "while", "do", "for", "break", "continue", "return", "throw", "try"]
  | _ => true

mutual

/-- A semicolon at `s` ends the statement at `c`, or one inside it. -/
inductive InStatement : (depth : Nat) → (c s : Cursor) → Prop
  /-- It is a declaration of local variables, an assignment, an increment or a call. -/
  | plain {depth c s declared} (hnext : isPlain c.next)
      (hrun : plain.run.run c = (.ok declared, s)) : InStatement (depth + 1) c s
  | jump {depth c} (hnext : c.next = .word "break" ∨ c.next = .word "continue") :
      InStatement (depth + 1) c c.skip
  /-- With a value. Without one, a brace behind the keyword is read as the start of a value. -/
  | value {depth c s value} (hnext : c.next = .word "return" ∨ c.next = .word "throw")
      (hvalue : c.skip.next ≠ .punct ";") (hrun : expression.run.run c.skip = (.ok value, s)) :
      InStatement (depth + 1) c s
  /-- Behind the test of a `do` loop. -/
  | test {depth c c₁ s body cond} (hnext : c.next = .word "do")
      (hbody : (embedded depth).run.run c.skip = (.ok body, c₁)) (hwhile : c₁.next = .word "while")
      (hcond : parenthesized.run.run c₁.skip = (.ok cond, s)) : InStatement (depth + 1) c s
  | block {depth c s} (hnext : c.next = .punct "\x7b") (h : InBlock depth c s) :
      InStatement (depth + 1) c s
  | then_ {depth c c₁ s cond} (hnext : c.next = .word "if")
      (hcond : parenthesized.run.run c.skip = (.ok cond, c₁)) (h : InEmbedded depth c₁ s) :
      InStatement (depth + 1) c s
  | else_ {depth c c₁ c₂ s cond then_} (hnext : c.next = .word "if")
      (hcond : parenthesized.run.run c.skip = (.ok cond, c₁))
      (hthen : (embedded depth).run.run c₁ = (.ok then_, c₂)) (helse : c₂.next = .word "else")
      (h : InEmbedded depth c₂.skip s) : InStatement (depth + 1) c s
  | while_ {depth c c₁ s cond} (hnext : c.next = .word "while")
      (hcond : parenthesized.run.run c.skip = (.ok cond, c₁)) (h : InEmbedded depth c₁ s) :
      InStatement (depth + 1) c s
  | do_ {depth c s} (hnext : c.next = .word "do") (h : InEmbedded depth c.skip s) :
      InStatement (depth + 1) c s
  | for_ {depth c c₁ s head} (hnext : c.next = .word "for")
      (hhead : forHead.run.run c.skip = (.ok head, c₁)) (h : InEmbedded depth c₁ s) :
      InStatement (depth + 1) c s
  | try_ {depth c s} (hnext : c.next = .word "try") (h : InBlock depth c.skip s) :
      InStatement (depth + 1) c s
  | catch_ {depth c c₁ c₂ s body head} (hnext : c.next = .word "try")
      (hbody : (block depth).run.run c.skip = (.ok body, c₁)) (hcatch : c₁.next = .word "catch")
      (hhead : (catchHead c₁.start).run.run c₁.skip = (.ok head, c₂)) (h : InBlock depth c₂ s) :
      InStatement (depth + 1) c s
  | finally_ {depth c c₁ c₂ s body caught} (hnext : c.next = .word "try")
      (hbody : (block depth).run.run c.skip = (.ok body, c₁))
      (hcaught : (handler depth).run.run c₁ = (.ok caught, c₂)) (hfinally : c₂.next = .word "finally")
      (h : InBlock depth c₂.skip s) : InStatement (depth + 1) c s

/-- A semicolon at `s` ends a statement in the block at `c`. -/
inductive InBlock : (depth : Nat) → (c s : Cursor) → Prop
  | statements {depth c s} (hnext : c.next = .punct "\x7b") (h : InStatements depth c.skip s) :
      InBlock (depth + 1) c s

/-- A semicolon at `s` ends a statement among those from `c` on. -/
inductive InStatements : (depth : Nat) → (c s : Cursor) → Prop
  | first {depth c s} (hnext : c.next ≠ .punct "\x7d" ∧ c.next ≠ .eof) (h : InStatement depth c s) :
      InStatements (depth + 1) c s
  | later {depth c c₁ s first} (hnext : c.next ≠ .punct "\x7d" ∧ c.next ≠ .eof)
      (hfirst : (statement depth).run.run c = (.ok first, c₁)) (h : InStatements depth c₁ s) :
      InStatements (depth + 1) c s

/-- A semicolon at `s` ends a statement in the body of a conditional or a loop at `c`. -/
inductive InEmbedded : (depth : Nat) → (c s : Cursor) → Prop
  | block {depth c s} (hnext : c.next = .punct "\x7b") (h : InBlock depth c s) :
      InEmbedded (depth + 1) c s
  | statement {depth c s} (hnext : c.next ≠ .punct "\x7b") (h : InStatement depth c s) :
      InEmbedded (depth + 1) c s

end

/-- A semicolon at `s` ends the field at `c`, or a statement in the method there. -/
inductive InMember (access : Option Access) (isStatic : Bool) (pos : Position) : (c s : Cursor) → Prop
  | field {c c₁ s type namePos name declared}
      (hhead : (memberHead pos).run.run c = (.ok (type, namePos, name), c₁))
      (hnext : c₁.next ≠ .punct "(")
      (hrun : (fields type access isStatic c₁.rest.length name namePos).run.run c₁ =
        (.ok declared, s)) : InMember access isStatic pos c s
  | method {c c₁ c₂ s head params} (hhead : (memberHead pos).run.run c = (.ok head, c₁))
      (hnext : c₁.next = .punct "(") (hparams : parameterList.run.run c₁ = (.ok params, c₂))
      (h : InBlock (16 * c₂.rest.length + 16) c₂ s) : InMember access isStatic pos c s

mutual

/-- A semicolon at `s` ends a field or a statement in the class at `c`. -/
inductive InType : (depth : Nat) → (c s : Cursor) → Prop
  | members {depth c c₁ s name} (hname : identifier.run.run c.skip = (.ok name, c₁))
      (hopen : c₁.next = .punct "\x7b") (h : InMembers depth {} c₁.skip s) : InType (depth + 1) c s

/-- A semicolon at `s` ends a field or a statement in the members from `c` on. -/
inductive InMembers : (depth : Nat) → (ms : Members) → (c s : Cursor) → Prop
  | member {depth ms c c₁ s access isStatic} (hnext : c.next ≠ .punct "\x7d" ∧ c.next ≠ .eof)
      (hmodifiers : modifiers.run.run c = (.ok (access, isStatic), c₁))
      (hclass : c₁.next ≠ .word "class") (h : InMember access isStatic c.start c₁ s) :
      InMembers (depth + 1) ms c s
  | laterMember {depth ms ms' c c₁ c₂ s access isStatic}
      (hnext : c.next ≠ .punct "\x7d" ∧ c.next ≠ .eof)
      (hmodifiers : modifiers.run.run c = (.ok (access, isStatic), c₁))
      (hclass : c₁.next ≠ .word "class")
      (hmember : (member access isStatic c.start ms).run.run c₁ = (.ok ms', c₂))
      (h : InMembers depth ms' c₂ s) : InMembers (depth + 1) ms c s
  | type {depth ms c c₁ s access isStatic} (hnext : c.next ≠ .punct "\x7d" ∧ c.next ≠ .eof)
      (hmodifiers : modifiers.run.run c = (.ok (access, isStatic), c₁))
      (hclass : c₁.next = .word "class") (h : InType depth c₁ s) : InMembers (depth + 1) ms c s
  | laterType {depth ms inner c c₁ c₂ s access isStatic}
      (hnext : c.next ≠ .punct "\x7d" ∧ c.next ≠ .eof)
      (hmodifiers : modifiers.run.run c = (.ok (access, isStatic), c₁))
      (hclass : c₁.next = .word "class")
      (htype : (typeDeclaration "" access isStatic c.start depth).run.run c₁ = (.ok inner, c₂))
      (h : InMembers depth { ms with nested := ms.nested ++ [inner] } c₂ s) :
      InMembers (depth + 1) ms c s

end

/-- The name of a namespace inside another one. -/
def fullName (outer name : String) : String := if outer.isEmpty then name else outer ++ "." ++ name

/-- A semicolon at `s` ends a directive in a namespace, a field or a statement in the declarations from
`c` on. -/
inductive InDeclarations : (depth : Nat) → (namespace_ : String) → (nested : Bool) →
    (unit : CompilationUnit) → (c s : Cursor) → Prop
  | using_ {depth namespace_ unit c s name} (hnext : c.next = .word "using")
      (hname : qualifiedName.run.run c.skip = (.ok name, s)) :
      InDeclarations (depth + 1) namespace_ true unit c s
  | laterUsing {depth namespace_ unit directive c c₁ s} (hnext : c.next = .word "using")
      (hdirective : (usingDirective c.start).run.run c.skip = (.ok directive, c₁))
      (h : InDeclarations depth namespace_ true
        { unit with imports := unit.imports ++ [directive] } c₁ s) :
      InDeclarations (depth + 1) namespace_ true unit c s
  | namespace_ {depth namespace_ nested unit name c c₁ s} (hnext : c.next = .word "namespace")
      (hname : qualifiedName.run.run c.skip = (.ok name, c₁)) (hopen : c₁.next = .punct "\x7b")
      (h : InDeclarations depth (fullName namespace_ name) true unit c₁.skip s) :
      InDeclarations (depth + 1) namespace_ nested unit c s
  | laterNamespace {depth namespace_ nested unit unit' name c c₁ c₂ s}
      (hnext : c.next = .word "namespace") (hname : qualifiedName.run.run c.skip = (.ok name, c₁))
      (hopen : c₁.next = .punct "\x7b")
      (hinner : (declarations depth (fullName namespace_ name) true unit).run.run c₁.skip =
        (.ok unit', c₂))
      (hclose : c₂.next = .punct "\x7d") (h : InDeclarations depth namespace_ nested unit' c₂.skip s) :
      InDeclarations (depth + 1) namespace_ nested unit c s
  | type {depth namespace_ nested unit c c₁ s access isStatic}
      (hmodifiers : modifiers.run.run c = (.ok (access, isStatic), c₁))
      (hclass : c₁.next = .word "class") (h : InType (16 * c₁.rest.length + 16) c₁ s) :
      InDeclarations (depth + 1) namespace_ nested unit c s
  | laterType {depth namespace_ nested unit declared c c₁ c₂ s access isStatic}
      (hmodifiers : modifiers.run.run c = (.ok (access, isStatic), c₁))
      (hclass : c₁.next = .word "class")
      (htype : (typeDeclaration namespace_ access isStatic c.start
        (16 * c₁.rest.length + 16)).run.run c₁ = (.ok declared, c₂))
      (h : InDeclarations depth namespace_ nested
        { unit with types := unit.types ++ [declared] } c₂ s) :
      InDeclarations (depth + 1) namespace_ nested unit c s

/-- A semicolon at `s` ends a directive in a namespace, a field or a statement in the text at `c`. -/
def InUnit (c s : Cursor) : Prop :=
  ∃ imports c₁, (usingDirectives c.rest.length).run.run c = (.ok imports, c₁) ∧
    InDeclarations (16 * c₁.rest.length + 16) "" false { imports, types := [] } c₁ s

variable {g : Gap} {r depth m : Nat} {c s : Cursor}

theorem run_expectPunct {p : String} (hc : c.log.language = .csharp) (hnext : c.next = .punct p) :
    (expectPunct p).run.run c = (.ok (), c.skip) :=
  run_bind_of_ok ((takes_eatPunct p).yes c hc (decide_eq_true hnext))

theorem run_isPunct (p : String) (c : Cursor) :
    (isPunct p).run.run c = (.ok (decide (c.next = .punct p)), c) := rfl

/-- The cursor is at the semicolon of the gap, behind another lexeme. -/
structure AtGap (g : Gap) (s : Cursor) : Prop where
  rest : s.rest = g.reach
  removed : g.removed ≠ []
  before : g.before ≠ []

/-- At the gap the first run reads the semicolon and the second one reports that it is missing. -/
theorem mends_expectSemicolon (hs : AtGap g s) (hc : s.Ready r) :
    Mends g expectSemicolon expectSemicolon s := by
  obtain ⟨hr, -⟩ | ⟨semi, brace, rest, hr, hb, hsemi, hbrace⟩ := g.shape
  · exact absurd hr hs.removed
  have hrest : s.rest = semi :: brace :: rest := by rw [hs.rest, Gap.reach, hr, hb]; rfl
  have hnext : s.next = .punct ";" := by rw [Cursor.next, hrest]; exact hsemi
  have hskip : s.skip.rest = brace :: rest := by rw [Cursor.skip, hrest]
  have hrun := run_expectSemicolon hc.language hnext
  have honward := Cursor.onward_skip hc.ends (hnext ▸ by simp)
  refine ⟨hs.rest ▸ le_rfl, fun {x c'} hx => ?_, fun {d x c'} hcd hx hlog => ?_⟩
  · rw [hrun] at hx
    cases hx
    exact ⟨honward.ends, hs.rest ▸ honward.length, honward.log⟩
  · rw [hrun] at hx
    cases hx
    obtain ⟨used, ahead, hbefore, hahead, hd, hstop⟩ := hcd.split
    have hnil : ahead = [] := by
      have hlength := congrArg List.length hahead
      rw [hs.rest, List.length_append] at hlength
      exact List.eq_nil_of_length_eq_zero (by omega)
    rw [hnil, List.append_nil] at hbefore
    rw [hnil, List.nil_append] at hd
    subst hbefore
    have hdnext : d.next = .punct "\x7d" := by rw [Cursor.next, hd, hb]; exact hbrace
    have hno := (takes_eatPunct ";").no d hcd.right (decide_eq_false (hdnext ▸ by decide))
    have hprevious : d.previousStop = g.stop := by
      have hlast := List.getLast?_eq_some_getLast hs.before
      rw [hstop _ hlast, Gap.stop, hlast]
      rfl
    refine ⟨{ d with log := d.log.report g.stop .missingSemicolon }, ?_, ?_, rfl⟩
    · rw [expectSemicolon, run_bind_of_ok hno, ← hprevious]
      rfl
    · refine ⟨⟨[], s.skip.rest, rfl, (List.append_nil _).symm, ?_, by simp⟩, honward.ends,
        honward.log.language.trans hc.language, hcd.right⟩
      rw [hskip]
      exact (hd.trans hb).trans (List.append_nil _).symm

/-! ### Statements -/

theorem statementFrom_of_isPlain {t : Lexeme} (ht : isPlain t) (depth : Nat) (pos : Position) :
    statementFrom depth pos t = (do
      let declared ← plain
      expectSemicolon
      return declared) := by
  unfold statementFrom
  split <;> first | rfl | cases ht

theorem mends_statement (hc : c.Ready r) (hg : g.Alike c)
    (h : ∀ pos, Mends g (statementFrom depth pos c.next) (statementFrom m pos c.next) c) :
    Mends g (statement (depth + 1)) (statement (m + 1)) c := by
  rw [statement_eq, statement_eq]
  exact .position hg (.told hc hg tells_lexeme (h _))

/-- A statement behind its keyword. -/
theorem mends_keyword {w : String} {x : Nat → Position → Parser (List Stmt)} (hc : c.Ready r)
    (hnext : c.next = .word w)
    (hx : ∀ depth pos, statementFrom depth pos (.word w) = advance >>= fun _ => x depth pos)
    (h : 1 ≤ r → c.skip.Ready (r - 1) → ∀ pos, Mends g (x depth pos) (x m pos) c.skip) :
    Mends g (statement (depth + 1)) (statement (m + 1)) c := by
  have hg : g.Alike c := Gap.alike_of_ne (hnext ▸ by simp)
  have heof : c.next ≠ .eof := hnext ▸ by simp
  refine mends_statement hc hg fun pos => ?_
  rw [hnext, hx, hx]
  exact .read hc hg heof fun hskip _ => h (hc.pos heof) hskip pos

theorem mends_valueAndSemicolon {value : Expr} (hs : AtGap g s) (hc : c.Ready r)
    (hvalue : c.next ≠ .punct ";") (hrun : expression.run.run c = (.ok value, s)) :
    Mends g valueAndSemicolon valueAndSemicolon c := by
  have hsome : (some <$> expression).run.run c = (.ok (some value), s) := by
    rw [map_eq_pure_bind, run_bind_of_ok hrun]
    rfl
  refine .told hc (Gap.alike_of_ne hvalue) (tells_isPunct ";") ?_
  rw [decide_eq_false hvalue]
  exact .bind hc lockstep_expression.map hsome fun hc =>
    (mends_expectSemicolon hs hc).andThen hc fun _ _ _ => .pure _

theorem mends_handler {c₁ : Cursor} {head : CatchHead} (hc : c.Ready r)
    (hcatch : c.next = .word "catch") (hhead : (catchHead c.start).run.run c.skip = (.ok head, c₁))
    (h : c₁.Ready (r - 1) → Mends g (block depth) (block m) c₁) :
    Mends g (handler depth) (handler m) c := by
  have hg : g.Alike c := Gap.alike_of_ne (hcatch ▸ by simp)
  refine .position hg (.taken hc hg (takes_eatWord "catch") (hcatch ▸ rfl) fun hc => ?_)
  exact .bind hc (lockstep_catchHead c.start) hhead fun hc => (h hc).andThen hc fun _ _ _ => .pure _

theorem ne_semicolon_of_isPlain {t : Lexeme} (ht : isPlain t) : t ≠ .punct ";" := by
  rintro rfl
  cases ht

theorem InStatement.next_ne (h : InStatement depth c s) : c.next ≠ .punct ";" := by
  cases h with
  | plain hnext => exact ne_semicolon_of_isPlain hnext
  | jump hnext | value hnext => rcases hnext with hnext | hnext <;> exact hnext ▸ by decide
  | _ hnext => exact hnext ▸ by decide

/-- Statements of which there is another one. -/
theorem mends_statements (hc : c.Ready r) (hg : g.Alike c)
    (hnext : c.next ≠ .punct "\x7d" ∧ c.next ≠ .eof)
    (h : Mends g
      (do
        let first ← statement depth
        let (rest, stop) ← statements depth
        return (first ++ rest, stop))
      (do
        let first ← statement m
        let (rest, stop) ← statements m
        return (first ++ rest, stop)) c) :
    Mends g (statements (depth + 1)) (statements (m + 1)) c := by
  rw [statements, statements]
  refine .position hg (.untaken hc hg (takes_eatPunct _) (decide_eq_false hnext.1) ?_)
  refine .told hc hg tells_atEof ?_
  rw [decide_eq_false hnext.2]
  exact h

mutual

theorem InStatement.mends : ∀ {depth r m : Nat} {c s : Cursor}, InStatement depth c s → AtGap g s →
    c.Ready r → 16 * r + 2 ≤ m → Mends g (statement depth) (statement m) c
  | _, _, 0, _, _, _, _, _, hm => absurd hm (Nat.not_succ_le_zero _)
  | _, r, m + 1, c, s, .plain hnext hrun, hs, hc, _ => by
    refine mends_statement hc (Gap.alike_of_ne (ne_semicolon_of_isPlain hnext)) fun pos => ?_
    rw [statementFrom_of_isPlain hnext, statementFrom_of_isPlain hnext]
    exact .bind hc lockstep_plain hrun fun hc =>
      (mends_expectSemicolon hs hc).andThen hc fun _ _ _ => .pure _
  | _, r, m + 1, c, _, .jump hnext, hs, hc, _ => by
    rcases hnext with hnext | hnext
    · exact mends_keyword hc hnext (fun _ _ => rfl) fun _ hc _ =>
        (mends_expectSemicolon hs hc).andThen hc fun _ _ _ => .pure _
    · exact mends_keyword hc hnext (fun _ _ => rfl) fun _ hc _ =>
        (mends_expectSemicolon hs hc).andThen hc fun _ _ _ => .pure _
  | _, r, m + 1, c, s, .value hnext hvalue hrun, hs, hc, _ => by
    rcases hnext with hnext | hnext
    · exact mends_keyword hc hnext (fun _ _ => rfl) fun _ hc _ =>
        (mends_valueAndSemicolon hs hc hvalue hrun).andThen hc fun _ _ _ => .pure _
    · exact mends_keyword hc hnext (fun _ _ => rfl) fun _ hc _ =>
        (mends_valueAndSemicolon hs hc hvalue hrun).andThen hc fun _ _ _ => .pure _
  | _, r, m + 1, c, s, .test hnext hbody hwhile hcond, hs, hc, hm => by
    refine mends_keyword hc hnext (fun _ _ => rfl) fun hr hc _ => ?_
    refine .bind hc ((statementSteps g _ _).embedded (by omega)) hbody fun hc => ?_
    refine .taken hc (Gap.alike_of_ne (hwhile ▸ by simp)) (takes_eatWord "while") (hwhile ▸ rfl) fun hc => ?_
    exact .bind hc lockstep_parenthesized hcond fun hc =>
      (mends_expectSemicolon hs hc).andThen hc fun _ _ _ => .pure _
  | _, r, m + 1, c, s, .block hnext h, hs, hc, hm => by
    refine mends_statement hc (Gap.alike_of_ne (hnext ▸ by decide)) fun pos => ?_
    rw [hnext]
    exact (h.mends hs hc (by omega)).andThen hc fun _ _ _ => .pure _
  | _, r, m + 1, c, s, .then_ hnext hcond h, hs, hc, hm => by
    refine mends_keyword hc hnext (fun _ _ => rfl) fun hr hc _ => ?_
    refine .bind hc lockstep_parenthesized hcond fun hc => ?_
    refine (h.mends hs hc (by omega)).andThen hc fun _ then_ ts => ?_
    exact .optional (takes_eatWord "else") (fun _ => ⟨rfl, rfl⟩)
      (fun _ => (statementSteps _ _ _).embedded (by omega)) fun _ _ => .pure _
  | _, r, m + 1, c, s, .else_ hnext hcond hthen helse h, hs, hc, hm => by
    refine mends_keyword hc hnext (fun _ _ => rfl) fun hr hc _ => ?_
    refine .bind hc lockstep_parenthesized hcond fun hc => ?_
    refine .bind hc ((statementSteps g _ _).embedded (by omega)) hthen fun hc => ?_
    refine .taken hc (Gap.alike_of_ne (helse ▸ by simp)) (takes_eatWord "else") (helse ▸ rfl) fun hc => ?_
    exact ((h.mends hs hc (by omega)).map hc).andThen hc fun _ _ _ => .pure _
  | _, r, m + 1, c, s, .while_ hnext hcond h, hs, hc, hm => by
    refine mends_keyword hc hnext (fun _ _ => rfl) fun hr hc _ => ?_
    exact .bind hc lockstep_parenthesized hcond fun hc =>
      (h.mends hs hc (by omega)).andThen hc fun _ _ _ => .pure _
  | _, r, m + 1, c, s, .do_ hnext h, hs, hc, hm => by
    refine mends_keyword hc hnext (fun _ _ => rfl) fun hr hc _ => ?_
    refine (h.mends hs hc (by omega)).andThen hc fun _ body ts => .eatWord (fun _ => ?_) .unexpected_bind
    refine (lockstep_parenthesized.weaken (Nat.zero_le 1)).bind fun _ cond => ?_
    exact lockstep_expectSemicolon.bind fun _ _ => .pure _
  | _, r, m + 1, c, s, .for_ hnext hhead h, hs, hc, hm => by
    refine mends_keyword hc hnext (fun _ _ => rfl) fun hr hc _ => ?_
    exact .bind hc lockstep_forHead hhead fun hc =>
      (h.mends hs hc (by omega)).andThen hc fun _ _ _ => .pure _
  | _, r, m + 1, c, s, .try_ hnext h, hs, hc, hm => by
    refine mends_keyword hc hnext (fun _ _ => rfl) fun hr hc pos => ?_
    refine (h.mends hs hc (by omega)).andThen hc fun _ body ts => ?_
    exact ((statementSteps _ _ _).handler (by omega)).bind fun _ caught =>
      (statementSteps _ _ _).tryEnd (by omega) pos body.1 caught
  | _, r, m + 1, c, s, .catch_ hnext hbody hcatch hhead h, hs, hc, hm => by
    refine mends_keyword hc hnext (fun _ _ => rfl) fun hr hc pos => ?_
    refine .bind hc ((statementSteps g _ _).block (by omega)) hbody fun hc => ?_
    refine (mends_handler hc hcatch hhead fun hc => h.mends hs hc (by omega)).andThen hc ?_
    exact fun _ caught ts => (statementSteps _ _ _).tryEnd (by omega) pos _ caught
  | _, r, m + 1, c, s, .finally_ hnext hbody hcaught hfinally h, hs, hc, hm => by
    refine mends_keyword hc hnext (fun _ _ => rfl) fun hr hc pos => ?_
    refine .bind hc ((statementSteps g _ _).block (by omega)) hbody fun hc => ?_
    refine .bind hc ((statementSteps g _ _).handler (by omega)) hcaught fun hc => ?_
    refine .taken hc (Gap.alike_of_ne (hfinally ▸ by simp)) (takes_eatWord "finally") (hfinally ▸ rfl)
      fun hc => ?_
    exact (h.mends hs hc (by omega)).andThen hc fun _ _ _ => .pure_bind (lockstep_tryStatement _ _ _ _)

theorem InBlock.mends : ∀ {depth r m : Nat} {c s : Cursor}, InBlock depth c s → AtGap g s →
    c.Ready r → 16 * r + 1 ≤ m → Mends g (block depth) (block m) c
  | _, _, 0, _, _, _, _, _, hm => absurd hm (Nat.not_succ_le_zero _)
  | _, r, m + 1, c, s, .statements hnext h, hs, hc, hm => by
    have hr := hc.pos (hnext ▸ by simp)
    rw [block, block]
    exact .bind hc (lockstep_expectPunct _) (run_expectPunct hc.language hnext) fun hc =>
      h.mends hs hc (by omega)

theorem InStatements.mends : ∀ {depth r m : Nat} {c s : Cursor}, InStatements depth c s → AtGap g s →
    c.Ready r → 16 * r + 3 ≤ m → Mends g (statements depth) (statements m) c
  | _, _, 0, _, _, _, _, _, hm => absurd hm (Nat.not_succ_le_zero _)
  | _, r, m + 1, c, s, .first hnext h, hs, hc, hm => by
    have hfirst := h.mends (m := m) hs hc (by omega)
    refine mends_statements hc (Gap.alike_of_ne h.next_ne) hnext (hfirst.andThen hc fun hr _ _ => ?_)
    exact ((statementSteps _ _ _).statements (by omega)).weaken (Nat.zero_le 1) |>.bind fun _ _ => .pure _
  | depth + 1, r, m + 1, c, s, .later hnext hfirst h, hs, hc, hm => by
    have hr := hc.pos hnext.2
    have hstep : Lockstep g Free r 1 (statement depth) (statement m) :=
      (statementSteps g _ _).statement (by omega)
    have honward := hstep.reads hc hfirst
    have hrest := h.mends (m := m) hs (hc.onward honward) (by omega)
    have hg : g.Alike c := Gap.alike_of_lt (Nat.lt_of_le_of_lt hrest.front honward.length)
    exact mends_statements hc hg hnext (.bind hc hstep hfirst fun hc => hrest.andThen hc fun _ _ _ => .pure _)

theorem InEmbedded.mends : ∀ {depth r m : Nat} {c s : Cursor}, InEmbedded depth c s → AtGap g s →
    c.Ready r → 16 * r + 3 ≤ m → Mends g (embedded depth) (embedded m) c
  | _, _, 0, _, _, _, _, _, hm => absurd hm (Nat.not_succ_le_zero _)
  | _, r, m + 1, c, s, .block hnext h, hs, hc, hm => by
    have hg : g.Alike c := Gap.alike_of_ne (hnext ▸ by decide)
    rw [embedded, embedded]
    refine .told hc hg (tells_isPunct _) ?_
    rw [decide_eq_true hnext]
    exact .position hg ((h.mends hs hc (by omega)).andThen hc fun _ _ _ => .pure _)
  | _, r, m + 1, c, s, .statement hnext h, hs, hc, hm => by
    rw [embedded, embedded]
    refine .told hc (Gap.alike_of_ne h.next_ne) (tells_isPunct _) ?_
    rw [decide_eq_false hnext]
    exact h.mends hs hc (by omega)

end

/-! ### Members -/

theorem run_memberHead_semicolon {pos : Position} {x : TypeUse × Position × String} {c' : Cursor}
    (hc : c.log.language = .csharp) (hnext : c.next = .punct ";") :
    (memberHead pos).run.run c ≠ (.ok x, c') := by
  have htype : typeKeyword?.run.run c = (.ok none, c) := by
    rw [tells_typeKeyword? c hc, hnext]
    rfl
  have hname : (isIdentifierAt 0).run.run c = (.ok false, c) := by
    rw [tells_isIdentifier c hc, hnext]
    rfl
  rw [memberHead, run_bind_of_ok htype, run_bind_of_ok hname]
  change (describe >>= fun found => fail pos (.syntaxError found) >>= _).run.run c ≠ _
  rw [run_bind_of_ok (tells_describe c hc)]
  rintro ⟨⟩

theorem InMember.next_ne {access : Option Access} {isStatic : Bool} {pos : Position}
    (h : InMember access isStatic pos c s) (hc : c.log.language = .csharp) : c.next ≠ .punct ";" := by
  intro hnext
  cases h with
  | field hhead | method hhead => exact run_memberHead_semicolon hc hnext hhead

theorem InMember.mends {access : Option Access} {isStatic : Bool} {pos : Position} {ms : Members}
    (h : InMember access isStatic pos c s) (hs : AtGap g s) (hc : c.Ready r) :
    Mends g (member access isStatic pos ms) (member access isStatic pos ms) c := by
  rw [member_eq]
  cases h with
  | field hhead hnext hrun =>
    refine .bind hc (lockstep_memberHead pos) hhead fun hc => ?_
    refine .asks (asks_isPunct (by decide)) (run_isPunct "(" _) ?_
    rw [decide_eq_false hnext]
    refine .remaining fun m hm => ?_
    have hremoved := List.length_pos_of_ne_nil hs.removed
    have hpos := hc.ends.length_pos
    exact .bind hc.exact (lockstep_fields (by omega) (by omega)) hrun fun hc =>
      (mends_expectSemicolon hs hc).andThen hc fun _ _ _ => .pure _
  | method hhead hnext hparams h =>
    refine .bind hc (lockstep_memberHead pos) hhead fun hc => ?_
    refine .asks (asks_isPunct (by decide)) (run_isPunct "(" _) ?_
    rw [decide_eq_true hnext]
    refine .andThen ?_ hc fun _ _ _ => .pure _
    rw [method_eq]
    refine .bind hc lockstep_parameterList hparams fun hc => .depthBound fun m hm => ?_
    have hpos := hc.ends.length_pos
    exact (h.mends hs hc.exact (by omega)).andThen hc fun _ _ _ => .pure _

theorem next_ne_of_modifiers {x : Option Access × Bool} {c₁ : Cursor}
    (h : modifiers.run.run c = (.ok x, c₁)) (hnext : c₁.next ≠ .punct ";") : c.next ≠ .punct ";" := by
  intro hsemi
  rw [run_modifiers_of_not (hsemi ▸ rfl)] at h
  cases h
  exact hnext hsemi

/-- Members of which there is another one, behind its modifiers. -/
theorem mends_members {ms : Members} {c₁ : Cursor} {access : Option Access} {isStatic : Bool}
    (hc : c.Ready r) (hg : g.Alike c) (hnext : c.next ≠ .punct "\x7d" ∧ c.next ≠ .eof)
    (hmodifiers : modifiers.run.run c = (.ok (access, isStatic), c₁))
    (h : c₁.Ready r → Mends g
      (if matchesWord .csharp "class" c₁.next = true then do
        let inner ← typeDeclaration "" access isStatic c.start depth
        members depth { ms with nested := ms.nested ++ [inner] }
      else do members depth (← member access isStatic c.start ms))
      (if matchesWord .csharp "class" c₁.next = true then do
        let inner ← typeDeclaration "" access isStatic c.start m
        members m { ms with nested := ms.nested ++ [inner] }
      else do members m (← member access isStatic c.start ms)) c₁) :
    Mends g (members (depth + 1) ms) (members (m + 1) ms) c := by
  rw [members, members]
  refine .untaken hc hg (takes_eatPunct _) (decide_eq_false hnext.1) (.position hg ?_)
  refine .told hc hg tells_atEof ?_
  rw [decide_eq_false hnext.2]
  refine .bind hc lockstep_modifiers hmodifiers fun hc => ?_
  exact .asks (.of_tells (tells_isWord "class") (looks_isWordAt 0 "class") fun _ => rfl)
    (tells_isWord "class" _ hc.language) (h hc)

theorem matchesWord_eq_false {k : String} {t : Lexeme} (h : t ≠ .word k) :
    matchesWord .csharp k t = false := by
  cases t with
  | word w => exact decide_eq_false fun hw => h (hw ▸ rfl)
  | _ => rfl

mutual

theorem InType.mends {namespace_ : String} {access : Option Access} {isStatic : Bool} {pos : Position} :
    ∀ {depth r m : Nat} {c s : Cursor}, InType depth c s → AtGap g s → c.Ready r →
      c.next = .word "class" → 16 * r + 1 ≤ m →
      Mends g (typeDeclaration namespace_ access isStatic pos depth)
        (typeDeclaration namespace_ access isStatic pos m) c
  | _, _, 0, _, _, _, _, _, _, hm => absurd hm (Nat.not_succ_le_zero _)
  | _, r, m + 1, c, s, .members hname hopen h, hs, hc, hnext, hm => by
    have hr := hc.pos (hnext ▸ by simp)
    rw [typeDeclaration, typeDeclaration]
    refine .read hc (Gap.alike_of_ne (hnext ▸ by simp)) (hnext ▸ by simp) fun hc _ => ?_
    refine .bind hc lockstep_identifier hname fun hc => ?_
    refine .bind hc (lockstep_expectPunct _) (run_expectPunct hc.language hopen) fun hc => ?_
    exact (h.mends hs hc (by omega)).andThen hc fun _ _ _ => .pure _

theorem InMembers.mends : ∀ {depth r m : Nat} {ms : Members} {c s : Cursor}, InMembers depth ms c s →
    AtGap g s → c.Ready r → 16 * r + 2 ≤ m → Mends g (members depth ms) (members m ms) c
  | _, _, 0, _, _, _, _, _, _, hm => absurd hm (Nat.not_succ_le_zero _)
  | depth + 1, r, m + 1, ms, c, s, .member hnext hmodifiers hclass h, hs, hc, hm => by
    have hc₁ := hc.onward (lockstep_modifiers.reads (g := g) hc hmodifiers)
    have hne := next_ne_of_modifiers hmodifiers (h.next_ne hc₁.language)
    refine mends_members hc (Gap.alike_of_ne hne) hnext hmodifiers fun hc => ?_
    rw [matchesWord_eq_false hclass]
    refine (h.mends hs hc).andThen hc fun hr ms ts => ?_
    exact ((classSteps _ _ _).members (by omega)).weaken (Nat.zero_le 1)
  | depth + 1, r, m + 1, ms, c, s, .laterMember hnext hmodifiers hclass hmember h, hs, hc, hm => by
    have hr := hc.pos hnext.2
    have hbefore := lockstep_modifiers.reads (g := g) hc hmodifiers
    have honward := lockstep_member.reads (g := g) (hc.onward hbefore) hmember
    have hrest := h.mends (m := m) hs ((hc.onward hbefore).onward honward) (by omega)
    have hlength := hbefore.length
    have hg : g.Alike c := Gap.alike_of_lt (by have := hrest.front; have := honward.length; omega)
    refine mends_members hc hg hnext hmodifiers fun hc => ?_
    rw [matchesWord_eq_false hclass]
    exact .bind hc lockstep_member hmember fun _ => hrest
  | depth + 1, r, m + 1, ms, c, s, .type hnext hmodifiers hclass h, hs, hc, hm => by
    have hne := next_ne_of_modifiers hmodifiers (hclass ▸ by simp)
    refine mends_members hc (Gap.alike_of_ne hne) hnext hmodifiers fun hc => ?_
    rw [if_pos (hclass ▸ rfl), if_pos (hclass ▸ rfl)]
    refine (h.mends hs hc hclass (by omega)).andThen hc fun hr _ _ => ?_
    exact ((classSteps _ _ _).members (by omega)).weaken (Nat.zero_le 1)
  | depth + 1, r, m + 1, ms, c, s, .laterType hnext hmodifiers hclass htype h, hs, hc, hm => by
    have hr := hc.pos hnext.2
    have hne := next_ne_of_modifiers hmodifiers (hclass ▸ by simp)
    refine mends_members hc (Gap.alike_of_ne hne) hnext hmodifiers fun hc => ?_
    rw [if_pos (hclass ▸ rfl), if_pos (hclass ▸ rfl)]
    exact .bind hc ((classSteps g _ _).typeDeclaration (by omega)) htype fun hc => h.mends hs hc (by omega)

end

/-! ### Declarations -/

theorem next_ne_of_modifiers_class {x : Option Access × Bool} {c₁ : Cursor} {t : Lexeme}
    (h : modifiers.run.run c = (.ok x, c₁)) (hclass : c₁.next = .word "class")
    (ht : isModifier t = false) (hne : t ≠ .word "class") : c.next ≠ t := by
  rintro rfl
  rw [run_modifiers_of_not ht] at h
  cases h
  exact hne hclass

/-- Declarations of which there is another one that is no directive. -/
theorem mends_declarations {namespace_ : String} {nested : Bool} {unit : CompilationUnit}
    (hc : c.Ready r) (hg : g.Alike c) (hclose : c.next ≠ .punct "\x7d") (heof : c.next ≠ .eof)
    (husing : c.next ≠ .word "using")
    (h : Mends g (declaration depth namespace_ nested unit c.start)
      (declaration m namespace_ nested unit c.start) c) :
    Mends g (declarations (depth + 1) namespace_ nested unit)
      (declarations (m + 1) namespace_ nested unit) c := by
  cases nested with
  | false =>
    rw [declarations_top, declarations_top]
    refine .position hg (.told hc hg tells_atEof ?_)
    rw [decide_eq_false heof]
    exact h
  | true =>
    rw [declarations_nested, declarations_nested]
    refine .told hc hg (tells_isPunct _) ?_
    rw [decide_eq_false hclose]
    refine .position hg (.told hc hg tells_atEof ?_)
    rw [decide_eq_false heof]
    exact .untaken hc hg (takes_eatWord "using") (matchesWord_eq_false husing) h

/-- A directive in a namespace, and what follows it. -/
theorem mends_directive {namespace_ : String} {unit : CompilationUnit} (hc : c.Ready r)
    (hnext : c.next = .word "using")
    (h : c.skip.Ready (r - 1) → Mends g
      (do
        let directive ← usingDirective c.start
        declarations depth namespace_ true { unit with imports := unit.imports ++ [directive] })
      (do
        let directive ← usingDirective c.start
        declarations m namespace_ true { unit with imports := unit.imports ++ [directive] }) c.skip) :
    Mends g (declarations (depth + 1) namespace_ true unit)
      (declarations (m + 1) namespace_ true unit) c := by
  have hg : g.Alike c := Gap.alike_of_ne (hnext ▸ by simp)
  rw [declarations_nested, declarations_nested]
  refine .told hc hg (tells_isPunct _) ?_
  rw [hnext]
  refine .position hg (.told hc hg tells_atEof ?_)
  rw [hnext]
  exact .taken hc hg (takes_eatWord "using") (hnext ▸ rfl) h

/-- A namespace, and what follows it. -/
theorem mends_namespace {namespace_ : String} {nested : Bool} {unit : CompilationUnit}
    {pos : Position} {c₁ : Cursor} {name : String} (hc : c.Ready r) (hnext : c.next = .word "namespace")
    (hname : qualifiedName.run.run c.skip = (.ok name, c₁)) (hopen : c₁.next = .punct "\x7b")
    (h : c₁.skip.Ready (r - 3) → Mends g
      (do
        let unit ← declarations depth (fullName namespace_ name) true unit
        expectPunct "\x7d"
        declarations depth namespace_ nested unit)
      (do
        let unit ← declarations m (fullName namespace_ name) true unit
        expectPunct "\x7d"
        declarations m namespace_ nested unit) c₁.skip) :
    Mends g (declaration depth namespace_ nested unit pos)
      (declaration m namespace_ nested unit pos) c := by
  rw [declaration, declaration]
  refine .taken hc (Gap.alike_of_ne (hnext ▸ by simp)) (takes_eatWord "namespace") (hnext ▸ rfl) fun hc => ?_
  refine .bind hc lockstep_qualifiedName hname fun hc => ?_
  exact .bind hc (lockstep_expectPunct _) (run_expectPunct hc.language hopen) h

/-- A class, and what follows it. -/
theorem mends_class {namespace_ : String} {nested : Bool} {unit : CompilationUnit} {c₁ : Cursor}
    {access : Option Access} {isStatic : Bool} (hc : c.Ready r)
    (hmodifiers : modifiers.run.run c = (.ok (access, isStatic), c₁)) (hclass : c₁.next = .word "class")
    (h : ∀ m', 16 * c₁.rest.length ≤ m' → c₁.Ready r → Mends g
      (do
        let declared ← typeDeclaration namespace_ access isStatic c.start (16 * c₁.rest.length + 16)
        declarations depth namespace_ nested { unit with types := unit.types ++ [declared] })
      (do
        let declared ← typeDeclaration namespace_ access isStatic c.start m'
        declarations m namespace_ nested { unit with types := unit.types ++ [declared] }) c₁) :
    Mends g (declarations (depth + 1) namespace_ nested unit)
      (declarations (m + 1) namespace_ nested unit) c := by
  have hnext : ∀ {t}, isModifier t = false → t ≠ .word "class" → c.next ≠ t :=
    next_ne_of_modifiers_class hmodifiers hclass
  have hg : g.Alike c := Gap.alike_of_ne (hnext rfl (by simp))
  refine mends_declarations hc hg (hnext rfl (by simp)) (hnext rfl (by simp)) (hnext rfl (by decide)) ?_
  rw [declaration, declaration]
  refine .untaken hc hg (takes_eatWord "namespace")
    (matchesWord_eq_false (hnext rfl (by decide))) ?_
  refine .bind hc lockstep_modifiers hmodifiers fun hc => ?_
  refine .asks (.of_tells (tells_isWord "class") (looks_isWordAt 0 "class") fun _ => rfl)
    (tells_isWord "class" _ hc.language) ?_
  rw [hclass]
  exact .depthBound fun m' hm' => h m' hm' hc

theorem InDeclarations.mends {namespace_ : String} {nested : Bool} {unit : CompilationUnit}
    (h : InDeclarations depth namespace_ nested unit c s) (hs : AtGap g s) (hc : c.Ready r)
    (hm : 16 * r + 1 ≤ m) :
    Mends g (declarations depth namespace_ nested unit) (declarations m namespace_ nested unit) c := by
  induction h generalizing r m with
  | using_ hnext hname =>
    obtain ⟨m, rfl⟩ := Nat.exists_eq_add_one_of_ne_zero (n := m) (by omega)
    refine mends_directive hc hnext fun hc => .andThen ?_ hc fun _ _ _ => lockstep_declarations (by omega)
    exact .bind hc lockstep_qualifiedName hname fun hc =>
      (mends_expectSemicolon hs hc).andThen hc fun _ _ _ => .pure _
  | laterUsing hnext hdirective h ih =>
    obtain ⟨m, rfl⟩ := Nat.exists_eq_add_one_of_ne_zero (n := m) (by omega)
    have hr := hc.pos (hnext ▸ by simp)
    exact mends_directive hc hnext fun hc =>
      .bind hc (lockstep_usingDirective _) hdirective fun hc => ih hs hc (by omega)
  | namespace_ hnext hname hopen h ih =>
    obtain ⟨m, rfl⟩ := Nat.exists_eq_add_one_of_ne_zero (n := m) (by omega)
    have hr := hc.pos (hnext ▸ by simp)
    refine mends_declarations hc (Gap.alike_of_ne (hnext ▸ by simp)) (hnext ▸ by simp) (hnext ▸ by simp)
      (hnext ▸ by decide) ?_
    refine mends_namespace hc hnext hname hopen fun hc => (ih hs hc (by omega)).andThen hc fun _ _ _ => ?_
    exact ((lockstep_expectPunct _).weaken (Nat.zero_le 1)).bind fun _ _ =>
      lockstep_declarations (by omega)
  | laterNamespace hnext hname hopen hinner hclose h ih =>
    obtain ⟨m, rfl⟩ := Nat.exists_eq_add_one_of_ne_zero (n := m) (by omega)
    have hr := hc.pos (hnext ▸ by simp)
    refine mends_declarations hc (Gap.alike_of_ne (hnext ▸ by simp)) (hnext ▸ by simp) (hnext ▸ by simp)
      (hnext ▸ by decide) ?_
    refine mends_namespace hc hnext hname hopen fun hc => ?_
    refine .bind hc (lockstep_declarations (by omega)) hinner fun hc => ?_
    exact .bind hc (lockstep_expectPunct _) (run_expectPunct hc.language hclose) fun hc =>
      ih hs hc (by omega)
  | type hmodifiers hclass h =>
    obtain ⟨m, rfl⟩ := Nat.exists_eq_add_one_of_ne_zero (n := m) (by omega)
    refine mends_class hc hmodifiers hclass fun m' hm' hc => ?_
    have hpos := hc.ends.length_pos
    exact (h.mends hs hc.exact hclass (by omega)).andThen hc fun _ _ _ => lockstep_declarations (by omega)
  | laterType hmodifiers hclass htype h ih =>
    obtain ⟨m, rfl⟩ := Nat.exists_eq_add_one_of_ne_zero (n := m) (by omega)
    refine mends_class hc hmodifiers hclass fun m' hm' hc => ?_
    have hr := hc.pos (hclass ▸ by simp)
    have hpos := hc.ends.length_pos
    have hlength := hc.length
    exact .bind hc.exact ((classSteps g _ _).typeDeclaration (by omega)) htype fun hc =>
      ih hs hc (by omega)

theorem InUnit.mends (h : InUnit c s) (hs : AtGap g s) (hc : c.Ready r) :
    Mends g compilationUnit compilationUnit c := by
  obtain ⟨imports, c₁, himports, h⟩ := h
  refine .remaining fun m hm => ?_
  have hremoved := List.length_pos_of_ne_nil hs.removed
  have hpos := hc.ends.length_pos
  refine .bind hc.exact (lockstep_usingDirectives (by omega) (by omega)) himports fun hc => ?_
  have hpos := hc.ends.length_pos
  exact .depthBound fun m hm => h.mends hs hc.exact (by omega)

/-- **A missing semicolon costs one diagnostic.** In a text that is read without a report, a semicolon in
front of a closing brace that ends a statement, a field or a directive in a namespace can be left out:
what is read stays the same, and the one thing reported is that a semicolon is missing, at the end of the
lexeme before it. -/
theorem compilationUnit_missing_semicolon {before rest : List Located} {last semi brace : Located}
    {log : Log} {unit : CompilationUnit} {c s : Cursor} (hlog : log.language = .csharp)
    (hends : EndsFile (before ++ last :: semi :: brace :: rest))
    (hsemi : semi.lexeme = .punct ";") (hbrace : brace.lexeme = .punct "\x7d")
    (hrun : compilationUnit.run.run { rest := before ++ last :: semi :: brace :: rest, log } =
      (.ok unit, c)) (hclean : c.log = log)
    (hsite : InUnit { rest := before ++ last :: semi :: brace :: rest, log } s)
    (hs : s.rest = semi :: brace :: rest) :
    ∃ d, compilationUnit.run.run { rest := before ++ last :: brace :: rest, log } = (.ok unit, d) ∧
      d.log.diagnostics =
        log.diagnostics.push ⟨.error, "CS1002", "; expected", some ⟨log.file, last.stop⟩⟩ := by
  let g : Gap := ⟨before ++ [last], [semi], brace :: rest,
    .inr ⟨semi, brace, rest, rfl, rfl, hsemi, hbrace⟩⟩
  have hstop : g.stop = last.stop := by rw [Gap.stop, List.getLast?_concat]; rfl
  have hgap : AtGap g s := ⟨hs, List.cons_ne_nil _ _, List.append_ne_nil_of_right_ne_nil _ (by simp)⟩
  have hready : Cursor.Ready _ { rest := before ++ last :: semi :: brace :: rest, log } :=
    ⟨hends, Nat.le_succ _, hlog⟩
  have hrelated : g.Related { rest := before ++ last :: semi :: brace :: rest, log }
      { rest := before ++ last :: brace :: rest, log } :=
    ⟨⟨[], g.before, rfl, by simp [g, Gap.reach], by simp [g], by simp⟩, hends, hlog, hlog⟩
  obtain ⟨d, hd, -, hreport⟩ := (hsite.mends hgap hready).mends hrelated hrun hclean
  refine ⟨d, hd, ?_⟩
  rw [hreport, hstop, Log.report, hlog]
  rfl

/-- The lexemes of `class C { int n` on one line. -/
def openField : List Located :=
  [⟨.word "class", ⟨1, 1⟩, ⟨1, 6⟩⟩, ⟨.word "C", ⟨1, 7⟩, ⟨1, 8⟩⟩, ⟨.punct "\x7b", ⟨1, 9⟩, ⟨1, 10⟩⟩,
    ⟨.word "int", ⟨1, 11⟩, ⟨1, 14⟩⟩, ⟨.word "n", ⟨1, 15⟩, ⟨1, 16⟩⟩]

/-- The lexemes of the brace that closes `class C { int n; }`. -/
def closedField : List Located := [⟨.punct "\x7d", ⟨1, 18⟩, ⟨1, 19⟩⟩, ⟨.eof, ⟨1, 19⟩, ⟨1, 19⟩⟩]

/-- `class C { int n }` is read as `class C { int n; }` is. -/
theorem compilationUnit_missing_semicolon_field :
    ∃ d, compilationUnit.run.run { rest := openField ++ closedField, log := .forSnippet .csharp } =
        (.ok ⟨[], [⟨"", "C", .class_, none, [⟨"n", ⟨.int, ⟨1, 11⟩⟩, none, false, none, ⟨1, 15⟩⟩], [], [],
          ⟨1, 1⟩⟩]⟩, d) ∧
      d.log.diagnostics = #[⟨.error, "CS1002", "; expected", some ⟨"snippet.cs", ⟨1, 16⟩⟩⟩] := by
  have hends : EndsFile (openField ++ ⟨.punct ";", ⟨1, 16⟩, ⟨1, 17⟩⟩ :: closedField) :=
    .cons _ (.cons _ (.cons _ (.cons _ (.cons _ (.cons _ (.cons _ (.last rfl)))))))
  have hsite : InUnit
      { rest := openField ++ ⟨.punct ";", ⟨1, 16⟩, ⟨1, 17⟩⟩ :: closedField, log := .forSnippet .csharp }
      ⟨⟨.punct ";", ⟨1, 16⟩, ⟨1, 17⟩⟩ :: closedField, ⟨1, 16⟩, .forSnippet .csharp⟩ :=
    ⟨[], _, rfl, .type rfl rfl (.members rfl rfl (.member ⟨by decide, by decide⟩ rfl (by decide)
      (.field rfl (by decide) rfl)))⟩
  exact @compilationUnit_missing_semicolon (openField.take 4) [⟨.eof, ⟨1, 19⟩, ⟨1, 19⟩⟩]
    ⟨.word "n", ⟨1, 15⟩, ⟨1, 16⟩⟩ ⟨.punct ";", ⟨1, 16⟩, ⟨1, 17⟩⟩ ⟨.punct "\x7d", ⟨1, 18⟩, ⟨1, 19⟩⟩ _ _ _ _
    rfl hends rfl rfl rfl rfl hsite rfl

end CilScope.Source.CSharp
