import CilScope.Proofs.Source.Progress
import CilScope.Proofs.Spelling.Tree

/-!
# Reading lexemes in another spelling

The lexemes of a Visual Basic program are read twice, the second time respelled. A parser `Mirrors`
another one if it then stops where the other one stops, with the same reports, and returns what the other
one returns, respelled. This is closed under the steps that parsers are made of.
-/

namespace CilScope.Source

/-- Cursors in front of the same lexemes up to the spelling. -/
structure Cursor.Respelled (f : String → String) (c c' : Cursor) : Prop where
  language : c.log.language = .visualBasic
  rest : c'.rest = c.rest.map (·.respell f)
  previousStop : c'.previousStop = c.previousStop
  log : c.log.Alike f c'.log

namespace Cursor.Respelled

variable {f : String → String} {c c' : Cursor}

theorem spelling (h : c.Respelled f c') : Respelling .visualBasic f := h.language ▸ h.log.spelling

/-- What is read of the first lexeme is read of the respelled one. -/
theorem headD (h : c.Respelled f c') :
    c'.rest.headD ⟨.eof, {}, {}⟩ = (c.rest.headD ⟨.eof, {}, {}⟩).respell f := by
  rw [h.rest]
  cases c.rest <;> rfl

end Cursor.Respelled

theorem Lexeme.respell_eq_iff {f : String → String} {t u : Lexeme} (hu : ∀ w, u ≠ .word w) :
    t.respell f = u ↔ t = u := by
  cases t with
  | word w => exact ⟨fun h => absurd h.symm (hu _), fun h => absurd h.symm (hu _)⟩
  | int | str | punct | newline | eof => rfl

namespace Parser

/-- The second parser reads respelled lexemes as the first one reads the lexemes. -/
def Mirrors (f : String → String) {α β : Type} (p : Parser α) (p' : Parser β) (r : α → β) : Prop :=
  ∀ c c', c.Respelled f c' →
    (p'.run.run c').1 = (p.run.run c).1.map r ∧ (p.run.run c).2.Respelled f (p'.run.run c').2

variable {f : String → String} {α α' β β' : Type}

namespace Mirrors

variable {p q : Parser α} {p' q' : Parser α'} {r : α → α'} {k : α → Parser β} {k' : α' → Parser β'}
  {s : β → β'}

theorem pure {a : α} {a' : α'} (h : a' = r a) : Mirrors f (Pure.pure a) (Pure.pure a') r :=
  fun _ _ hc => ⟨congrArg Except.ok h, hc⟩

theorem bind (hp : Mirrors f p p' r) (hk : ∀ a, Mirrors f (k a) (k' (r a)) s) :
    Mirrors f (p >>= k) (p' >>= k') s := by
  intro c c' hc
  have hp := hp c c' hc
  rw [run_bind, run_bind]
  generalize p.run.run c = x at hp ⊢
  generalize p'.run.run c' = x' at hp ⊢
  obtain ⟨_ | a, d⟩ := x
  all_goals
    obtain ⟨result', d'⟩ := x'
    obtain ⟨rfl, hd⟩ := hp
  · exact ⟨rfl, hd⟩
  · exact hk a d d' hd

/-- A step whose result has no spelling. -/
theorem same {p p' : Parser α} (hp : Mirrors f p p' id) {k' : α → Parser β'}
    (hk : ∀ a, Mirrors f (k a) (k' a) s) : Mirrors f (p >>= k) (p' >>= k') s :=
  hp.bind hk

theorem map (hp : Mirrors f p p' r) {g : α → β} {g' : α' → β'} (hg : ∀ a, g' (r a) = s (g a)) :
    Mirrors f (g <$> p) (g' <$> p') s := by
  rw [map_eq_pure_bind, map_eq_pure_bind]
  exact hp.bind fun a => pure (hg a)

theorem ite {b : Prop} [Decidable b] (hp : Mirrors f p p' r) (hq : Mirrors f q q' r) :
    Mirrors f (if b then p else q) (if b then p' else q') r := by
  split
  · exact hp
  · exact hq

/-- A part that may be left out, behind the lexeme that announces it. -/
theorem optional {e e' : Parser Bool} (he : Mirrors f e e' id) (hp : Mirrors f p p' r)
    {k : Option α → Parser β} {k' : Option α' → Parser β'}
    (hk : ∀ x, Mirrors f (k x) (k' (x.map r)) s) :
    Mirrors f (e >>= fun yes => if yes = true then some <$> p >>= k else Pure.pure none >>= k)
      (e' >>= fun yes => if yes = true then some <$> p' >>= k' else Pure.pure none >>= k') s :=
  have hsome : Mirrors f (some <$> p) (some <$> p') (Option.map r) := hp.map fun _ => rfl
  have hnone : Mirrors f (Pure.pure none) (Pure.pure none) (Option.map r) := pure rfl
  he.same fun _ => .ite (hsome.bind hk) (hnone.bind hk)

/-- What depends on the spelling rules holds where lexemes are read. -/
theorem spelling (h : Respelling .visualBasic f → Mirrors f p p' r) : Mirrors f p p' r :=
  fun c c' hc => h hc.spelling c c' hc

end Mirrors

/-! ### Looking ahead -/

namespace Mirrors

/-- The language that is read is Visual Basic. -/
theorem language {k : Language → Parser β} {k' : Language → Parser β'} {s : β → β'}
    (hk : Mirrors f (k .visualBasic) (k' .visualBasic) s) :
    Mirrors f (Parser.language >>= k) (Parser.language >>= k') s := by
  intro c c' hc
  have hrun : Parser.language.run.run c = (.ok .visualBasic, c) := by
    rw [← hc.language]
    rfl
  have hrun' : Parser.language.run.run c' = (.ok .visualBasic, c') := by
    rw [← hc.language, ← hc.log.language_eq]
    rfl
  rw [run_bind_of_ok hrun, run_bind_of_ok hrun']
  exact hk c c' hc

end Mirrors

theorem mirrors_remaining : Mirrors f remaining remaining id := by
  refine fun c c' hc => ⟨congrArg Except.ok ?_, hc⟩
  rw [hc.rest, List.length_map]
  rfl

theorem mirrors_position : Mirrors f position position id := by
  refine fun c c' hc => ⟨congrArg Except.ok ?_, hc⟩
  have hstart := congrArg Located.start hc.headD
  exact hstart

theorem mirrors_previousStop : Mirrors f previousStop previousStop id :=
  fun _ _ hc => ⟨congrArg Except.ok hc.previousStop, hc⟩

theorem mirrors_lexemeAt (n : Nat) : Mirrors f (lexemeAt n) (lexemeAt n) (Lexeme.respell f) := by
  refine fun c c' hc => ⟨congrArg Except.ok ?_, hc⟩
  rw [hc.rest, List.getElem?_map]
  cases c.rest[n]? <;> rfl

theorem mirrors_atEof : Mirrors f atEof atEof id :=
  (mirrors_lexemeAt 0).bind fun _ => .pure (decide_eq_decide.2 (Lexeme.respell_eq_iff nofun))

theorem mirrors_isPunctAt (n : Nat) (p : String) : Mirrors f (isPunctAt n p) (isPunctAt n p) id :=
  (mirrors_lexemeAt n).bind fun _ => .pure (decide_eq_decide.2 (Lexeme.respell_eq_iff nofun))

theorem mirrors_isWordAt (n : Nat) (keyword : String) :
    Mirrors f (isWordAt n keyword) (isWordAt n keyword) id := by
  refine .spelling fun h => (mirrors_lexemeAt n).bind fun t => ?_
  cases t with
  | word w => exact .language (.pure (h.same w keyword))
  | int | str | punct | newline | eof => exact .pure rfl

/-- Whether a word is no identifier does not depend on its spelling. -/
theorem isReserved_respell (h : Respelling .visualBasic f) (w : String) :
    isReserved .visualBasic (f w) = isReserved .visualBasic w :=
  List.any_congr rfl fun _ => h.sameName_congr rfl (h.idem w)

theorem mirrors_isIdentifierAt (n : Nat) : Mirrors f (isIdentifierAt n) (isIdentifierAt n) id := by
  refine .spelling fun h => (mirrors_lexemeAt n).bind fun t => ?_
  cases t with
  | word w => exact .language (.pure (congrArg _ (isReserved_respell h w)))
  | int | str | punct | newline | eof => exact .pure rfl

theorem mirrors_isAnyWordAt (n : Nat) : Mirrors f (isAnyWordAt n) (isAnyWordAt n) id := by
  refine (mirrors_lexemeAt n).bind fun t => ?_
  cases t <;> exact .pure rfl

theorem mirrors_typeKeyword? :
    Mirrors f typeKeyword? typeKeyword? (Option.map (TypeName.respell f)) := by
  refine .spelling fun h => .language ((mirrors_lexemeAt 0).bind fun t => ?_)
  cases t with
  | word w =>
    refine .pure ?_
    have hsame (k : String × TypeName) : Language.visualBasic.sameName (f w) k.1 =
        Language.visualBasic.sameName w k.1 := h.same w k.1
    simp only [hsame, Option.map_map]
    refine Option.map_congr fun k hk => ?_
    have hmem := List.mem_of_find?_eq_some hk
    simp only [typeKeywords, List.mem_cons, List.not_mem_nil, or_false] at hmem
    rcases hmem with rfl | rfl | rfl | rfl <;> rfl
  | int | str | punct | newline | eof => exact .pure rfl

/-! ### Reading and reporting -/

theorem mirrors_advance : Mirrors f advance advance (Located.respell f) := by
  rintro ⟨rest, stop, log⟩ ⟨rest', stop', log'⟩ ⟨hlanguage, hrest, hstop, hlog⟩
  obtain rfl : stop' = stop := hstop
  obtain rfl : rest' = rest.map (·.respell f) := hrest
  cases rest with
  | nil => exact ⟨rfl, hlanguage, rfl, rfl, hlog⟩
  | cons t rest =>
    change ((ite ((t.respell f).lexeme ≠ .eof) _ _ : Parser Located).run.run _).1 =
      ((ite (t.lexeme ≠ .eof) _ _ : Parser Located).run.run _).1.map _ ∧
      Cursor.Respelled f ((ite (t.lexeme ≠ .eof) _ _ : Parser Located).run.run _).2
        ((ite ((t.respell f).lexeme ≠ .eof) _ _ : Parser Located).run.run _).2
    by_cases ht : t.lexeme = .eof
    · have ht' : (t.respell f).lexeme = .eof := (Lexeme.respell_eq_iff (u := .eof) nofun).2 ht
      rw [if_neg (not_not_intro ht), if_neg (not_not_intro ht')]
      exact ⟨rfl, hlanguage, rfl, rfl, hlog⟩
    · have ht' : (t.respell f).lexeme ≠ .eof :=
        fun h => ht ((Lexeme.respell_eq_iff (u := .eof) nofun).1 h)
      rw [if_pos ht, if_pos ht']
      exact ⟨rfl, hlanguage, rfl, rfl, hlog⟩

namespace Mirrors

variable {r : α → α'}

theorem report (pos : Position) {cause cause' : Cause} (h : cause'.respell f = cause.respell f) :
    Mirrors f (Parser.report pos cause) (Parser.report pos cause') id :=
  fun _ _ hc => ⟨rfl, { hc with log := hc.log.report pos h }⟩

theorem fail (pos : Position) {cause cause' : Cause} (h : cause'.respell f = cause.respell f) :
    Mirrors f (Parser.fail pos cause) (Parser.fail pos cause') r :=
  fun _ _ hc => ⟨rfl, { hc with log := hc.log.report pos h }⟩

/-- What would follow a stop does not run. -/
theorem fail_bind {γ : Type} (pos : Position) {cause cause' : Cause}
    (h : cause'.respell f = cause.respell f) {k : γ → Parser α} {k' : γ → Parser α'} :
    Mirrors f (Parser.fail pos cause >>= k) (Parser.fail pos cause' >>= k') r :=
  fun _ _ hc => ⟨rfl, { hc with log := hc.log.report pos h }⟩

theorem abort {e : Abort} : Mirrors f (throw e) (throw e) r := fun _ _ hc => ⟨rfl, hc⟩

/-- The text of the next lexeme in messages is the same up to the spelling. -/
theorem describe {k : String → Parser α} {k' : String → Parser α'}
    (hk : ∀ d d', f d' = f d → Mirrors f (k d) (k' d') r) :
    Mirrors f (Parser.describe >>= k) (Parser.describe >>= k') r := by
  refine .spelling fun h => ?_
  rw [Parser.describe, bind_assoc, bind_assoc]
  refine (mirrors_lexemeAt 0).bind fun t => ?_
  cases t with
  | word w => exact hk w (f w) (h.idem w)
  | int | str | punct | newline | eof => exact hk _ _ rfl

end Mirrors

theorem mirrors_eatPunct (p : String) : Mirrors f (eatPunct p) (eatPunct p) id :=
  (mirrors_isPunctAt 0 p).same fun _ => .ite (.bind mirrors_advance fun _ => .pure rfl) (.pure rfl)

/-- Two readings of Visual Basic do not read the punctuation of C#. -/
theorem mirrors_eatCSharpPunct (p : String) : Mirrors f (eatCSharpPunct p) (eatCSharpPunct p) id :=
  .language (.pure rfl)

theorem mirrors_eatWord (keyword : String) : Mirrors f (eatWord keyword) (eatWord keyword) id :=
  (mirrors_isWordAt 0 keyword).same fun _ => .ite (.bind mirrors_advance fun _ => .pure rfl) (.pure rfl)

theorem respell_expectation (language : Language) (p : String) {found found' : String}
    (h : f found' = f found) :
    (expectation language p found').respell f = (expectation language p found).respell f := by
  unfold expectation
  split
  · rfl
  · rfl
  · rfl
  · rfl
  · exact congrArg Cause.syntaxError h

theorem mirrors_expectPunct (p : String) : Mirrors f (expectPunct p) (expectPunct p) id := by
  refine (mirrors_eatPunct p).same fun _ => .ite (.pure rfl) ?_
  refine .language (.describe fun d d' hd => ?_)
  have hcause := respell_expectation .visualBasic p hd
  exact .ite (.same mirrors_position fun pos => .fail pos hcause)
    (.same mirrors_previousStop fun pos => .fail pos hcause)

theorem mirrors_unexpected {r : α → α'} : Mirrors f unexpected unexpected r :=
  .same mirrors_position fun pos => .describe fun _ _ hd => .fail pos (congrArg Cause.syntaxError hd)

/-! ### Names and types -/

theorem mirrors_identifier : Mirrors f identifier identifier f := by
  refine .spelling fun h => (mirrors_lexemeAt 0).bind fun t => ?_
  cases t with
  | word w =>
    refine .language ?_
    dsimp only [Lexeme.respell]
    rw [isReserved_respell h]
    refine .ite (.same mirrors_position fun pos => ?_) (.bind mirrors_advance fun _ => .pure rfl)
    exact .fail_bind pos rfl
  | int | str | punct | newline | eof => exact .same mirrors_position fun pos => .fail pos rfl

theorem mirrors_dottedRest (n : Nat) (name : String) :
    Mirrors f (dottedRest n name) (dottedRest n (f name)) f := by
  induction n generalizing name with
  | zero => exact .pure rfl
  | succ n ih =>
    refine (mirrors_isPunctAt 0 ".").same fun _ => (mirrors_isAnyWordAt 1).same fun _ => ?_
    refine .ite (.bind mirrors_advance fun _ => .bind mirrors_identifier fun part => ?_) (.pure rfl)
    refine .spelling fun h => ?_
    have hname : f name ++ "." ++ f part = f (name ++ "." ++ part) := by
      rw [h.append, h.append, h.fixed "." (by simp)]
    rw [hname]
    exact ih _

theorem mirrors_qualifiedName : Mirrors f qualifiedName qualifiedName f :=
  .same mirrors_remaining fun n => .bind mirrors_identifier fun name => mirrors_dottedRest n name

theorem mirrors_arrayRest (n : Nat) (name : TypeName) :
    Mirrors f (arrayRest n name) (arrayRest n (name.respell f)) (TypeName.respell f) := by
  induction n generalizing name with
  | zero => exact .pure rfl
  | succ n ih =>
    refine .language ((mirrors_isPunctAt 0 _).same fun _ => (mirrors_isPunctAt 1 _).same fun _ => ?_)
    refine .ite ?_ (.pure rfl)
    exact .bind mirrors_advance fun _ => .bind mirrors_advance fun _ => ih (.array name)

theorem mirrors_typeUse : Mirrors f typeUse typeUse (TypeUse.respell f) := by
  refine .same mirrors_position fun pos => .bind mirrors_typeKeyword? fun type => ?_
  have hrest (element : TypeName) :
      Mirrors f (do return (⟨← arrayRest (← remaining) element, pos⟩ : TypeUse))
        (do return (⟨← arrayRest (← remaining) (element.respell f), pos⟩ : TypeUse))
        (TypeUse.respell f) :=
    .same mirrors_remaining fun n => (mirrors_arrayRest n element).bind fun _ => .pure rfl
  cases type with
  | none =>
    have hnamed : Mirrors f (TypeName.named <$> qualifiedName) (TypeName.named <$> qualifiedName)
        (TypeName.respell f) := .map mirrors_qualifiedName fun _ => rfl
    exact hnamed.bind hrest
  | some type => exact .bind mirrors_advance fun _ => hrest type

end Parser

end CilScope.Source
