import CilScope.Proofs.Source.Loops.CSharp
import CilScope.Proofs.Source.Loops.VisualBasic

/-!
# Parsers consume their input

What the parsers of both languages read, put together: the parsers that have to read something get
ahead, the turns of their loops get ahead or leave, the end of the file is never passed, and so every
text is read to a tree or to a reported error (`parsers_consume`). Recursion alone does not stop
reading: the depth that the calls are started with is never used up.
-/

namespace CilScope.Source

open CilScope.Source.Parser

/-! ### The lexemes of a text -/

theorem endsFile_scanAll (language : Language) (position : Position) (before : Option Char)
    (cs : List Char) (log : Log) :
    EndsFile (Lexeme.scanAll language position before cs log).1 := by
  fun_induction Lexeme.scanAll language position before cs log with
  | case1 => exact .last rfl
  | case2 => exact .last rfl
  | case3 =>
    rename_i htail _ _ _ ih
    rw [htail] at ih
    exact .cons _ ih
  | case4 =>
    rename_i htail _ _ ih
    rwa [htail] at ih

theorem endsFile_collapse {ts : List Located} (h : EndsFile ts) (previous : Option Lexeme) :
    EndsFile (Lexeme.collapse previous ts) := by
  induction h generalizing previous with
  | last h =>
    rw [Lexeme.collapse, if_neg (by rw [h]; nofun)]
    exact .last h
  | cons t _ ih =>
    rw [Lexeme.collapse]
    split
    · exact ih previous
    · exact .cons t (ih _)

theorem endsFile_tokenize (language : Language) (source : String) (log : Log) :
    EndsFile (Lexeme.tokenize language source log).1 :=
  endsFile_collapse (endsFile_scanAll ..) none

/-! ### What is read -/

/-- A parser that gets ahead where it returns, wherever it is called. -/
def Advances {α : Type} (p : Parser α) : Prop := ∀ c : Cursor, Good c 1 (p.run.run c)

/-- A parser that gets ahead with the depth that it needs for the lexemes ahead. -/
def AdvancesWithin {α : Type} (enough : Nat → Nat) (p : Nat → Parser α) : Prop :=
  ∀ (c : Cursor) (depth : Nat), enough c.rest.length ≤ depth → Good c 1 ((p depth).run.run c)

theorem advances_of_progress {α : Type} {p : Parser α} (h : ∀ {r}, Progress Any r 1 p) :
    Advances p :=
  fun c => h c (Nat.le_refl _) trivial

theorem advancesWithin_of_progress {α : Type} {enough : Nat → Nat} {p : Nat → Parser α}
    (h : ∀ {r depth}, enough r ≤ depth → Progress Any r 1 (p depth)) : AdvancesWithin enough p :=
  fun c _ hdepth => h hdepth c (Nat.le_refl _) trivial

/-- What the parsers of types and expressions read. -/
structure ExpressionsConsume : Prop where
  typeUse : Advances typeUse
  expression : Advances expression
  dottedRest : Counts dottedRest dottedTurn
  arrayRest : Counts arrayRest arrayTurn
  binaryRest : ∀ (level : Level) (tighter : List Level), tighter.length ≤ 8 →
    Loops (16 * · + 5 + tighter.length) (binaryRest · level tighter) (binaryTurn level tighter)
  postfixRest : Loops (16 * · + 2) postfixRest postfixTurn
  argumentList : Loops (16 * · + 13) (fun depth (_ : Unit) => argumentList depth)
    fun depth => listTurn do binary depth (levels (← language))

theorem expressionsConsume : ExpressionsConsume where
  typeUse := advances_of_progress progress_typeUse
  expression := advances_of_progress progress_expression
  dottedRest := counts_dottedRest
  arrayRest := counts_arrayRest
  binaryRest level _ htighter := loops_binaryRest level htighter
  postfixRest := loops_postfixRest
  argumentList := loops_argumentList

/-- What the parsers of C# read. -/
structure CSharp.Consumes : Prop where
  statement : AdvancesWithin (16 * · + 2) CSharp.statement
  simpleStatement : Advances CSharp.simpleStatement
  localDeclaration : Advances CSharp.localDeclaration
  declarator : ∀ type, Advances (CSharp.declarator type)
  method : ∀ name ret access isStatic pos, Advances (CSharp.method name ret access isStatic pos)
  typeDeclaration : ∀ namespace_ access isStatic pos,
    AdvancesWithin (16 * · + 1) (CSharp.typeDeclaration namespace_ access isStatic pos)
  modifiersFrom : Counts (fun n s => CSharp.modifiersFrom n s.1 s.2) CSharp.modifierTurn
  declarators : ∀ type,
    Counts (fun n (_ : Unit) => CSharp.declarators type n) (listTurn (CSharp.declarator type))
  statements :
    Loops (16 * · + 3) (fun depth (_ : Unit) => CSharp.statements depth) CSharp.statementTurn
  parameters : Counts (fun n (_ : Unit) => CSharp.parameters n) (listTurn CSharp.parameter)
  fields : ∀ type access isStatic, Counts (fun n s => CSharp.fields type access isStatic n s.1 s.2)
    (CSharp.fieldTurn type access isStatic)
  members : Loops (16 * · + 2) CSharp.members CSharp.memberTurn
  usingDirectives : Counts (fun n (_ : Unit) => CSharp.usingDirectives n) CSharp.directiveTurn
  declarations : ∀ namespace_ nested, Loops (16 * · + 1) (CSharp.declarations · namespace_ nested)
    (CSharp.declarationTurn namespace_ nested)
  /-- Looking ahead is not cut short either. -/
  typeNameEnd : ∀ (c : Cursor) (steps m n : Nat), c.rest.length ≤ n + steps →
    c.rest.length ≤ n + m →
    (CSharp.typeNameEnd steps n).run.run c = (CSharp.typeNameEnd m n).run.run c

theorem CSharp.consumes : CSharp.Consumes where
  statement := advancesWithin_of_progress (CSharp.statementDepth _).statement
  simpleStatement := advances_of_progress CSharp.progress_simpleStatement
  localDeclaration := advances_of_progress CSharp.progress_localDeclaration
  declarator type := advances_of_progress (CSharp.progress_declarator type)
  method _ _ _ _ _ := advances_of_progress CSharp.progress_method
  typeDeclaration _ _ _ _ := advancesWithin_of_progress (CSharp.classDepth _).typeDeclaration
  modifiersFrom := CSharp.counts_modifiersFrom
  declarators := CSharp.counts_declarators
  statements := CSharp.loops_statements
  parameters := CSharp.counts_parameters
  fields := CSharp.counts_fields
  members := CSharp.loops_members
  usingDirectives := CSharp.counts_usingDirectives
  declarations := CSharp.loops_declarations
  typeNameEnd _ _ _ _ := CSharp.steady_typeNameEnd

/-- What the parsers of Visual Basic read. -/
structure VisualBasic.Consumes : Prop where
  statement : AdvancesWithin (16 * · + 1) VisualBasic.statement
  simpleStatement : Advances VisualBasic.simpleStatement
  declarator : Advances VisualBasic.declarator
  method : ∀ access isStatic pos, Advances (VisualBasic.method access isStatic pos)
  typeDeclaration : ∀ namespace_ access pos,
    AdvancesWithin (16 * · + 1) (VisualBasic.typeDeclaration namespace_ access pos)
  skipNewlinesFrom :
    Counts (fun n (_ : Unit) => VisualBasic.skipNewlinesFrom n) VisualBasic.newlineTurn
  modifiersFrom :
    Counts (fun n s => VisualBasic.modifiersFrom n s.1 s.2) VisualBasic.modifierTurn
  locals :
    Counts (fun n (_ : Unit) => VisualBasic.locals n) (listTurn VisualBasic.localDeclarator)
  statements : Loops (16 * · + 2) (fun depth (_ : Unit) => VisualBasic.statements depth)
    VisualBasic.statementTurn
  parameters :
    Counts (fun n (_ : Unit) => VisualBasic.parameters n) (listTurn VisualBasic.parameter)
  fields : ∀ access isStatic, Counts (fun n (_ : Unit) => VisualBasic.fields access isStatic n)
    (listTurn (VisualBasic.field access isStatic))
  members : ∀ isModule,
    Loops (16 * · + 2) (VisualBasic.members isModule) (VisualBasic.memberTurn isModule)
  importStatements :
    Counts (fun n (_ : Unit) => VisualBasic.importStatements n) VisualBasic.importTurn
  declarations : ∀ namespace_ opened,
    Loops (16 * · + 1) (VisualBasic.declarations · namespace_ opened)
      (VisualBasic.declarationTurn namespace_ opened)

theorem VisualBasic.consumes : VisualBasic.Consumes where
  statement := advancesWithin_of_progress (VisualBasic.statementDepth _).statement
  simpleStatement := advances_of_progress VisualBasic.progress_simpleStatement
  declarator := advances_of_progress VisualBasic.progress_declarator
  method _ _ _ := advances_of_progress VisualBasic.progress_method
  typeDeclaration _ _ _ := advancesWithin_of_progress (VisualBasic.typeDepth _).typeDeclaration
  skipNewlinesFrom := VisualBasic.counts_skipNewlinesFrom
  modifiersFrom := VisualBasic.counts_modifiersFrom
  locals := VisualBasic.counts_locals
  statements := VisualBasic.loops_statements
  parameters := VisualBasic.counts_parameters
  fields := VisualBasic.counts_fields
  members := VisualBasic.loops_members
  importStatements := VisualBasic.counts_importStatements
  declarations := VisualBasic.loops_declarations

/-! ### Reading comes to an end -/

/-- Reading some lexemes comes to an end, with a tree or behind a reported error, and the end of the
file is still ahead. -/
def Returns (language : Language) (lexemes : List Located) (log : Log) : Prop :=
  ∃ c' : Cursor, Cursor.Reads { rest := lexemes, log } c' ∧ EndsFile c'.rest ∧
    ((∃ unit, (compilationUnit language).run.run { rest := lexemes, log } = (.ok unit, c')) ∨
      (compilationUnit language).run.run { rest := lexemes, log } = (.error .abort, c') ∧
        c'.log.hasErrors)

theorem progress_compilationUnit (language : Language) {N : Lexeme → Prop} {r : Nat} :
    Progress N r 0 (compilationUnit language) := by
  cases language with
  | csharp => exact CSharp.progress_compilationUnit
  | visualBasic => exact VisualBasic.progress_compilationUnit

theorem returns (language : Language) {lexemes : List Located} (log : Log) (h : EndsFile lexemes) :
    Returns language lexemes log := by
  have hgood := progress_compilationUnit language (N := Any) { rest := lexemes, log }
    (Nat.le_refl _) trivial
  unfold Returns
  generalize (compilationUnit language).run.run { rest := lexemes, log } = x at hgood
  obtain ⟨e | unit, c'⟩ := x
  · obtain ⟨hreads, rfl, herrors⟩ := hgood
    exact ⟨c', hreads, hreads.ends h, .inr ⟨rfl, herrors h⟩⟩
  · exact ⟨c', hgood.1, hgood.1.ends h, .inl ⟨unit, rfl⟩⟩

/-- A text is read to a tree, or an error is reported. -/
theorem parse_cases (language : Language) (source : String) (log : Log) :
    (∃ unit log', parse language source log = (some unit, log')) ∨
      ∃ log', parse language source log = (none, log') ∧ log'.hasErrors := by
  have hparse : parse language source log =
      let x := (compilationUnit language).run.run
        { rest := (Lexeme.tokenize language source log).1
          log := (Lexeme.tokenize language source log).2 }
      (x.1.toOption, x.2.log) := rfl
  rw [hparse]
  obtain ⟨c', -, -, ⟨unit, hrun⟩ | ⟨hrun, herrors⟩⟩ :=
    returns language (Lexeme.tokenize language source log).2 (endsFile_tokenize language source log)
  · exact .inl ⟨unit, c'.log, by rw [hrun]; rfl⟩
  · exact .inr ⟨c'.log, by rw [hrun]; rfl, herrors⟩

theorem hasErrors_of_parse_eq_none {language : Language} {source : String} {log log' : Log}
    (h : parse language source log = (none, log')) : log'.hasErrors := by
  rcases parse_cases language source log with ⟨unit, _, hparse⟩ | ⟨_, hparse, herrors⟩ <;>
    rw [hparse] at h <;> cases h
  exact herrors

/-- **Both parsers consume their input.** Their statements, declarations, types and expressions get
ahead, so do the turns of their loops that do not leave, the end of the file is never passed, and every
list of lexemes that ends with it is read to an end. The lexemes of a text do, so every text is read to a
tree or to a reported error. -/
theorem parsers_consume :
    ExpressionsConsume ∧ CSharp.Consumes ∧ VisualBasic.Consumes ∧
      (∀ language lexemes log, EndsFile lexemes → Returns language lexemes log) ∧
      ∀ language source log, EndsFile (Lexeme.tokenize language source log).1 ∧
        ((∃ unit log', parse language source log = (some unit, log')) ∨
          ∃ log', parse language source log = (none, log') ∧ log'.hasErrors) :=
  ⟨expressionsConsume, CSharp.consumes, VisualBasic.consumes,
    fun language _ log h => returns language log h,
    fun language source log =>
      ⟨endsFile_tokenize language source log, parse_cases language source log⟩⟩

/-- The lexemes of a class without members. -/
def emptyClass : List Located :=
  [⟨.word "class", ⟨1, 1⟩, ⟨1, 6⟩⟩, ⟨.word "C", ⟨1, 7⟩, ⟨1, 8⟩⟩, ⟨.punct "\x7b", ⟨1, 9⟩, ⟨1, 10⟩⟩,
   ⟨.punct "\x7d", ⟨1, 11⟩, ⟨1, 12⟩⟩, ⟨.eof, ⟨1, 12⟩, ⟨1, 12⟩⟩]

theorem parsers_consume_emptyClass :
    EndsFile emptyClass ∧ Returns .csharp emptyClass (Log.forSnippet .csharp) := by
  have hends : EndsFile emptyClass := .cons _ (.cons _ (.cons _ (.cons _ (.last rfl))))
  obtain ⟨-, -, -, hreturns, -⟩ := parsers_consume
  exact ⟨hends, hreturns .csharp emptyClass _ hends⟩

end CilScope.Source
