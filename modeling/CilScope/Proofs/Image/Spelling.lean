import CilScope.Proofs.Image.Twin
import CilScope.Proofs.Source.VisualBasic
import CilScope.Proofs.Spelling.VisualBasic

/-!
# Letter case in Visual Basic

The two ends of a compilation in another spelling meet here: respelled lexemes are read to the respelled
syntax tree, and that is compiled to the same image up to the spelling. In lower case all spellings of a
Visual Basic program are one, so two programs whose lexemes differ in letter case only are compiled alike
(`generate_letterCase`).
-/

namespace CilScope

/-- The text with its letters in lower case. -/
def lowerCase (text : String) : String := text.map Char.toLower

/-- Names in lower case, and debug information as it is. -/
def Variation.lowerCase : Variation :=
  { spell := CilScope.lowerCase, language := .visualBasic, spelling := .lowerCase, debug := true }

namespace Image

open Source

/-- What comes out of a compilation, with the declared names and the messages in lower case. -/
def lowerCased : Except GenerationFault (Option Image × Log) →
    Except GenerationFault (Option Image × Log)
  | .error fault => .error (fault.respell lowerCase)
  | .ok (image, log) => .ok (image.map (·.vary .lowerCase), log.respell lowerCase)

/-- A syntax tree in lower case is compiled to the same. -/
theorem lowerCased_generate_respell (options : CodeOptions) (mvid : Vector UInt8 16)
    (unit : CompilationUnit) {log log' : Log} (hlog : log.Alike lowerCase log') :
    lowerCased (generate .visualBasic options mvid (unit.respell lowerCase) log') =
      lowerCased (generate .visualBasic options mvid unit log) := by
  have htwin := twin_generate (v := .lowerCase) hlog options mvid unit
  rw [show CodeOptions.vary .lowerCase options = options by
    rw [CodeOptions.vary, show Variation.lowerCase.debug = true from rfl, Bool.and_true]] at htwin
  change TwinResult .lowerCase _ (generate .visualBasic options mvid unit log)
    (generate .visualBasic options mvid (unit.respell lowerCase) log') at htwin
  generalize generate .visualBasic options mvid unit log = first at htwin ⊢
  generalize generate .visualBasic options mvid (unit.respell lowerCase) log' = second at htwin ⊢
  cases htwin with
  | error h => exact congrArg Except.error h
  | @ok r r' h =>
    obtain ⟨image, log₁⟩ := r
    obtain ⟨image', log₂⟩ := r'
    obtain ⟨hlog, himage⟩ := h
    have hlog : log₂.respell lowerCase = log₁.respell lowerCase := hlog.respell_eq
    have himage : image'.map (·.vary .lowerCase) = image.map (·.vary .lowerCase) := by
      cases himage with
      | none => rfl
      | some h => exact congrArg some h
    rw [lowerCased, lowerCased, hlog, himage]

/-- **Visual Basic does not tell upper case from lower case.** Lexemes that differ in the letter case of
words only are both not read, or to trees that are compiled to the same: with the same diagnostics up to
the letter case of the messages, and to no image or to images that are the same up to the letter case of
the names that are declared. -/
theorem generate_letterCase (options : CodeOptions) (mvid : Vector UInt8 16) {ts ts' : List Located}
    {log log' : Log} (hlanguage : log.language = .visualBasic)
    (hlexemes : ts'.map (·.respell lowerCase) = ts.map (·.respell lowerCase))
    (hlog : log'.respell lowerCase = log.respell lowerCase) :
    let read := (compilationUnit .visualBasic).run.run { rest := ts, log }
    let read' := (compilationUnit .visualBasic).run.run { rest := ts', log := log' }
    read'.2.log.respell lowerCase = read.2.log.respell lowerCase ∧
      (read.1 = .error .abort ∧ read'.1 = .error .abort ∨
        ∃ unit unit', read.1 = .ok unit ∧ read'.1 = .ok unit' ∧
          lowerCased (generate .visualBasic options mvid unit' read'.2.log) =
            lowerCased (generate .visualBasic options mvid unit read.2.log)) := by
  have halike : log.Alike lowerCase log' := ⟨hlanguage ▸ .lowerCase, hlog⟩
  have hlanguage' : log'.language = .visualBasic := halike.language_eq.trans hlanguage
  -- both readings are compared with that of the lexemes in lower case
  have hread := VisualBasic.mirrors_compilationUnit (f := lowerCase) { rest := ts, log }
    { rest := ts.map (·.respell lowerCase), log := log' } ⟨hlanguage, rfl, rfl, halike⟩
  have hread' := VisualBasic.mirrors_compilationUnit (f := lowerCase) { rest := ts', log := log' }
    { rest := ts.map (·.respell lowerCase), log := log' }
    ⟨hlanguage', hlexemes.symm, rfl, hlanguage' ▸ .lowerCase, rfl⟩
  intro read read'
  obtain ⟨hresult, hcursor⟩ : _ = read.1.map _ ∧ read.2.Respelled lowerCase _ := hread
  obtain ⟨hresult', hcursor'⟩ : _ = read'.1.map _ ∧ read'.2.Respelled lowerCase _ := hread'
  refine ⟨hcursor'.log.respell_eq.symm.trans hcursor.log.respell_eq, ?_⟩
  rw [hresult] at hresult'
  cases hok : read.1 with
  | error e =>
    cases hok' : read'.1 with
    | error e' =>
      rw [Parser.Progress.eq_abort VisualBasic.progress_compilationUnit hok,
        Parser.Progress.eq_abort VisualBasic.progress_compilationUnit hok']
      exact .inl ⟨rfl, rfl⟩
    | ok unit' =>
      rw [hok, hok'] at hresult'
      cases hresult'
  | ok unit =>
    cases hok' : read'.1 with
    | error e' =>
      rw [hok, hok'] at hresult'
      cases hresult'
    | ok unit' =>
      rw [hok, hok'] at hresult'
      have hunit : unit.respell lowerCase = unit'.respell lowerCase := Except.ok.inj hresult'
      refine .inr ⟨unit, unit', rfl, rfl, ?_⟩
      rw [← lowerCased_generate_respell options mvid unit hcursor.log,
        ← lowerCased_generate_respell options mvid unit' hcursor'.log, hunit]

/-- The lexemes of a module with an empty procedure, whose words are given. -/
def moduleLexemes (module_ name sub main end_ : String) : List Located :=
  [⟨.word module_, ⟨1, 1⟩, ⟨1, 7⟩⟩, ⟨.word name, ⟨1, 8⟩, ⟨1, 12⟩⟩, ⟨.newline, ⟨1, 12⟩, ⟨2, 1⟩⟩,
   ⟨.word sub, ⟨2, 1⟩, ⟨2, 4⟩⟩, ⟨.word main, ⟨2, 5⟩, ⟨2, 9⟩⟩, ⟨.punct "(", ⟨2, 9⟩, ⟨2, 10⟩⟩,
   ⟨.punct ")", ⟨2, 10⟩, ⟨2, 11⟩⟩, ⟨.newline, ⟨2, 11⟩, ⟨3, 1⟩⟩,
   ⟨.word end_, ⟨3, 1⟩, ⟨3, 4⟩⟩, ⟨.word sub, ⟨3, 5⟩, ⟨3, 8⟩⟩, ⟨.newline, ⟨3, 8⟩, ⟨4, 1⟩⟩,
   ⟨.word end_, ⟨4, 1⟩, ⟨4, 4⟩⟩, ⟨.word module_, ⟨4, 5⟩, ⟨4, 11⟩⟩, ⟨.eof, ⟨4, 11⟩, ⟨4, 11⟩⟩]

/-- The module in two spellings. -/
theorem generate_letterCase_module :
    let ts := moduleLexemes "Module" "Test" "Sub" "Main" "End"
    let ts' := moduleLexemes "MODULE" "tEST" "sub" "MAIN" "eNd"
    let log := Log.forSnippet .visualBasic
    let options : CodeOptions := ⟨false, true, true, ⟨4, 0, 0, 0⟩, true⟩
    let read := (compilationUnit .visualBasic).run.run { rest := ts, log }
    let read' := (compilationUnit .visualBasic).run.run { rest := ts', log }
    log.language = .visualBasic ∧
      ts'.map (·.respell lowerCase) = ts.map (·.respell lowerCase) ∧
      read'.2.log.respell lowerCase = read.2.log.respell lowerCase ∧
      (read.1 = .error .abort ∧ read'.1 = .error .abort ∨
        ∃ unit unit', read.1 = .ok unit ∧ read'.1 = .ok unit' ∧
          lowerCased (generate .visualBasic options (Vector.replicate 16 0) unit' read'.2.log) =
            lowerCased (generate .visualBasic options (Vector.replicate 16 0) unit read.2.log)) := by
  have hword {a b : String} (h : a.toList.map Char.toLower = b.toList.map Char.toLower) :
      lowerCase a = lowerCase b := by
    rw [lowerCase, lowerCase, ← String.toList_inj, String.toList_map, String.toList_map, h]
  have hrespell (a b c d e : String) : (moduleLexemes a b c d e).map (·.respell lowerCase) =
      moduleLexemes (lowerCase a) (lowerCase b) (lowerCase c) (lowerCase d) (lowerCase e) := rfl
  have hlexemes : (moduleLexemes "MODULE" "tEST" "sub" "MAIN" "eNd").map (·.respell lowerCase) =
      (moduleLexemes "Module" "Test" "Sub" "Main" "End").map (·.respell lowerCase) := by
    rw [hrespell, hrespell, hword (a := "MODULE") (b := "Module") (by decide),
      hword (a := "tEST") (b := "Test") (by decide), hword (a := "sub") (b := "Sub") (by decide),
      hword (a := "MAIN") (b := "Main") (by decide), hword (a := "eNd") (b := "End") (by decide)]
  exact ⟨rfl, hlexemes,
    generate_letterCase ⟨false, true, true, ⟨4, 0, 0, 0⟩, true⟩ (Vector.replicate 16 0) rfl hlexemes rfl⟩

end Image

end CilScope
