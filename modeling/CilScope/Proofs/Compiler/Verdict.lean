import CilScope.Proofs.Except
import CilScope.Proofs.Source.Termination
import CilScope.Workshop

/-!
# The verdict of a compilation

Every stage of the bundled compilers either hands something on to the next stage or has reported an
error. For settings and code that is their last test; for the syntax it is the progress of the
parsers, which never stop without a word. So a compilation makes an artifact exactly if it reports
no error, and a workshop that takes its output in never meets a missing artifact.
-/

namespace CilScope

theorem Log.hasErrors_iff {log : Log} :
    log.hasErrors ↔ ∃ d ∈ log.diagnostics.toList, d.severity = .error := by
  rw [Log.hasErrors, ← Array.any_toList, List.any_eq_true]
  exact exists_congr fun d => and_congr_right fun _ => decide_eq_true_iff

/-! ### Artifacts and errors -/

namespace Compiler

variable {language : Language} {job : Job} {log : Log}

theorem hasErrors_of_read_eq_none (h : read language job = (none, log)) : log.hasErrors := by
  rw [read] at h
  dsimp only at h
  split at h
  · cases h
    assumption
  · split at h
    · cases h
      assumption
    · obtain ⟨hunit, rfl⟩ := Prod.mk.inj h
      rw [Option.map_eq_none_iff] at hunit
      exact Source.hasErrors_of_parse_eq_none (Prod.ext hunit rfl)

/-- A program has an image exactly if it has no errors. -/
theorem isSome_image_iff {options : CodeOptions} {mvid : Vector UInt8 16}
    {unit : Source.CompilationUnit} {log log' : Log} {image : Option Image}
    (h : Image.generate language options mvid unit log = .ok (image, log')) :
    image.isSome ↔ ¬log'.hasErrors := by
  obtain ⟨⟨bodies, shared⟩, -, h⟩ := bind_eq_ok h
  dsimp only at h
  split at h <;> rename_i herrors <;> cases h
  · exact ⟨nofun, fun hn => absurd herrors hn⟩
  · exact ⟨fun _ => herrors, fun _ => rfl⟩

/-- What the output of a compiler says is true: there is an artifact exactly if there is no error,
and the artifact is among the files. -/
structure Truthful (output : Output) : Prop where
  artifact : output.artifact.isSome ↔ ∀ d ∈ output.diagnostics, d.severity ≠ .error
  file : ∀ name, output.artifact = some name → (output.files.lookup name).isSome

theorem truthful_build {core : Version} {output : Output}
    (h : build language job core = .ok output) : Truthful output := by
  have hnone {log : Log} {files : Directory} (herrors : log.hasErrors) :
      Truthful { files, diagnostics := log.diagnostics.toList } := by
    obtain ⟨d, hd, hsevere⟩ := Log.hasErrors_iff.1 herrors
    exact ⟨⟨nofun, fun hall => absurd hsevere (hall d hd)⟩, nofun⟩
  rw [build] at h
  dsimp only at h
  split at h
  · rename_i log hread
    cases h
    exact hnone (hasErrors_of_read_eq_none hread)
  · rename_i settings unit log hread
    obtain ⟨⟨image, log'⟩, himage, h⟩ := bind_eq_ok h
    have hiff := isSome_image_iff himage
    cases image with
    | none =>
      cases h
      exact hnone (by simpa using hiff)
    | some image =>
      obtain ⟨files, hfiles, h⟩ := bind_eq_ok h
      obtain ⟨artifact, -, hfiles⟩ := bind_eq_ok hfiles
      cases hfiles
      cases h
      refine ⟨⟨fun _ d hd hsevere => ?_, fun _ => rfl⟩, fun name hname => ?_⟩
      · exact hiff.1 rfl (Log.hasErrors_iff.2 ⟨d, hd, hsevere⟩)
      · cases hname
        rw [List.singleton_append, List.lookup_cons]
        split
        · rfl
        · rw [List.lookup_cons_self]
          rfl

theorem truthful_bundled {output : Output} (h : bundled language job = .finished output) :
    Truthful output := by
  rw [bundled] at h
  split at h
  · cases h
  · split at h <;> cases h
    exact truthful_build ‹_›

end Compiler

namespace Workshop

/-- The compilers of the standard workshop are the bundled ones, each under the key of its language. -/
theorem eq_bundled_of_standard {key : String} {compiler : Compiler}
    (h : standard.compiler? key = some compiler) :
    ∃ language : Language, key = language.key ∧ compiler = Compiler.bundled language := by
  change ((Language.visualBasic.key, Compiler.bundled .visualBasic) ::
    [(Language.csharp.key, Compiler.bundled .csharp)]).lookup key = some compiler at h
  rw [List.lookup_cons, List.lookup_cons] at h
  split at h
  · cases h
    exact ⟨.visualBasic, eq_of_beq ‹_›, rfl⟩
  · split at h <;> cases h
    exact ⟨.csharp, eq_of_beq ‹_›, rfl⟩

/-- What a true outcome is: a success has no error, diagnostics have one, and no artifact is
missing. -/
def Justified : Outcome → Prop
  | .success handle => ∀ d ∈ handle.warnings, d.severity ≠ .error
  | .diagnostics ds => ∃ d ∈ ds, d.severity = .error
  | .tooling failure => failure ≠ .missingArtifact

theorem justified_accept {σ : Type} (T : TempDirs σ) {output : Output} (h : Compiler.Truthful output)
    (directory : Nat) (s : σ) : Justified (accept T output directory s).1 := by
  rw [accept]
  cases hartifact : output.artifact with
  | some artifact =>
    dsimp only
    rw [if_pos (h.file artifact hartifact)]
    exact h.artifact.1 (by rw [hartifact]; rfl)
  | none =>
    have hsevere : ∃ d ∈ output.diagnostics, d.severity = .error := by
      by_contra hnone
      push Not at hnone
      have := h.artifact.2 hnone
      rw [hartifact] at this
      cases this
    have hne : ¬output.diagnostics.isEmpty := by
      obtain ⟨d, hd, -⟩ := hsevere
      rw [List.isEmpty_iff]
      exact List.ne_nil_of_mem hd
    dsimp only
    rw [if_neg hne]
    exact hsevere

theorem justified_compile {σ : Type} (T : TempDirs σ) (request : Request) (s : σ) :
    Justified (standard.compile T request s).1 := by
  rw [compile]
  split
  · exact nofun
  · rename_i compiler hcompiler
    obtain ⟨language, -, rfl⟩ := eq_bundled_of_standard hcompiler
    split
    · exact nofun
    · split
      · exact justified_accept T (Compiler.truthful_bundled ‹_›) _ _
      · exact nofun
      · exact nofun

/-- **A compilation makes an artifact exactly if it reports no error.** So in the standard workshop
a success has no error, diagnostics have at least one, and the artifact is never missing, whatever the
system does with the scratch space. -/
theorem artifact_iff_no_error :
    (∀ language job output, Compiler.bundled language job = .finished output →
      (output.artifact.isSome ↔ ∀ d ∈ output.diagnostics, d.severity ≠ .error)) ∧
    ∀ {σ : Type} (T : TempDirs σ) request s, Justified (standard.compile T request s).1 :=
  ⟨fun _ _ _ h => (Compiler.truthful_bundled h).artifact, justified_compile⟩

/-- A method with a variable that is not used. -/
def unusedVariableJob : Job where
  source := "class P \x7b static void M() \x7b int x; \x7d \x7d"
  options := "/o+"
  compilerVersion := "v4.0"
  references := []

/-- A warning does not keep an artifact from being made. -/
theorem artifact_of_warning : ∃ output,
    Compiler.bundled .csharp unusedVariableJob = .finished output ∧
    output.diagnostics.map (fun d => (d.severity, d.code)) = [(.warning, "CS0168")] ∧
    output.artifact.isSome := by
  have h : (match Compiler.bundled .csharp unusedVariableJob with
      | .finished output => decide (output.diagnostics.map (fun d => (d.severity, d.code)) =
          [(.warning, "CS0168")])
      | _ => false) = true := by
    decide +kernel
  cases hrun : Compiler.bundled .csharp unusedVariableJob with
  | finished output =>
    rw [hrun] at h
    have hcodes := of_decide_eq_true h
    refine ⟨output, rfl, hcodes, (artifact_iff_no_error.1 _ _ _ hrun).2 fun d hd => ?_⟩
    have hmem := List.mem_map_of_mem (f := fun d : Diagnostic => (d.severity, d.code)) hd
    rw [hcodes, List.mem_singleton] at hmem
    rw [(Prod.mk.inj hmem).1]
    nofun
  | failed error => rw [hrun] at h; cases h
  | crashed message => rw [hrun] at h; cases h

end Workshop

end CilScope
