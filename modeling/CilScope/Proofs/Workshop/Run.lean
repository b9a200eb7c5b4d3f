import CilScope.Proofs.Image.Shown
import CilScope.Proofs.Workshop.Scratch

/-!
# What a run comes to

With the bundled compilers a request that makes an image comes to its listing, or is refused because a clause
of the image protects nothing (`run_exact`). No other artifact is left for the listing to fail on. Only a
system without a directory for the compiler keeps a request from coming that far.
-/

namespace CilScope

namespace Compiler

/-- The compiler of a language makes this image of a job. -/
def Makes (language : Language) (job : Job) (image : Image) : Prop :=
  ∃ core settings unit log log', Framework.coreVersion? job.compilerVersion = some core ∧
    read language job = (some (settings, unit), log) ∧
    Image.generate language (codeOptions job core settings) (versionId job) unit log =
      .ok (some image, log')

variable {language : Language} {job : Job} {image : Image} {output : Output}

/-- An artifact comes of an image. -/
theorem makes_of_bundled (h : bundled language job = .finished output)
    (hartifact : output.artifact.isSome) : ∃ image, Makes language job image := by
  rw [bundled] at h
  split at h
  · cases h
  rename_i core hcore
  split at h <;> cases h
  rename_i hbuild
  rw [build] at hbuild
  dsimp only at hbuild
  split at hbuild
  · cases hbuild
    cases hartifact
  · rename_i settings unit log hread
    obtain ⟨⟨image, log'⟩, himage, hbuild⟩ := bind_eq_ok hbuild
    cases image with
    | none =>
      cases hbuild
      cases hartifact
    | some image => exact ⟨image, core, settings, unit, log, log', hcore, hread, himage⟩

/-- The artifact of an image is among the files that are left. -/
theorem bundled_of_makes (h : Makes language job image) {artifact : Artifact}
    (hassemble : image.assemble = .ok artifact) : ∃ output, bundled language job = .finished output ∧
      output.artifact = some Image.moduleName ∧
      output.files.lookup Image.moduleName = some (.artifact artifact) := by
  obtain ⟨core, settings, unit, log, log', hcore, hread, himage⟩ := h
  have hbuild : build language job core = .ok {
      files := [(language.sourceFile, .text job.source)] ++ (Image.moduleName, .artifact artifact) ::
        if settings.debug then [(debugFile, .text image.debugText)] else []
      artifact := some Image.moduleName
      diagnostics := log'.diagnostics.toList } := by
    rw [build, hread]
    dsimp only
    rw [himage]
    dsimp only [bind, Except.bind]
    rw [imageFiles, hassemble]
    rfl
  refine ⟨_, by rw [bundled, hcore]; dsimp only; rw [hbuild], rfl, ?_⟩
  have hsource : (Image.moduleName == language.sourceFile) = false := by cases language <;> decide
  rw [List.singleton_append, List.lookup_cons, hsource, List.lookup_cons_self]

end Compiler

namespace Workshop

variable {σ : Type} {T : TempDirs σ} {request : Request} {s : σ} {language : Language} {image : Image}

theorem compiler?_standard (language : Language) :
    standard.compiler? language.key = some (.bundled language) := by
  cases language <;> rfl

/-- A success comes of an image. -/
theorem makes_of_compile {handle : Handle} {last : σ}
    (h : standard.compile T request s = (.success handle, last)) :
    ∃ (language : Language) (image : Image), request.language = language.key ∧
      Compiler.Makes language request.job image := by
  rw [compile] at h
  split at h
  · cases h
  rename_i compiler hcompiler
  obtain ⟨language, hkey, rfl⟩ := eq_bundled_of_standard hcompiler
  split at h
  · cases h
  split at h
  · rename_i output houtput
    rw [accept] at h
    split at h
    · rename_i artifact hartifact
      obtain ⟨image, himage⟩ := Compiler.makes_of_bundled houtput (by rw [hartifact]; rfl)
      exact ⟨language, image, hkey, himage⟩
    · split at h <;> cases h
  · cases h
  · cases h

/-- A success has a directory. -/
theorem created_of_compile {w : Workshop} {handle : Handle} {last : σ}
    (h : w.compile T request s = (.success handle, last)) :
    ∃ directory last, T.create s = (.ok directory, last) := by
  rw [compile] at h
  split at h
  · cases h
  · split at h
    · cases h
    · exact ⟨_, _, ‹_›⟩

/-- What a listing comes to, as the result of a run. -/
def listed : Except ListingError String → PipelineResult
  | .error e => .failure (.render e)
  | .ok text => .il text

/-- What a compiler has left in a new directory is found there. -/
theorem file?_edit_of_create (hT : T.Lawful) {directory : Nat} {last : σ}
    (hcreate : T.create s = (.ok directory, last)) (files : Directory) (name : String) :
    T.file? (T.edit last directory fun _ => files) directory name = files.lookup name := by
  rw [TempDirs.file?, hT.edit, (hT.create_ok hcreate).2, Function.update_self, Function.update_self]
  rfl

/-- An image that can be assembled and loaded is listed, if there is a directory to leave it in. -/
theorem run_of_makes (hT : T.Lawful) {directory : Nat} {last : σ}
    (hcreate : T.create s = (.ok directory, last)) (hkey : request.language = language.key)
    (hmakes : Compiler.Makes language request.job image) {artifact : Artifact} {m : Module}
    (hassemble : image.assemble = .ok artifact) (hload : artifact.load = .ok m)
    (options : ListingOptions) :
    (standard.run T request options s).1 = listed (Listing.ofModule m options) := by
  obtain ⟨output, houtput, hartifact, hfile⟩ := Compiler.bundled_of_makes hmakes hassemble
  have hcompile : standard.compile T request s =
      (.success (.new directory Image.moduleName output.diagnostics),
        T.edit last directory fun _ => output.files) := by
    rw [compile, hkey, compiler?_standard]
    dsimp only
    rw [hcreate]
    dsimp only
    rw [houtput]
    dsimp only
    rw [accept, hartifact]
    dsimp only
    rw [hfile]
    rfl
  rw [run, hcompile]
  dsimp only
  rw [Handle.finish, Handle.load, Handle.new]
  dsimp only
  rw [file?_edit_of_create hT hcreate, hfile]
  dsimp only
  rw [hload]
  dsimp only
  cases Listing.ofModule m options <;> rfl

/-- A request that makes an image that can be stored is shown, unless a clause protects nothing. -/
theorem run_of_storable (hT : T.Lawful) {directory : Nat} {last : σ}
    (hcreate : T.create s = (.ok directory, last)) (hkey : request.language = language.key)
    (hmakes : Compiler.Makes language request.job image) (hstorable : image.Storable)
    (options : ListingOptions) : ∃ result, (standard.run T request options s).1 = listed result ∧
      ((∃ text, result = .ok text) ↔ ∀ body ∈ image.bodies, ∀ c ∈ body.clauses, ¬c.Hollow) ∧
      ∀ e, result = .error e → ∃ method, e = .body method (.badClause .emptyRange) := by
  obtain ⟨core, settings, unit, log, log', hcore, hread, himage⟩ := hmakes
  obtain ⟨artifact, m, hassemble, hload, hlisted⟩ := Image.listed_of_generate himage hstorable
  exact ⟨Listing.ofModule m options, run_of_makes hT hcreate hkey
    ⟨core, settings, unit, log, log', hcore, hread, himage⟩ hassemble hload options, hlisted options⟩

/-- A request that is refused though it was compiled has made an image, in a directory of its own. -/
theorem makes_of_failure {options : ListingOptions} {failure : Failure}
    (h : (standard.run T request options s).1 = .failure failure) (hne : ∀ t, failure ≠ .tooling t) :
    (∃ directory last, T.create s = (.ok directory, last)) ∧
    ∃ (language : Language) (image : Image), request.language = language.key ∧
      Compiler.Makes language request.job image := by
  rw [run] at h
  split at h
  · rename_i hcompile
    exact ⟨created_of_compile hcompile, makes_of_compile hcompile⟩
  · cases h
  · cases h
    exact absurd rfl (hne _)

/-- **What is accepted is shown, unless a clause protects nothing.** If the images that a request makes can
be stored, then no artifact of it is refused when it is loaded, and its listing is refused for a clause of
the image that protects no instruction alone. It is refused exactly if there is such a clause, unless the
system has no directory for the compiler. -/
theorem run_exact (hT : T.Lawful) (request : Request) (options : ListingOptions) (s : σ)
    (hstorable : ∀ (language : Language) image, request.language = language.key →
      Compiler.Makes language request.job image → image.Storable) :
    (∀ e, (standard.run T request options s).1 ≠ .failure (.load e)) ∧
    (∀ e, (standard.run T request options s).1 = .failure (.render e) →
      ∃ method, e = .body method (.badClause .emptyRange)) ∧
    ((∃ e, (standard.run T request options s).1 = .failure (.render e)) ↔
      (∃ directory last, T.create s = (.ok directory, last)) ∧
      ∃ (language : Language) (image : Image), request.language = language.key ∧
        Compiler.Makes language request.job image ∧
        ∃ body ∈ image.bodies, ∃ c ∈ body.clauses, c.Hollow) := by
  -- behind a refusal stands an image, and the listing of its module
  have hrefused {failure : Failure} (h : (standard.run T request options s).1 = .failure failure)
      (hne : ∀ t, failure ≠ .tooling t) : (∃ directory last, T.create s = (.ok directory, last)) ∧
        ∃ (language : Language) (image : Image) (e : ListingError),
          request.language = language.key ∧ Compiler.Makes language request.job image ∧
          failure = .render e ∧ (¬∀ body ∈ image.bodies, ∀ c ∈ body.clauses, ¬c.Hollow) ∧
          ∃ method, e = .body method (.badClause .emptyRange) := by
    obtain ⟨⟨directory, last, hcreate⟩, language, image, hkey, hmakes⟩ := makes_of_failure h hne
    obtain ⟨result, hrun, hlisted, hempty⟩ :=
      run_of_storable hT hcreate hkey hmakes (hstorable language image hkey hmakes) options
    refine ⟨⟨directory, last, hcreate⟩, ?_⟩
    rw [h] at hrun
    cases result with
    | ok text => cases hrun
    | error e =>
      cases hrun
      exact ⟨language, image, e, hkey, hmakes, rfl, fun hfull => (nomatch hlisted.2 hfull), hempty e rfl⟩
  refine ⟨fun e he => ?_, fun e he => ?_, fun ⟨e, he⟩ => ?_,
    fun ⟨⟨directory, last, hcreate⟩, language, image, hkey, hmakes, hhollow⟩ => ?_⟩
  · obtain ⟨-, -, -, _, -, -, heq, -⟩ := hrefused he nofun
    cases heq
  · obtain ⟨-, -, -, _, -, -, heq, -, hempty⟩ := hrefused he nofun
    cases heq
    exact hempty
  · obtain ⟨hcreated, language, image, -, hkey, hmakes, -, hhollow, -⟩ := hrefused he nofun
    push Not at hhollow
    exact ⟨hcreated, language, image, hkey, hmakes, hhollow⟩
  · obtain ⟨result, hrun, hlisted, -⟩ :=
      run_of_storable hT hcreate hkey hmakes (hstorable language image hkey hmakes) options
    cases result with
    | ok text =>
      obtain ⟨body, hbody, c, hc, hempty⟩ := hhollow
      exact absurd hempty (hlisted.1 ⟨text, rfl⟩ body hbody c hc)
    | error e => exact ⟨e, hrun⟩

end Workshop

end CilScope
