import CilScope.Artifact.Assemble
import CilScope.Compiler.Basic
import CilScope.Digest.SipHash
import CilScope.Settings
import CilScope.Source.Parse

/-!
# The bundled compilers

The compilers for C# and Visual Basic. A job is read in stages (settings, syntax, code), and each
stage runs only if the ones before it reported no error. The module that comes out is named by a
digest of the job, so equal jobs give equal modules.
-/

namespace CilScope.Compiler

/-- Eight bytes of a version id: a digest of a number and the texts of a job, each text closed by
a byte that no text contains. -/
def versionIdPart (salt : UInt8) (job : Job) : List UInt8 :=
  let texts := [job.source, job.options, job.compilerVersion]
  Digest.wordBytes (Digest.sipHash (salt :: texts.flatMap fun t => Bytes.ofString t ++ [0xFF]))

/-- The version id of the module a job makes. -/
def versionId (job : Job) : Vector UInt8 16 :=
  ⟨(versionIdPart 0 job ++ versionIdPart 1 job).toArray, by
    simp [versionIdPart, Digest.wordBytes]⟩

/-- The compiler version that does not infer the types of locals. -/
def versionWithoutInference : String := "v2.0"

/-- The choices for generating code that a job makes. -/
def codeOptions (job : Job) (core : Version) (settings : Settings) : CodeOptions where
  optimize := settings.optimize
  debug := settings.debug
  inferLocals := job.compilerVersion ≠ versionWithoutInference
  core
  basicRuntime := job.references.contains Library.Assembly.visualBasic.file

/-- The name of the debug file. -/
def debugFile : String := Framework.assemblyName ++ ".pdb"

/-- The files of a compiled image. -/
def imageFiles (image : Image) (debug : Bool) : Except GenerationFault Directory := do
  let artifact ← image.assemble
  return (Image.moduleName, .artifact artifact) ::
    if debug then [(debugFile, .text image.debugText)] else []

/-- The syntax tree of a job and the settings, if nothing is wrong with them, and the log. -/
def read (language : Language) (job : Job) :
    Option (Settings × Source.CompilationUnit) × Log :=
  let (settings, log) := Settings.parse language job.options (Log.forSnippet language)
  if log.hasErrors then (none, log)
  else
    let (unit, log) := Source.parse language job.source log
    if log.hasErrors then (none, log) else (unit.map (settings, ·), log)

/-- Compiles a job for a known version of the core library. -/
def build (language : Language) (job : Job) (core : Version) :
    Except GenerationFault Output := do
  let source : Directory := [(language.sourceFile, .text job.source)]
  match read language job with
  | (none, log) => return { files := source, diagnostics := log.diagnostics.toList }
  | (some (settings, unit), log) =>
    let options := codeOptions job core settings
    let (image, log) ← Image.generate language options (versionId job) unit log
    match image with
    | none => return { files := source, diagnostics := log.diagnostics.toList }
    | some image =>
      let files ← imageFiles image settings.debug
      return {
        files := source ++ files
        artifact := some Image.moduleName
        diagnostics := log.diagnostics.toList }

/-- The bundled compiler of a language. -/
def bundled (language : Language) : Compiler := fun job =>
  match Framework.coreVersion? job.compilerVersion with
  | none => .failed (.unknownVersion job.compilerVersion)
  | some core =>
    match build language job core with
    | .ok output => .finished output
    | .error fault => .failed (.generation fault)

end CilScope.Compiler
