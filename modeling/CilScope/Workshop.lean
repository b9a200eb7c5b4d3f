import CilScope.Compiler.Bundled
import CilScope.Scratch

/-!
# Compiling in scratch space

A workshop knows a compiler for every language key. Each compilation gets a directory of its own,
unless the system refuses it, and the compiler leaves its files there. Only a compilation that made an
artifact keeps its directory, and then a handle owns it until it is released or goes out of use; every
other directory is deleted before the compilation returns.
-/

namespace CilScope

/-- What is to be compiled, and how. -/
structure Request where
  source : String := ""
  /-- The key of the language. -/
  language : String := Language.csharp.key
  compilerVersion : String := Framework.defaultCompilerVersion
  optimize : Bool := true
  debug : Bool := true
  deriving DecidableEq, Repr, Inhabited

/-- The job a compiler gets for a request. -/
def Request.job (r : Request) : Job where
  source := r.source
  options := Framework.optionString r.optimize r.debug
  compilerVersion := r.compilerVersion
  references := Framework.references

/-- The owner of the directory of a successful compilation. -/
structure Handle where
  /-- The directory that is to be deleted, until it has been given up. -/
  owned : Option Nat
  /-- The directory of the files. -/
  directory : Nat
  /-- The name of the artifact. -/
  artifact : String
  warnings : List Diagnostic
  deriving DecidableEq, Repr, Inhabited

namespace Handle

variable {σ : Type} (T : TempDirs σ)

/-- The owner of a directory. -/
def new (directory : Nat) (artifact : String) (warnings : List Diagnostic) : Handle :=
  { owned := some directory, directory, artifact, warnings }

/-- Takes the directory out of a handle, if it still owns one, and deletes it. -/
def giveUp (h : Handle) (s : σ) : Except String Unit × Handle × σ :=
  match h.owned with
  | some id =>
    let (result, s) := T.close s id
    (result, { h with owned := none }, s)
  | none => (.ok (), h, s)

/-- A handle goes out of use. It does not matter whether its directory could be deleted. -/
def drop (h : Handle) (s : σ) : σ := (h.giveUp T s).2.2

/-- Deletes the directory of a handle now, or says why it could not. What is left of the handle goes
out of use. -/
def release (h : Handle) (s : σ) : Except String Unit × σ :=
  let (result, h, s) := h.giveUp T s
  (result, h.drop T s)

end Handle

/-- Why nothing was compiled, though the program may be right. -/
inductive ToolingFailure
  | missingCompiler (language : String)
  /-- There is no directory for the compiler. -/
  | scratchRefused (reason : String)
  | compilerFailed (error : BuildError)
  | compilerCrashed (message : Option String)
  /-- There is neither an artifact nor a diagnostic. -/
  | missingArtifact
  deriving DecidableEq, Repr, Inhabited

/-- The wording of a failure. -/
def ToolingFailure.message : ToolingFailure → String
  | missingCompiler language => "Missing compiler for language '" ++ language ++ "'"
  | scratchRefused reason => "IoError :" ++ reason
  | compilerFailed error => error.kind ++ " :" ++ error.message
  | compilerCrashed message => "Panic :" ++ message.getD "unknown panic"
  | missingArtifact => "The assembly file is missing without explanation."

/-- How a compilation ends. -/
inductive Outcome
  | success (handle : Handle)
  | diagnostics (diagnostics : List Diagnostic)
  | tooling (failure : ToolingFailure)
  deriving DecidableEq, Repr, Inhabited

/-- The compilers by language key. -/
structure Workshop where
  compilers : List (String × Compiler) := []

namespace Workshop

/-- Registers a compiler, in place of the one that had the key. -/
def register (w : Workshop) (key : String) (c : Compiler) : Workshop :=
  { compilers := (key, c) :: w.compilers.filter (·.1 ≠ key) }

/-- The workshop with the bundled compilers. -/
def standard : Workshop :=
  (({} : Workshop).register Language.csharp.key (.bundled .csharp)).register
    Language.visualBasic.key (.bundled .visualBasic)

/-- The compiler for a language key. -/
def compiler? (w : Workshop) (key : String) : Option Compiler := w.compilers.lookup key

variable {σ : Type} (T : TempDirs σ)

/-- Takes in what a compiler has made and left in a directory. Only a named artifact that exists is
a success and keeps the directory. -/
def accept (output : Output) (directory : Nat) (s : σ) : Outcome × σ :=
  let other : Outcome :=
    if output.diagnostics.isEmpty then .tooling .missingArtifact
    else .diagnostics output.diagnostics
  match output.artifact with
  | some artifact =>
    if (output.files.lookup artifact).isSome then
      (.success (.new directory artifact output.diagnostics), s)
    else (other, T.discard s directory)
  | none => (other, T.discard s directory)

/-- Compiles a request. -/
def compile (w : Workshop) (request : Request) (s : σ) : Outcome × σ :=
  match w.compiler? request.language with
  | none => (.tooling (.missingCompiler request.language), s)
  | some compiler =>
    match T.create s with
    | (.error reason, s) => (.tooling (.scratchRefused reason), s)
    | (.ok directory, s) =>
      match compiler request.job with
      | .finished output => accept T output directory (T.edit s directory fun _ => output.files)
      | .failed error => (.tooling (.compilerFailed error), T.discard s directory)
      | .crashed message => (.tooling (.compilerCrashed message), T.discard s directory)

end Workshop

end CilScope
