import CilScope.Artifact.Load
import CilScope.Listing.Module
import CilScope.Workshop

/-!
# From a snippet to a listing

A request is compiled, its artifact loaded and the module listed. Diagnostics and failures pass
through. The scratch space is given up whatever happens.
-/

namespace CilScope

/-- Why there is no listing, though the program may be right. -/
inductive Failure
  | tooling (failure : ToolingFailure)
  | load (error : LoadError)
  | render (error : ListingError)
  deriving DecidableEq, Repr, Inhabited

namespace Failure

/-- Who is to blame. -/
def culprit : Failure → String
  | tooling _ => "compiler"
  | load _ => "loader"
  | render _ => "disassembler"

/-- The wording of a failure. -/
def message : Failure → String
  | tooling failure => failure.message
  | load error => "LoadError :" ++ error.message
  | render error => "RenderError :" ++ error.message

/-- The failure as it is shown. -/
def text (f : Failure) : String :=
  "Uh oh, the " ++ f.culprit ++ " freaked out:\n\n" ++ f.message

end Failure

/-- What comes of a request. -/
inductive PipelineResult
  | il (text : String)
  | diagnostics (diagnostics : List Diagnostic)
  | failure (failure : Failure)
  deriving DecidableEq, Repr, Inhabited

/-- The result as it is shown. -/
def PipelineResult.present : PipelineResult → String
  | il text => text
  | diagnostics ds =>
    "Sorry, your code might be broken:\n" ++ String.join (ds.map fun d => "\n" ++ d.text)
  | failure f => f.text

variable {σ : Type} (T : TempDirs σ)

namespace Handle

/-- The module of a successful compilation. -/
def load (h : Handle) (s : σ) : Except LoadError Module :=
  match T.file? s h.directory h.artifact with
  | none => .error (.io noSuchFile)
  | some (.artifact a) => a.load
  | some (.text _) => .error .object

/-- Loads and lists the module of a successful compilation and gives up its directory. It does not matter
whether that could be deleted. -/
def finish (h : Handle) (options : ListingOptions) (s : σ) : PipelineResult × σ :=
  let result := match h.load T s with
    | .error e => .failure (.load e)
    | .ok m =>
      match Listing.ofModule m options with
      | .error e => .failure (.render e)
      | .ok text => .il text
  (result, (h.release T s).2)

end Handle

/-- Compiles and lists a request. -/
def Workshop.run (w : Workshop) (request : Request) (options : ListingOptions) (s : σ) :
    PipelineResult × σ :=
  match w.compile T request s with
  | (.success handle, s) => handle.finish T options s
  | (.diagnostics ds, s) => (.diagnostics ds, s)
  | (.tooling failure, s) => (.failure (.tooling failure), s)

end CilScope
