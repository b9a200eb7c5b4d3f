import CilScope.Proofs.Image.Twin

/-!
# Debug information

Debug information is the names of local variables and the places in the source where statements start.
`generate_withoutDebug` says that to compile without it gives what compiling with it gives, less the
debug information: the same code in the same tables, after the same diagnostics.
-/

namespace CilScope

/-! ## Images without debug information -/

/-- The local without its name. -/
def LocalVar.withoutDebug (x : LocalVar) : LocalVar := { x with name := none }

/-- The body without the names of its locals and without the places of its statements. -/
def FinishedBody.withoutDebug (body : FinishedBody) : FinishedBody :=
  { body with locals := body.locals.map LocalVar.withoutDebug, points := [] }

/-- The method without the names of its locals. -/
def MethodDef.withoutDebug (m : MethodDef) : MethodDef :=
  { m with locals := m.locals.map LocalVar.withoutDebug }

/-- The type without the names of locals in its methods. -/
def TypeDef.withoutDebug (t : TypeDef) : TypeDef :=
  { t with methods := t.methods.map MethodDef.withoutDebug }

/-- The metadata without the names of locals. -/
def Metadata.withoutDebug (m : Metadata) : Metadata :=
  { m with types := m.types.map TypeDef.withoutDebug }

/-- The image without debug information. -/
def Image.withoutDebug (image : Image) : Image :=
  { metadata := image.metadata.withoutDebug
    bodies := image.bodies.map FinishedBody.withoutDebug }

/-! ## A second run in the same spelling -/

/-- The spelling is kept, and debug information as asked for. -/
def Variation.ofDebug (language : Language) (debug : Bool) : Variation :=
  { spell := id, language, spelling := .refl language, debug }

section

variable (language : Language)

theorem LocalVar.vary_ofDebug_true (x : LocalVar) : x.vary (.ofDebug language true) = x :=
  congrArg (LocalVar.mk x.sig) Option.map_id_apply

theorem MethodDef.vary_ofDebug_true (m : MethodDef) : m.vary (.ofDebug language true) = m := by
  simp only [vary, LocalVar.vary_ofDebug_true, List.map_id']
  exact congrArg (fun names => { m with paramNames := names }) (List.map_id _)

theorem TypeDef.vary_ofDebug_true (t : TypeDef) : t.vary (.ofDebug language true) = t := by
  simp only [vary, MethodDef.vary_ofDebug_true, List.map_id']
  exact congrArg (fun fields => { t with fields := fields }) (List.map_id _)

theorem Image.vary_ofDebug_true (image : Image) : image.vary (.ofDebug language true) = image := by
  have hbody (body : FinishedBody) : body.vary (.ofDebug language true) = body := by
    simp only [FinishedBody.vary, LocalVar.vary_ofDebug_true, List.map_id']
    rfl
  simp only [vary, Metadata.vary, TypeDef.vary_ofDebug_true, hbody, List.map_id']

theorem Image.vary_ofDebug_false (image : Image) :
    image.vary (.ofDebug language false) = image.withoutDebug := by
  have hmethod (m : MethodDef) : m.vary (.ofDebug language false) = m.withoutDebug :=
    congrArg (fun names => { m.withoutDebug with paramNames := names }) (List.map_id _)
  have htype (t : TypeDef) : t.vary (.ofDebug language false) = t.withoutDebug := by
    simp only [TypeDef.vary, hmethod]
    exact congrArg (fun fields => { t.withoutDebug with fields := fields }) (List.map_id _)
  simp only [vary, Metadata.vary, htype]
  rfl

end

theorem Log.respell_id (log : Log) : log.respell id = log :=
  congrArg (Log.mk log.language log.file) (Array.map_id _)

theorem GenerationFault.respell_id (fault : GenerationFault) : fault.respell id = fault := by
  cases fault <;> rfl

namespace Image

/-- **Debug information does not change the program.** Without it the compiler fails for the same reason,
or reports the same diagnostics and gives an image in the same cases: that with debug information, less
the debug information. -/
theorem generate_withoutDebug (language : Language) (options : CodeOptions) (mvid : Vector UInt8 16)
    (unit : Source.CompilationUnit) (log : Log) :
    generate language { options with debug := false } mvid unit log =
      (generate language options mvid unit log).map fun r => (r.1.map withoutDebug, r.2) := by
  have hlog : log.Alike (Variation.ofDebug language false).spell log := ⟨.refl log.language, rfl⟩
  have htwin := twin_generate hlog options mvid unit
  rw [show CodeOptions.vary (.ofDebug language false) options = { options with debug := false } by
      rw [CodeOptions.vary, show (Variation.ofDebug language false).debug = false from rfl, Bool.and_false],
    show (Variation.ofDebug language false).spell = id from rfl, Source.CompilationUnit.respell_id,
    show (Variation.ofDebug language false).language = language from rfl] at htwin
  generalize generate language options mvid unit log = first at htwin ⊢
  generalize generate language { options with debug := false } mvid unit log = second at htwin ⊢
  cases htwin with
  | error h =>
    rw [show (Variation.ofDebug language false).spell = id from rfl, GenerationFault.respell_id,
      GenerationFault.respell_id] at h
    rw [h]
    rfl
  | @ok r r' h =>
    obtain ⟨image, log₁⟩ := r
    obtain ⟨image', log₂⟩ := r'
    obtain ⟨hlog, himage⟩ := h
    have hlog : log₂ = log₁ := by
      have heq := hlog.respell_eq
      rwa [Log.respell_id, Log.respell_id] at heq
    have himage : image' = image.map withoutDebug := by
      cases himage with
      | none => rfl
      | some h =>
        rw [show (Variation.ofDebug language false).spelled = .ofDebug language true from rfl,
          vary_ofDebug_true, vary_ofDebug_false] at h
        rw [h]
        rfl
    rw [hlog, himage]
    rfl

end Image

end CilScope
