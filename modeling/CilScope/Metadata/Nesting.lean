import CilScope.Metadata.Basic

/-!
# Nesting of types

A type may be nested in another one of the same module. The chain of enclosing types that starts
at a type has to stay inside the table and to end.
-/

namespace CilScope.Metadata

/-- Whether the chain that goes on at `current` ends after at most `steps` links, stays inside
the table and never comes back to `start`. -/
def chainEnds (types : List TypeDef) (start : Nat) : (steps : Nat) → (current : Option Nat) → Bool
  | _, none => true
  | 0, some _ => false
  | steps + 1, some outer =>
    match types[outer]? with
    | none => false
    | some type => outer != start && chainEnds types start steps type.enclosing

/-- The first type whose chain of enclosing types is invalid, with its own enclosing index. -/
def badNesting? (types : List TypeDef) : Option (Nat × Nat) :=
  types.zipIdx.findSome? fun (type, index) =>
    type.enclosing.bind fun outer =>
      if chainEnds types index types.length (some outer) then none else some (index, outer)

end CilScope.Metadata
