import CilScope.Proofs.Listing.Names
import CilScope.Proofs.Listing.Structured

/-!
# When a module is listed

A listing builds the control-flow graph of every body that it shows, and it shows the body of every method.
So a module whose tokens lead to names and whose nesting ends is listed exactly if all its bodies have graphs
(`ofModule_exact`).
-/

namespace CilScope.Listing

open Metadata Text

variable {m : Module}

/-- Every body that stands in the row of a method has a control-flow graph. -/
def Graphed (m : Module) : Prop :=
  ∀ row type method body, m.metadata.methods[row]? = some (type, method) → m.body? row = some body →
    ∃ g, Flow.Graph.build body.instructions method.clauses = .ok g

/-- What is written for a list is written for each of its elements. -/
theorem exists_of_mem_forM {α : Type} {f : α → Writer Unit} {xs : List α} {x : α} (hx : x ∈ xs)
    {s s' : Sink} (h : xs.forM f s = .ok ((), s')) : ∃ s₁ s₂, f x s₁ = .ok ((), s₂) := by
  induction xs generalizing s with
  | nil => cases hx
  | cons y ys ih =>
    obtain ⟨_, s₁, hy, hys⟩ := exists_of_bind h
    rcases List.mem_cons.1 hx with rfl | hx
    · exact ⟨s, s₁, hy⟩
    · exact ih hx hys

theorem exists_build_of_writeMethod {structured : Bool} {type row : Nat} {method : MethodDef} {body : Body}
    (hbody : m.body? row = some body) {s s' : Sink}
    (h : writeMethod structured m type method row s = .ok ((), s')) :
    ∃ g, Flow.Graph.build body.instructions method.clauses = .ok g := by
  obtain ⟨_, _, -, h⟩ := exists_of_bind h
  obtain ⟨_, _, -, h⟩ := exists_of_bind h
  obtain ⟨_, _, -, h⟩ := exists_of_bind h
  obtain ⟨_, _, hinside, -⟩ := exists_of_bind h
  obtain ⟨_, _, -, hinside⟩ := exists_of_bind hinside
  obtain ⟨_, _, hinside, -⟩ := exists_of_bind hinside
  obtain ⟨_, _, -, hinside⟩ := exists_of_bind hinside
  rw [hbody] at hinside
  obtain ⟨-, g, -, hg, -⟩ := writeBody_eq_ok hinside
  exact ⟨g, hg⟩

/-- Behind the headers, the types are written. -/
theorem exists_of_writeModule {options : ListingOptions} {s s' : Sink}
    (h : writeModule m options s = .ok ((), s')) :
    ∃ s₁, writeTypes options.structured m s₁ = .ok ((), s') := by
  unfold writeModule at h
  split at h
  · obtain ⟨_, _, -, h⟩ := exists_of_bind h
    obtain ⟨_, _, -, h⟩ := exists_of_bind h
    obtain ⟨_, _, -, h⟩ := exists_of_bind h
    obtain ⟨_, _, -, h⟩ := exists_of_bind h
    obtain ⟨_, _, -, h⟩ := exists_of_bind h
    obtain ⟨_, s₁, -, h⟩ := exists_of_bind h
    exact ⟨s₁, h⟩
  · exact ⟨s, h⟩

theorem graphed_of_ofModule (hrooted : ∀ i < m.metadata.types.length, Rooted m.metadata.types i)
    {options : ListingOptions} {text : String} (h : ofModule m options = .ok text) : Graphed m := by
  intro row type method body hrow hbody
  obtain ⟨⟨_, sink⟩, hwrite, -⟩ := bind_eq_ok h
  obtain ⟨s, hwrite⟩ := exists_of_writeModule hwrite
  -- the method is among those that are written
  have hmem : ((type, method), row) ∈ written (visits m.metadata) :=
    (written_visits hrooted).mem_iff.2 (List.mem_zipIdx_iff_getElem?.2 hrow)
  obtain ⟨v, hv, hmethod⟩ := List.mem_filterMap.1 hmem
  rw [writeTypes_eq] at hwrite
  obtain ⟨_, _, hvisit⟩ := exists_of_mem_forM hv hwrite
  cases v with
  | method index method' row' =>
    cases hmethod
    exact exists_build_of_writeMethod hbody hvisit
  | enter | fields | gap | leave => cases hmethod

/-- **A module is listed exactly if all its bodies have graphs**, provided that its tokens lead to names and
that its types nest. Else the listing is refused for one of the bodies that have none. -/
theorem ofModule_exact (hresolved : Resolved m)
    (hrooted : ∀ i < m.metadata.types.length, Rooted m.metadata.types i) (options : ListingOptions) :
    ((∃ text, ofModule m options = .ok text) ↔ Graphed m) ∧
      ∀ e, ofModule m options = .error e → Ungraphed m e := by
  refine ⟨⟨fun ⟨_, h⟩ => graphed_of_ofModule hrooted h, fun h => ?_⟩, fun e => ungraphed_of_ofModule hresolved⟩
  cases heq : ofModule m options with
  | ok text => exact ⟨text, rfl⟩
  | error e =>
    obtain ⟨hrow, hbody, herror⟩ := ungraphed_of_ofModule hresolved heq
    obtain ⟨g, hg⟩ := h _ _ _ _ hrow hbody
    rw [hg] at herror
    cases herror

end CilScope.Listing
