import CilScope.Listing.Writer
import CilScope.Proofs.Except

/-!
# What parts of a listing keep

A part of a listing takes one sink to another, or ends the listing. `Leads R part` says that `R` holds
between the two; for a preorder `R` it holds of parts that are put together from parts it holds of.
-/

namespace CilScope.Listing

open Text

variable {α β : Type}

/-- Parts are written one behind the other. -/
theorem exists_of_bind {part : Writer α} {next : α → Writer β} {s s' : Sink} {b : β}
    (h : (part >>= next) s = .ok (b, s')) :
    ∃ a s₁, part s = .ok (a, s₁) ∧ next a s₁ = .ok (b, s') := by
  obtain ⟨⟨a, s₁⟩, hpart, hnext⟩ := bind_eq_ok h
  exact ⟨a, s₁, hpart, hnext⟩

/-- What a part of a listing leads to stands in a relation to where it starts. -/
def Leads (R : Sink → Sink → Prop) (part : Writer α) : Prop :=
  ∀ s a s', part s = .ok (a, s') → R s s'

namespace Leads

variable {R : Sink → Sink → Prop} [IsPreorder Sink R]

theorem bind {part : Writer α} {next : α → Writer β} (h : Leads R part) (h' : ∀ a, Leads R (next a)) :
    Leads R (part >>= next) := by
  intro s b s' heq
  obtain ⟨a, s₁, hpart, hnext⟩ := exists_of_bind heq
  exact trans_of R (h s a s₁ hpart) (h' a s₁ b s' hnext)

theorem pure (a : α) : Leads R (Pure.pure a : Writer α) := by
  intro s b s' heq
  cases heq
  exact refl_of R s

theorem name (text : Except ListingError String) : Leads R (Writer.name text) := by
  intro s a s' heq
  cases text <;> cases heq
  exact refl_of R s

theorem forM {xs : List α} {f : α → Writer Unit} (h : ∀ x, Leads R (f x)) : Leads R (xs.forM f) := by
  induction xs with
  | nil => exact .pure ()
  | cons x xs ih => exact (h x).bind fun _ => ih

theorem mapM {xs : List α} {f : α → Writer β} (h : ∀ x, Leads R (f x)) : Leads R (xs.mapM f) := by
  induction xs with
  | nil => exact .pure []
  | cons x xs ih =>
    rw [List.mapM_cons]
    exact (h x).bind fun y => ih.bind fun ys => .pure (y :: ys)

end Leads

end CilScope.Listing
