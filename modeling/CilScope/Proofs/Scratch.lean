import CilScope.Scratch
import Mathlib.Logic.Function.Basic

/-!
# What is documented of temporary directories

`TempDirs.Lawful` is what the documentation of the system says of its directories: a new one is empty and
was not there before, files are changed in one directory at a time, and a deleted directory is gone with its
files. Nothing is said of when a directory can be made. That one can be deleted is an assumption of its own,
`TempDirs.Deletes`. Directories in memory keep both, whatever they refuse to make
(`ScratchRoot.lawful_tempDirs`).
-/

namespace CilScope

namespace TempDirs

variable {σ : Type} {T : TempDirs σ}

/-- What is documented of the directories of a system. -/
structure Lawful (T : TempDirs σ) : Prop where
  /-- A new directory was not there before. It is empty, and no other one has changed. -/
  create_ok : ∀ {s id s'}, T.create s = (.ok id, s') →
    T.files? s id = none ∧ T.files? s' = Function.update (T.files? s) id (some [])
  /-- If no directory could be made, none has changed. -/
  create_error : ∀ {s reason s'}, T.create s = (.error reason, s') → T.files? s' = T.files? s
  /-- Files are changed in one directory only. -/
  edit : ∀ s id f, T.files? (T.edit s id f) = Function.update (T.files? s) id ((T.files? s id).map f)
  /-- A directory that was deleted is not there any more, and no other one has changed. -/
  close_ok : ∀ {s id s'}, T.close s id = (.ok (), s') → T.files? s' = Function.update (T.files? s) id none

/-- Deleting a directory that is there succeeds. -/
def Deletes (T : TempDirs σ) : Prop := ∀ s id, (T.files? s id).isSome → (T.close s id).1 = .ok ()

theorem files?_discard (hT : T.Lawful) (hdeletes : T.Deletes) {s : σ} {id : Nat}
    (h : (T.files? s id).isSome) :
    T.files? (T.discard s id) = Function.update (T.files? s) id none :=
  hT.close_ok (Prod.ext (hdeletes s id h) rfl)

end TempDirs

/-! ### Directories in memory -/

namespace ScratchRoot

theorem lookup_edit (r : ScratchRoot) (id : Nat) (f : Directory → Directory) (k : Nat) :
    (r.edit id f).entries.lookup k =
      if k = id then (r.entries.lookup id).map f else r.entries.lookup k := by
  change (r.entries.map _).lookup k = _
  induction r.entries with
  | nil => simp
  | cons e es ih =>
    obtain ⟨k', files⟩ := e
    by_cases hk : k = k' <;> by_cases hid : k' = id <;> grind

theorem lookup_remove (r : ScratchRoot) (id k : Nat) :
    (r.remove id).entries.lookup k = if k = id then none else r.entries.lookup k := by
  change (r.entries.filter _).lookup k = _
  induction r.entries with
  | nil => simp
  | cons e es ih =>
    obtain ⟨k', files⟩ := e
    by_cases hk : k = k' <;> by_cases hid : k' = id <;> grind

theorem lookup_next (r : ScratchRoot) : r.entries.lookup r.next = none :=
  List.lookup_eq_none_iff.2 fun e he => bne_iff_ne.2 (Nat.ne_of_gt (r.lt_next e he))

theorem lookup_create (r : ScratchRoot) (k : Nat) :
    r.create.entries.lookup k = if k = r.next then some [] else r.entries.lookup k := by
  change (r.entries ++ [(r.next, [])]).lookup k = _
  rw [List.lookup_append]
  split
  · subst k
    rw [r.lookup_next, Option.none_or, List.lookup_cons_self]
  · rename_i hne
    rw [List.lookup_cons, beq_eq_false_iff_ne.2 hne, List.lookup_nil, Option.or_none]

variable (refusal? : ScratchRoot → Option String)

theorem lawful_tempDirs : (tempDirs refusal?).Lawful where
  create_ok {r id r'} h := by
    simp only [tempDirs] at h ⊢
    split at h
    · cases h
    · cases h
      exact ⟨r.lookup_next, funext fun k => by rw [r.lookup_create, Function.update_apply]⟩
  create_error {r reason r'} h := by
    simp only [tempDirs] at h ⊢
    split at h <;> cases h
    rfl
  edit r id f := funext fun k => by
    rw [Function.update_apply]
    exact r.lookup_edit id f k
  close_ok {r id r'} h := by
    simp only [tempDirs] at h ⊢
    split at h <;> cases h
    exact funext fun k => by rw [r.lookup_remove, Function.update_apply]

theorem deletes_tempDirs : (tempDirs refusal?).Deletes := by
  intro r id h
  obtain ⟨files, hfiles⟩ := Option.isSome_iff_exists.1 h
  simp only [tempDirs] at hfiles ⊢
  rw [hfiles]

end ScratchRoot

end CilScope
