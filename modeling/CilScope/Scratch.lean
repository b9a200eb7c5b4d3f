import CilScope.Compiler.Basic

/-!
# Temporary directories

Compilers leave their files in directories that the system makes and deletes. `TempDirs` is all that is
asked of the system; what its states are and what it refuses is left open. `ScratchRoot` is a system
that keeps directories in memory.
-/

namespace CilScope

/-- The temporary directories of a system with the states `σ`, below one root. -/
structure TempDirs (σ : Type) where
  /-- The files of a directory, if it is there. -/
  files? : σ → Nat → Option Directory
  /-- Makes a directory, or says why it could not. -/
  create : σ → Except String Nat × σ
  /-- Changes the files of a directory. -/
  edit : σ → Nat → (Directory → Directory) → σ
  /-- Deletes a directory with its files, or says why it could not. -/
  close : σ → Nat → Except String Unit × σ

namespace TempDirs

variable {σ : Type} (T : TempDirs σ)

/-- Deletes a directory that nobody is left to own; if that fails, nothing more can be done. -/
def discard (s : σ) (id : Nat) : σ := (T.close s id).2

/-- A file of a directory. -/
def file? (s : σ) (id : Nat) (name : String) : Option Content := (T.files? s id).bind (·.lookup name)

/-- Deletes a file of a directory. -/
def deleteFile (s : σ) (id : Nat) (name : String) : σ :=
  T.edit s id fun files => files.filter (·.1 ≠ name)

end TempDirs

/-- What the system says of a file that is not there. -/
def noSuchFile : String := "No such file or directory (os error 2)"

/-- Directories in memory. -/
structure ScratchRoot where
  entries : List (Nat × Directory) := []
  /-- Directories made from now on have this number or a higher one. -/
  next : Nat := 0
  /-- So a new directory never meets one that is there. -/
  lt_next : ∀ e ∈ entries, e.1 < next := by exact List.forall_mem_nil _
  deriving DecidableEq, Repr

namespace ScratchRoot

/-- A root without directories. -/
def empty : ScratchRoot := {}

instance : Inhabited ScratchRoot := ⟨empty⟩

/-- The root with a new, empty directory, which has the number `next`. -/
def create (r : ScratchRoot) : ScratchRoot where
  entries := r.entries ++ [(r.next, [])]
  next := r.next + 1
  lt_next := by
    intro e he
    rcases List.mem_append.1 he with h | h
    · exact Nat.lt_succ_of_lt (r.lt_next e h)
    · rw [List.mem_singleton.1 h]
      exact Nat.lt_succ_self _

/-- The root with the files of one directory changed. -/
def edit (r : ScratchRoot) (id : Nat) (f : Directory → Directory) : ScratchRoot :=
  { r with
    entries := r.entries.map fun e => if e.1 = id then (e.1, f e.2) else e
    lt_next := by
      intro e he
      obtain ⟨e', he', rfl⟩ := List.mem_map.1 he
      have := r.lt_next e' he'
      split <;> exact this }

/-- The root without a directory. -/
def remove (r : ScratchRoot) (id : Nat) : ScratchRoot :=
  { r with
    entries := r.entries.filter (·.1 ≠ id)
    lt_next := fun e he => r.lt_next e ((List.mem_filter.1 he).1) }

/-- Directories in memory as those of a system, which may refuse to make a new one. -/
def tempDirs (refusal? : ScratchRoot → Option String := fun _ => none) : TempDirs ScratchRoot where
  files? r id := r.entries.lookup id
  create r :=
    match refusal? r with
    | some reason => (.error reason, r)
    | none => (.ok r.next, r.create)
  edit := edit
  close r id :=
    match r.entries.lookup id with
    | some _ => (.ok (), r.remove id)
    | none => (.error noSuchFile, r)

end ScratchRoot

end CilScope
