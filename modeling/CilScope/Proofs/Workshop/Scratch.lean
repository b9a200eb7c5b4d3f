import CilScope.Pipeline
import CilScope.Proofs.Scratch
import Mathlib.Data.List.Nodup

/-!
# Scratch space is neither leaked nor lost

Between two moments of a session the directories that are there change in one way only: those that
were there stay as they are, and beside them there is one directory for each handle that is alive. `Adds`
says so. It is closed under one step after another (`Adds.trans`), under a change of the files of a
handle's directory (`Adds.edit`) and, with the handle, under the deletion of its directory
(`Adds.remove`). A compilation adds the directory of its own handle, or nothing (`adds_compile`), and
every action of a session is made of these, so the scratch space is accounted for after any number of
them. All of this is for any system that keeps to what is documented of it, whatever it refuses to make.
-/

namespace CilScope

/-- The handles that come of a compilation: one if it is a success, else none. -/
def Outcome.handles : Outcome → List Handle
  | success handle => [handle]
  | diagnostics _ | tooling _ => []

variable {σ : Type} {T : TempDirs σ}

/-! ### Handles -/

namespace Handle

variable {h : Handle} {id : Nat}

/-- What is left of a handle that has given up its directory deletes nothing any more. -/
theorem drop_giveUp (T : TempDirs σ) (h : Handle) (s s' : σ) : (h.giveUp T s).2.1.drop T s' = s' := by
  rw [drop, giveUp, giveUp]
  cases howned : h.owned with
  | none => rw [howned]
  | some id => rfl

/-- A handle that goes out of use deletes its directory, once. -/
theorem drop_eq (howned : h.owned = some id) (s : σ) : h.drop T s = T.discard s id := by
  rw [drop, giveUp, howned]
  rfl

/-- Releasing a handle deletes its directory, once: it goes out of use with nothing left to delete. -/
theorem release_eq (howned : h.owned = some id) (s : σ) : h.release T s = T.close s id := by
  rw [release]
  dsimp only
  rw [drop_giveUp, giveUp, howned]

theorem finish_snd (h : Handle) (options : ListingOptions) (s : σ) :
    (h.finish T options s).2 = (h.release T s).2 := rfl

end Handle

/-! ### What was there, and one directory for each handle -/

namespace TempDirs

/-- From the first state to the last, exactly the directories of these handles were added. -/
structure Adds (T : TempDirs σ) (first : σ) (handles : List Handle) (last : σ) : Prop where
  /-- What was there has not changed. -/
  kept : ∀ id, (T.files? first id).isSome → T.files? last id = T.files? first id
  /-- Nothing else is there but the directories of the handles. -/
  only : ∀ id, T.files? first id = none → (T.files? last id).isSome → id ∈ handles.map (·.directory)
  /-- These are there. -/
  held : ∀ h ∈ handles, (T.files? last h.directory).isSome
  /-- None of them was there before. -/
  fresh : ∀ h ∈ handles, T.files? first h.directory = none
  /-- Each handle is still to delete its own. -/
  owned : ∀ h ∈ handles, h.owned = some h.directory
  /-- No two handles share a directory. -/
  nodup : (handles.map (·.directory)).Nodup

namespace Adds

variable {first middle last last' : σ} {handles handles' : List Handle} {handle : Handle} {id : Nat}

theorem refl (T : TempDirs σ) (s : σ) : T.Adds s [] s where
  kept _ _ := rfl
  only id hnone hsome := by rw [hnone] at hsome; cases hsome
  held := nofun
  fresh := nofun
  owned := nofun
  nodup := List.nodup_nil

/-- Only the directories that are there count. -/
theorem of_files?_eq (h : T.Adds first handles last) (heq : T.files? last' = T.files? last) :
    T.Adds first handles last' where
  kept := heq.symm ▸ h.kept
  only := heq.symm ▸ h.only
  held := heq.symm ▸ h.held
  fresh := h.fresh
  owned := h.owned
  nodup := h.nodup

theorem files?_eq (h : T.Adds first [] last) : T.files? last = T.files? first := by
  funext id
  cases hfirst : T.files? first id with
  | some files => rw [h.kept id (hfirst ▸ rfl), hfirst]
  | none =>
    refine Option.not_isSome_iff_eq_none.1 fun hlast => ?_
    exact absurd (h.only id hfirst hlast) List.not_mem_nil

/-- What was not there at the end was not there at first. -/
theorem eq_none (h : T.Adds first handles last) (hnone : T.files? last id = none) :
    T.files? first id = none := by
  refine Option.not_isSome_iff_eq_none.1 fun hfirst => ?_
  rw [← h.kept id hfirst, hnone] at hfirst
  cases hfirst

theorem trans (h : T.Adds first handles middle) (h' : T.Adds middle handles' last) :
    T.Adds first (handles ++ handles') last where
  kept id hid := (h'.kept id (h.kept id hid ▸ hid)).trans (h.kept id hid)
  only id hnone hlast := by
    rw [List.map_append, List.mem_append]
    cases hmiddle : T.files? middle id with
    | some files => exact .inl (h.only id hnone (hmiddle ▸ rfl))
    | none => exact .inr (h'.only id hmiddle hlast)
  held x hx := (List.mem_append.1 hx).elim
    (fun hx => (h'.kept _ (h.held x hx)).symm ▸ h.held x hx) (h'.held x)
  fresh x hx := (List.mem_append.1 hx).elim (h.fresh x) fun hx => h.eq_none (h'.fresh x hx)
  owned x hx := (List.mem_append.1 hx).elim (h.owned x) (h'.owned x)
  nodup := by
    rw [List.map_append]
    refine h.nodup.append h'.nodup fun id hid hid' => ?_
    obtain ⟨x, hx, rfl⟩ := List.mem_map.1 hid
    obtain ⟨x', hx', heq⟩ := List.mem_map.1 hid'
    have hheld := h.held x hx
    have hfresh := h'.fresh x' hx'
    rw [show x'.directory = x.directory from heq] at hfresh
    rw [hfresh] at hheld
    cases hheld

theorem create (hT : T.Lawful) (h : T.create first = (.ok id, last)) (artifact : String)
    (warnings : List Diagnostic) : T.Adds first [.new id artifact warnings] last := by
  obtain ⟨hfresh, hfiles⟩ := hT.create_ok h
  have hne {id' : Nat} (hid' : (T.files? first id').isSome) : id' ≠ id := by
    rintro rfl
    rw [hfresh] at hid'
    cases hid'
  exact {
    kept := fun id' hid' => by rw [hfiles, Function.update_of_ne (hne hid')]
    only := fun id' hnone hlast => by
      by_cases heq : id' = id
      · exact List.mem_singleton.2 heq
      · rw [hfiles, Function.update_of_ne heq, hnone] at hlast
        cases hlast
    held := fun x hx => by
      rw [List.mem_singleton.1 hx, hfiles, Handle.new, Function.update_self]
      rfl
    fresh := fun x hx => by rw [List.mem_singleton.1 hx]; exact hfresh
    owned := fun x hx => by rw [List.mem_singleton.1 hx]; rfl
    nodup := List.nodup_singleton _ }

theorem edit (hT : T.Lawful) (h : T.Adds first handles last) (hmem : handle ∈ handles)
    (f : Directory → Directory) : T.Adds first handles (T.edit last handle.directory f) := by
  have hsome (id : Nat) : (T.files? (T.edit last handle.directory f) id).isSome ↔
      (T.files? last id).isSome := by
    rw [hT.edit, Function.update_apply]
    split
    · subst id
      rw [Option.isSome_map]
    · rfl
  have hne {id : Nat} (hid : (T.files? first id).isSome) : id ≠ handle.directory := by
    rintro rfl
    rw [h.fresh handle hmem] at hid
    cases hid
  exact {
    kept := fun id hid => by rw [hT.edit, Function.update_of_ne (hne hid), h.kept id hid]
    only := fun id hnone hlast => h.only id hnone ((hsome id).1 hlast)
    held := fun x hx => (hsome _).2 (h.held x hx)
    fresh := h.fresh
    owned := h.owned
    nodup := h.nodup }

/-- The directory of a handle is deleted, and the handle with it. -/
theorem remove (h : T.Adds first (handles ++ handle :: handles') last)
    (hfiles : T.files? last' = Function.update (T.files? last) handle.directory none) :
    T.Adds first (handles ++ handles') last' := by
  have hsub : (handles ++ handles').Sublist (handles ++ handle :: handles') :=
    (List.sublist_cons_self _ _).append_left _
  have hmem : handle ∈ handles ++ handle :: handles' :=
    List.mem_append_right _ (List.mem_cons_self ..)
  have hothers : handle.directory ∉ (handles ++ handles').map (·.directory) := by
    have hnodup := h.nodup
    rw [List.map_append, List.map_cons, List.nodup_middle, List.nodup_cons, ← List.map_append] at hnodup
    exact hnodup.1
  have hne {x : Handle} (hx : x ∈ handles ++ handles') : x.directory ≠ handle.directory :=
    fun heq => hothers (heq ▸ List.mem_map_of_mem hx)
  exact {
    kept := fun id hid => by
      have hid' : id ≠ handle.directory := by
        rintro rfl
        rw [h.fresh handle hmem] at hid
        cases hid
      rw [hfiles, Function.update_of_ne hid', h.kept id hid]
    only := fun id hnone hlast => by
      rw [hfiles, Function.update_apply] at hlast
      split at hlast
      · cases hlast
      · rename_i hid
        have hin := h.only id hnone hlast
        rw [List.map_append, List.map_cons, List.mem_append, List.mem_cons] at hin
        rw [List.map_append, List.mem_append]
        exact hin.imp_right fun hin => hin.resolve_left hid
    held := fun x hx => by
      rw [hfiles, Function.update_of_ne (hne hx)]
      exact h.held x (hsub.subset hx)
    fresh := fun x hx => h.fresh x (hsub.subset hx)
    owned := fun x hx => h.owned x (hsub.subset hx)
    nodup := h.nodup.sublist (hsub.map _) }

/-- What deleting the directory of a handle leaves. -/
theorem files?_discard (hT : T.Lawful) (hdeletes : T.Deletes) (h : T.Adds first handles last)
    (hmem : handle ∈ handles) : T.files? (T.discard last handle.directory) =
      Function.update (T.files? last) handle.directory none :=
  TempDirs.files?_discard hT hdeletes (h.held handle hmem)

theorem discard (hT : T.Lawful) (hdeletes : T.Deletes) (h : T.Adds first [handle] last) :
    T.Adds first [] (T.discard last handle.directory) :=
  @remove σ T first last _ [] [] handle h (h.files?_discard hT hdeletes (List.mem_singleton_self _))

/-- A handle that is alive takes its directory with it, however it goes out of use. -/
theorem files?_drop (hT : T.Lawful) (hdeletes : T.Deletes) (h : T.Adds first handles last)
    (hmem : handle ∈ handles) :
    T.files? (handle.drop T last) = Function.update (T.files? last) handle.directory none := by
  rw [Handle.drop_eq (h.owned handle hmem)]
  exact h.files?_discard hT hdeletes hmem

theorem files?_release (hT : T.Lawful) (hdeletes : T.Deletes) (h : T.Adds first handles last)
    (hmem : handle ∈ handles) :
    T.files? (handle.release T last).2 = Function.update (T.files? last) handle.directory none := by
  rw [Handle.release_eq (h.owned handle hmem)]
  exact h.files?_discard hT hdeletes hmem

end Adds

end TempDirs

/-! ### Compilations -/

namespace Workshop

variable {s last : σ}

/-- Of the directory that a compiler was given only that of a success is left. -/
theorem adds_accept (hT : T.Lawful) (hdeletes : T.Deletes) {output : Output} {directory : Nat}
    (h : ∀ artifact warnings, T.Adds s [.new directory artifact warnings] last) :
    T.Adds s (accept T output directory last).1.handles (accept T output directory last).2 := by
  have hdiscard : T.Adds s [] (T.discard last directory) := (h "" []).discard hT hdeletes
  have hother : (if output.diagnostics.isEmpty then .tooling .missingArtifact
      else .diagnostics output.diagnostics : Outcome).handles = [] := by
    split <;> rfl
  rw [accept]
  cases output.artifact with
  | none => rwa [hother]
  | some artifact =>
    dsimp only
    split
    · exact h artifact output.diagnostics
    · rwa [hother]

/-- A compilation adds a directory exactly if it is a success, and then that of its handle. -/
theorem adds_compile (hT : T.Lawful) (hdeletes : T.Deletes) (w : Workshop) (request : Request) (s : σ) :
    T.Adds s (w.compile T request s).1.handles (w.compile T request s).2 := by
  rw [compile]
  split
  · exact TempDirs.Adds.refl T s
  · split
    · exact (TempDirs.Adds.refl T s).of_files?_eq (hT.create_error ‹_›)
    · rename_i directory last hcreate
      have h := TempDirs.Adds.create hT hcreate
      have hdiscard : T.Adds s [] (T.discard last directory) := (h "" []).discard hT hdeletes
      split
      · exact adds_accept hT hdeletes fun artifact warnings =>
          (h artifact warnings).edit hT (List.mem_singleton_self _) _
      · exact hdiscard
      · exact hdiscard

/-- A run gives up the directory of its own compilation, whatever comes of it. -/
theorem adds_run (hT : T.Lawful) (hdeletes : T.Deletes) (w : Workshop) (request : Request)
    (options : ListingOptions) (s : σ) : T.Adds s [] (w.run T request options s).2 := by
  have hcompile := w.adds_compile hT hdeletes request s
  rw [run]
  split <;> rename_i heq <;> rw [heq] at hcompile
  · rename_i handle last
    have hfiles := hcompile.files?_release hT hdeletes (List.mem_singleton_self _)
    exact @TempDirs.Adds.remove σ T s last _ [] [] handle hcompile hfiles
  · exact hcompile
  · exact hcompile

end Workshop

/-! ### Sessions -/

/-- A workshop in use: the scratch space and the handles that are alive, the oldest first. -/
structure Session (σ : Type) where
  workshop : Workshop
  scratch : σ
  handles : List Handle := []

namespace Session

/-- What the user of a workshop can do. A handle is named by its place among those alive. -/
inductive Action
  | register (key : String) (compiler : Compiler)
  | compile (request : Request)
  /-- Lets a handle go out of use. -/
  | drop (place : Nat)
  | release (place : Nat)
  /-- Deletes a file of a handle's directory, the artifact perhaps. -/
  | delete (place : Nat) (name : String)
  | run (request : Request) (options : ListingOptions)
  | finish (place : Nat) (options : ListingOptions)

/-- Spends a handle, if there is one at that place. -/
def spend (s : Session σ) (place : Nat) (use : Handle → σ → σ) : Session σ :=
  match s.handles[place]? with
  | none => s
  | some handle => { s with scratch := use handle s.scratch, handles := s.handles.eraseIdx place }

/-- The session after an action. -/
def perform (T : TempDirs σ) (s : Session σ) : Action → Session σ
  | .register key compiler => { s with workshop := s.workshop.register key compiler }
  | .compile request =>
    let (outcome, scratch) := s.workshop.compile T request s.scratch
    { s with scratch, handles := s.handles ++ outcome.handles }
  | .drop place => s.spend place (Handle.drop T)
  | .release place => s.spend place fun handle scratch => (handle.release T scratch).2
  | .delete place name =>
    match s.handles[place]? with
    | none => s
    | some handle => { s with scratch := T.deleteFile s.scratch handle.directory name }
  | .run request options => { s with scratch := (s.workshop.run T request options s.scratch).2 }
  | .finish place options => s.spend place fun handle scratch => (handle.finish T options scratch).2

variable {first : σ} {s : Session σ}

theorem adds_spend (h : T.Adds first s.handles s.scratch) (place : Nat) {use : Handle → σ → σ}
    (huse : ∀ handle ∈ s.handles, T.files? (use handle s.scratch) =
      Function.update (T.files? s.scratch) handle.directory none) :
    T.Adds first (s.spend place use).handles (s.spend place use).scratch := by
  rw [spend]
  split
  · exact h
  · rename_i handle hplace
    have hfiles := huse handle (List.mem_of_getElem? hplace)
    obtain ⟨hlt, rfl⟩ := List.getElem?_eq_some_iff.1 hplace
    dsimp only
    rw [List.eraseIdx_eq_take_drop_succ]
    refine TempDirs.Adds.remove ?_ hfiles
    rwa [List.getElem_cons_drop, List.take_append_drop]

/-- Every action leaves the scratch space accounted for. -/
theorem adds_perform (hT : T.Lawful) (hdeletes : T.Deletes) (h : T.Adds first s.handles s.scratch)
    (action : Action) :
    T.Adds first (s.perform T action).handles (s.perform T action).scratch := by
  cases action with
  | register key compiler => exact h
  | compile request => exact h.trans (s.workshop.adds_compile hT hdeletes request s.scratch)
  | drop place => exact adds_spend h place fun _ hmem => h.files?_drop hT hdeletes hmem
  | release place => exact adds_spend h place fun _ hmem => h.files?_release hT hdeletes hmem
  | delete place name =>
    rw [perform]
    split
    · exact h
    · exact h.edit hT (List.mem_of_getElem? ‹_›) _
  | run request options =>
    have := h.trans (s.workshop.adds_run hT hdeletes request options s.scratch)
    rwa [List.append_nil] at this
  | finish place options => exact adds_spend h place fun _ hmem => h.files?_release hT hdeletes hmem

theorem adds_foldl (hT : T.Lawful) (hdeletes : T.Deletes) (h : T.Adds first s.handles s.scratch)
    (actions : List Action) :
    T.Adds first (actions.foldl (perform T) s).handles (actions.foldl (perform T) s).scratch := by
  induction actions generalizing s with
  | nil => exact h
  | cons action actions ih => exact ih (adds_perform hT hdeletes h action)

/-- **Scratch space is neither leaked nor lost.** Whatever is done with a workshop, whatever its compilers
do, and whatever directories the system refuses to make, the directories that are there are those that were
there at first and one for each handle alive. From any point of a session, a compilation adds the directory
of its handle if it is a success and nothing else; a run leaves the scratch space as it was; and a handle
that is dropped, released or finished, whether or not its artifact can be loaded and listed, takes its own
directory with it and no other. -/
theorem scratch_exact (hT : T.Lawful) (hdeletes : T.Deletes) (w : Workshop) (scratch : σ)
    (actions : List Action) :
    let s := actions.foldl (perform T) { workshop := w, scratch }
    T.Adds scratch s.handles s.scratch ∧
    (∀ request, T.Adds s.scratch (s.workshop.compile T request s.scratch).1.handles
      (s.workshop.compile T request s.scratch).2) ∧
    (∀ request options,
      T.files? (s.workshop.run T request options s.scratch).2 = T.files? s.scratch) ∧
    ∀ handle ∈ s.handles, (T.files? s.scratch handle.directory).isSome ∧
      let without := Function.update (T.files? s.scratch) handle.directory none
      T.files? (handle.drop T s.scratch) = without ∧
      T.files? (handle.release T s.scratch).2 = without ∧
      ∀ options, T.files? (handle.finish T options s.scratch).2 = without := by
  intro s
  have h : T.Adds scratch s.handles s.scratch :=
    adds_foldl hT hdeletes (TempDirs.Adds.refl T scratch) actions
  refine ⟨h, fun request => s.workshop.adds_compile hT hdeletes request s.scratch,
    fun request options => (s.workshop.adds_run hT hdeletes request options s.scratch).files?_eq,
    fun handle hmem => ⟨h.held handle hmem, h.files?_drop hT hdeletes hmem,
      h.files?_release hT hdeletes hmem, fun options => ?_⟩⟩
  rw [Handle.finish_snd]
  exact h.files?_release hT hdeletes hmem

/-- A compiler that crashes on an empty source and makes an artifact of every other. -/
def hollow : Compiler := fun job =>
  if job.source = "" then .crashed none
  else .finished { files := [("snippet.dll", .text "")], artifact := some "snippet.dll" }

/-- A root with a directory of another's. -/
def shared : ScratchRoot where
  entries := [(0, [])]
  next := 1
  lt_next := List.forall_mem_singleton.2 Nat.one_pos

/-- A system with room for three directories. -/
def cramped : TempDirs ScratchRoot := ScratchRoot.tempDirs fun r =>
  if r.entries.length < 3 then none else some "No space left on device (os error 28)"

/-- Two successes and a run for which there is no room; a success that is dropped, a crash, and a success
whose artifact vanishes. -/
def untidy : List Action :=
  [.register "C#" hollow, .compile { source := "a" }, .compile { source := "b" },
    .run { source := "c" } {}, .drop 0, .compile {}, .release 0, .compile { source := "d" },
    .delete 0 "snippet.dll", .compile { source := "e" }]

/-- A directory that was there at first outlives all that are made beside it. -/
theorem scratch_untidy : cramped.Lawful ∧ cramped.Deletes ∧
    let s := untidy.foldl (perform cramped) { workshop := {}, scratch := shared }
    let handle := Handle.new 4 "snippet.dll" []
    s.handles = [handle, .new 5 "snippet.dll" []] ∧ s.scratch.entries.map (·.1) = [0, 4, 5] ∧
    (s.workshop.compile cramped { source := "f" } s.scratch).1 =
      .tooling (.scratchRefused "No space left on device (os error 28)") ∧
    (handle.finish cramped {} s.scratch).1 = .failure (.load (.io noSuchFile)) ∧
    cramped.files? (handle.finish cramped {} s.scratch).2 =
      Function.update (cramped.files? s.scratch) 4 none :=
  have hlawful : cramped.Lawful := ScratchRoot.lawful_tempDirs _
  have hdeletes : cramped.Deletes := ScratchRoot.deletes_tempDirs _
  ⟨hlawful, hdeletes, by decide +kernel, by decide +kernel, by decide +kernel, by decide +kernel,
    ((scratch_exact hlawful hdeletes {} shared untidy).2.2.2 _ (by decide +kernel)).2.2.2 {}⟩

end Session

end CilScope
