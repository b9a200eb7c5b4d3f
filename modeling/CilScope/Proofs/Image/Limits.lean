import CilScope.Proofs.Draft.Limits
import CilScope.Proofs.Image.Bodies
import CilScope.Proofs.Image.Control
import CilScope.Proofs.Lowering.Nesting

/-!
# When code generation fails

The code of every method is a block, whatever is wrong with the method: all labels that branches go to are
bound in it. So there is nothing that a body could fail for but a limit of the instruction formats.
`Lowering.drafts` lists the drafts of methods that are lowered one behind the other, `Overrun` says how a
method exceeds a limit, and `Image.generate_fails_iff` that code generation fails for no other reason.
-/

namespace CilScope.Lowering

variable {program : Program} {options : CodeOptions} {owner : Nat} {method : Method}
  {shared : Shared} {fault : GenerationFault}

/-- The state that the lowering of a method ends in, whether or not its draft can be laid out. -/
def methodState (program : Program) (options : CodeOptions) (owner : Nat) (method : Method)
    (shared : Shared) : State :=
  (methodBody (methodContext program options owner method) shared.start).2

/-- What a state leaves to the methods behind. -/
def State.left (s : State) : Shared := { references := s.references, log := s.log }

/-- The drafts of methods, each with the type it belongs to, that are lowered one behind the other. -/
def drafts (program : Program) (options : CodeOptions) : List (Nat × Method) → Shared →
    List (Method × Draft)
  | [], _ => []
  | (owner, method) :: rest, shared =>
    let s := methodState program options owner method shared
    (method, s.draft) :: drafts program options rest s.left

/-- What these methods leave to those behind. -/
def leave (program : Program) (options : CodeOptions) (methods : List (Nat × Method))
    (shared : Shared) : Shared :=
  methods.foldl (fun shared (owner, method) => (methodState program options owner method shared).left)
    shared

theorem drafts_append (xs ys : List (Nat × Method)) (shared : Shared) :
    drafts program options (xs ++ ys) shared =
      drafts program options xs shared ++ drafts program options ys (leave program options xs shared) := by
  induction xs generalizing shared with
  | nil => rfl
  | cons x xs ih => exact congrArg (_ :: ·) (ih _)

/-- How a method with its draft exceeds a limit: it takes more arguments than can be counted, or its draft
exceeds one. -/
inductive Overrun (method : Method) (d : Draft) : GenerationFault → Prop
  | arguments (h : 0xFFFF < method.arity) :
      Overrun method d (.tooManyArguments method.name method.arity)
  | draft {fault : GenerationFault} (h : d.Overruns fault) : Overrun method d fault

/-! ## One method -/

theorem block_methodState (program : Program) (options : CodeOptions) (owner : Nat) (method : Method)
    (shared : Shared) : Draft.Block .body {} (methodState program options owner method shared).draft :=
  (block_methodBody rfl rfl rfl).1

theorem lowerMethod_of_arity (h : method.arity ≤ 0xFFFF) :
    lowerMethod program options owner method shared =
      (methodState program options owner method shared).draft.finish.map fun body =>
        (body, (methodState program options owner method shared).left) := by
  have harity : ¬ 0x10000 ≤ method.arity := Nat.not_le_of_lt (Nat.lt_succ_of_le h)
  unfold lowerMethod
  rw [if_neg harity]
  show Except.bind (methodState program options owner method shared).draft.finish _ = _
  cases (methodState program options owner method shared).draft.finish <;> rfl

theorem overrun_of_lowerMethod
    (hlen : (methodState program options owner method shared).draft.bodyLength < 2 ^ 31)
    (h : lowerMethod program options owner method shared = .error fault) :
    Overrun method (methodState program options owner method shared).draft fault := by
  by_cases harity : method.arity ≤ 0xFFFF
  · rw [lowerMethod_of_arity harity] at h
    refine .draft ((block_methodState ..).overruns_of_finish hlen ?_)
    cases hfinish : (methodState program options owner method shared).draft.finish with
    | ok body =>
      rw [hfinish] at h
      cases h
    | error fault' =>
      rw [hfinish] at h
      cases h
      rfl
  · have hmany : 0x10000 ≤ method.arity := Nat.lt_of_not_le harity
    unfold lowerMethod at h
    rw [if_pos hmany] at h
    cases h
    exact .arguments (Nat.lt_of_not_le harity)

theorem finish_of_lowerMethod {r : FinishedBody × Shared}
    (h : lowerMethod program options owner method shared = .ok r) :
    method.arity ≤ 0xFFFF ∧
      (methodState program options owner method shared).draft.finish = .ok r.1 ∧
      r.2 = (methodState program options owner method shared).left := by
  have harity : method.arity ≤ 0xFFFF := Nat.le_of_lt_succ (lowerMethod_eq_ok h).1
  rw [lowerMethod_of_arity harity] at h
  cases hfinish : (methodState program options owner method shared).draft.finish with
  | error fault' =>
    rw [hfinish] at h
    cases h
  | ok body' =>
    rw [hfinish] at h
    cases h
    exact ⟨harity, rfl, rfl⟩

theorem not_overrun_of_lowerMethod {r : FinishedBody × Shared}
    (h : lowerMethod program options owner method shared = .ok r) :
    ¬ Overrun method (methodState program options owner method shared).draft fault := by
  obtain ⟨harity, hfinish, -⟩ := finish_of_lowerMethod h
  intro hover
  cases hover with
  | arguments hmany => exact Nat.not_lt_of_le harity hmany
  | draft hover => exact (block_methodState ..).not_overruns_of_finish hfinish _ hover

/-! ## Many methods -/

/-- A run over the drafts fails for one that exceeds a limit, and only then. -/
structure Judged {α : Type} (drafts : List (Method × Draft)) (r : Except GenerationFault α) : Prop where
  error : ∀ fault, (∀ x ∈ drafts, x.2.bodyLength < 2 ^ 31) → r = .error fault →
    ∃ x ∈ drafts, Overrun x.1 x.2 fault
  ok : ∀ a, r = .ok a → ∀ x ∈ drafts, ∀ fault, ¬ Overrun x.1 x.2 fault

namespace Judged

variable {α β : Type} {ds ds' : List (Method × Draft)} {r : Except GenerationFault α}

theorem empty (a : α) : Judged [] (.ok a : Except GenerationFault α) :=
  ⟨fun _ _ h => (by cases h), fun _ _ _ hx => absurd hx List.not_mem_nil⟩

/-- A run, and what follows if it does not fail. -/
theorem bind {k : α → Except GenerationFault β} (h : Judged ds r)
    (hk : ∀ a, r = .ok a → Judged ds' (k a)) : Judged (ds ++ ds') (r >>= k) := by
  cases hr : r with
  | error fault =>
    refine ⟨fun fault' hlen heq => ?_, fun b hb => by cases hb⟩
    cases heq
    obtain ⟨x, hx, hover⟩ := h.error fault (fun x hx => hlen x (List.mem_append_left _ hx)) hr
    exact ⟨x, List.mem_append_left _ hx, hover⟩
  | ok a =>
    have hlater := hk a hr
    refine ⟨fun fault hlen heq => ?_, fun b hb x hx => ?_⟩
    · obtain ⟨x, hx, hover⟩ := hlater.error fault (fun x hx => hlen x (List.mem_append_right _ hx)) heq
      exact ⟨x, List.mem_append_right _ hx, hover⟩
    · exact (List.mem_append.1 hx).elim (h.ok a hr x) (hlater.ok b hb x)

/-- What follows cannot fail. -/
theorem map {k : α → Except GenerationFault β} (h : Judged ds r) (hk : ∀ a, ∃ b, k a = .ok b) :
    Judged ds (r >>= k) := by
  have hlast (a : α) : Judged [] (k a) := by
    obtain ⟨b, hb⟩ := hk a
    exact hb ▸ .empty b
  simpa using h.bind fun a _ => hlast a

end Judged

theorem judged_lowerMethod (program : Program) (options : CodeOptions) (owner : Nat) (method : Method)
    (shared : Shared) :
    Judged [(method, (methodState program options owner method shared).draft)]
      (lowerMethod program options owner method shared) := by
  refine ⟨fun fault hlen h => ⟨_, List.mem_singleton_self _, ?_⟩, fun r h x hx fault => ?_⟩
  · exact overrun_of_lowerMethod (hlen _ (List.mem_singleton_self _)) h
  · rw [List.mem_singleton.1 hx]
    exact not_overrun_of_lowerMethod h

theorem judged_lowerMethods (program : Program) (options : CodeOptions) (owner : Nat)
    (methods : List Method) (shared : Shared) :
    Judged (drafts program options (methods.map (owner, ·)) shared)
        (lowerMethods program options owner methods shared) ∧
      ∀ r, lowerMethods program options owner methods shared = .ok r →
        r.2 = leave program options (methods.map (owner, ·)) shared := by
  induction methods generalizing shared with
  | nil => exact ⟨.empty _, fun r h => by cases h; rfl⟩
  | cons m rest ih =>
    refine ⟨?_, fun r h => ?_⟩
    · refine (judged_lowerMethod program options owner m shared).bind fun a ha => ?_
      obtain ⟨body, behind⟩ := a
      obtain ⟨-, -, rfl⟩ := finish_of_lowerMethod ha
      exact (ih _).1.map fun b => ⟨_, rfl⟩
    · obtain ⟨⟨body, behind⟩, hbody, h⟩ := bind_eq_ok h
      obtain ⟨⟨bodies, last⟩, hbodies, h⟩ := bind_eq_ok h
      cases h
      obtain ⟨-, -, rfl⟩ := finish_of_lowerMethod hbody
      exact (ih (methodState program options owner m shared).left).2 (bodies, last) hbodies

/-- The methods of types from a row on, each with its type. -/
def owned (row : Nat) (types : List Members) : List (Nat × Method) :=
  (types.zipIdx row).flatMap fun (members, i) => members.methods.map (i, ·)

/-- **Lowering types fails exactly for a method that exceeds a limit.** -/
theorem judged_lowerTypes (program : Program) (options : CodeOptions) (row : Nat)
    (types : List Members) (shared : Shared) :
    Judged (drafts program options (owned row types) shared)
      (lowerTypes program options row types shared) := by
  induction types generalizing row shared with
  | nil => exact .empty _
  | cons members rest ih =>
    obtain ⟨hown, hleave⟩ := judged_lowerMethods program options row members.methods shared
    have howned : owned row (members :: rest) = members.methods.map (row, ·) ++ owned (row + 1) rest := by
      rw [owned, List.zipIdx_cons, List.flatMap_cons, owned]
    rw [howned, drafts_append]
    refine hown.bind fun a ha => ?_
    rw [← hleave a ha]
    exact (ih (row + 1) a.2).map fun b => ⟨_, rfl⟩

end CilScope.Lowering

namespace CilScope.Image

open Lowering

/-- The drafts of the methods of a unit, in the order in which they are lowered. -/
def drafts (language : Language) (options : CodeOptions) (unit : Source.CompilationUnit) (log : Log) :
    List (Method × Draft) :=
  let (program, log) := (Program.declare language unit).run log
  Lowering.drafts program options (owned 1 program.members.toList.tail)
    { references := startReferences options.core, log }

/-- **Code generation fails for a limit that a method exceeds, and for nothing else**, whether or not the
source has errors: a label that is not bound or a branch out of reach is not among the reasons. It does fail
for every such method, and an image has a body for each method that was declared. -/
theorem generate_fails_iff {language : Language} {options : CodeOptions} {mvid : Vector UInt8 16}
    {unit : Source.CompilationUnit} {log : Log}
    (hbytes : ∀ x ∈ drafts language options unit log, x.2.bodyLength < 2 ^ 31) :
    (∀ fault, generate language options mvid unit log = .error fault →
      ∃ x ∈ drafts language options unit log, Overrun x.1 x.2 fault) ∧
    ((∃ x ∈ drafts language options unit log, ∃ fault, Overrun x.1 x.2 fault) →
      ∃ fault, generate language options mvid unit log = .error fault) ∧
    ∀ image log', generate language options mvid unit log = .ok (some image, log') →
      ∀ owner, ∀ m ∈ (((Program.declare language unit).run log).1.membersOf owner).methods,
        ∃ body, image.bodies[m.row]? = some body := by
  rcases hprogram : (Program.declare language unit).run log with ⟨program, declared⟩
  have hjudged : Judged (drafts language options unit log)
      (generate language options mvid unit log) := by
    rw [drafts, generate, hprogram]
    refine (judged_lowerTypes program options 1 program.members.toList.tail _).map fun a => ?_
    dsimp only
    split <;> exact ⟨_, rfl⟩
  refine ⟨fun fault => hjudged.error fault hbytes, ?_, fun image log' h owner m hm => ?_⟩
  · rintro ⟨x, hx, fault, hover⟩
    cases hgenerate : generate language options mvid unit log with
    | error fault' => exact ⟨fault', rfl⟩
    | ok r => exact absurd hover (hjudged.ok r hgenerate x hx fault)
  · obtain ⟨body, -, -, hbody, -⟩ := lowered_of_generate hprogram h hm
    exact ⟨body, hbody⟩

/-- A method with so many parameters that the short store does not reach the last one. That it returns no
value is an error of the source. -/
def crowdedDecl : Source.MethodDecl where
  name := "M"
  ret := ⟨.int, {}⟩
  params := (List.range 257).map fun i => ⟨"p" ++ toString i, ⟨.int, {}⟩, {}⟩
  access := none
  isStatic := true
  body := [.assign {} (.name {} "p256") .set (.int {} 1)]
  pos := {}
  endPos := {}

def crowdedUnit : Source.CompilationUnit where
  imports := []
  types := [⟨"", "P", .class_, none, [], [crowdedDecl], [], {}⟩]

/-- The code of the method is short, and it fails for the store alone. -/
theorem generate_crowded :
    let drafts := drafts .csharp escapeOptions crowdedUnit (.forSnippet .csharp)
    (∀ x ∈ drafts, x.2.bodyLength < 2 ^ 31) ∧ ∃ fault,
      generate .csharp escapeOptions (Vector.replicate 16 0) crowdedUnit (.forSnippet .csharp) =
        .error fault ∧
      fault = .argumentOutOfRange 256 ∧ ∃ x ∈ drafts, Overrun x.1 x.2 fault := by
  intro drafts
  have hsize : (drafts.all fun x => 6 * x.2.code.size < 2 ^ 31) = true := by decide +kernel
  have hbytes : ∀ x ∈ drafts, x.2.bodyLength < 2 ^ 31 := fun x hx =>
    Nat.lt_of_le_of_lt x.2.bodyLength_le (of_decide_eq_true (List.all_eq_true.1 hsize x hx))
  have hfault : (match generate .csharp escapeOptions (Vector.replicate 16 0) crowdedUnit
      (.forSnippet .csharp) with
      | .error fault => decide (fault = .argumentOutOfRange 256)
      | .ok _ => false) = true := by decide +kernel
  cases hgenerate : generate .csharp escapeOptions (Vector.replicate 16 0) crowdedUnit
      (.forSnippet .csharp) with
  | error fault =>
    rw [hgenerate] at hfault
    exact ⟨hbytes, fault, rfl, of_decide_eq_true hfault, (generate_fails_iff hbytes).1 fault hgenerate⟩
  | ok =>
    rw [hgenerate] at hfault
    cases hfault

end CilScope.Image
