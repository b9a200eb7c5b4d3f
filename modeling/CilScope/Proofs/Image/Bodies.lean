import CilScope.Image
import CilScope.Proofs.Draft.Layout
import CilScope.Proofs.Lowering.Frame

/-!
# The bodies of an image

Methods are lowered one after the other, in the order of their rows, and share the references and the
log. So the body of a method stands at its row, and a program without errors has none in any method.
-/

namespace CilScope.Lowering

variable {program : Program} {options : CodeOptions} {owner : Nat} {method : Method}
  {shared shared' : Shared}

/-- The context that a method is lowered in. -/
def methodContext (program : Program) (options : CodeOptions) (owner : Nat) (method : Method) :
    Context :=
  { program, options, owner, method }

/-- The state that the lowering of a method starts in. -/
def Shared.start (shared : Shared) : State := { references := shared.references, log := shared.log }

theorem lowerMethod_eq_ok {body : FinishedBody}
    (h : lowerMethod program options owner method shared = .ok (body, shared')) :
    method.arity < 0x10000 ∧ ∃ s,
      (methodBody (methodContext program options owner method) shared.start).2 = s ∧
      s.draft.finish = .ok body ∧ shared'.log = s.log := by
  unfold lowerMethod at h
  split at h
  · cases h
  · rename_i harity
    refine ⟨Nat.lt_of_not_le harity, _, rfl, ?_⟩
    obtain ⟨body', hbody, h⟩ := bind_eq_ok h
    cases h
    exact ⟨hbody, rfl⟩

/-- An error of one method is still there behind the next. -/
theorem hasErrors_lowerMethod {body : FinishedBody}
    (h : lowerMethod program options owner method shared = .ok (body, shared'))
    (hlog : shared.log.hasErrors) : shared'.log.hasErrors := by
  obtain ⟨-, s, rfl, -, hlog'⟩ := lowerMethod_eq_ok h
  rw [hlog']
  exact (framed_methodBody (typing_any program) _ shared.start
    (sees_any (methodContext program options owner method) _) (Nat.zero_le _)).1.log hlog

/-- A method that is lowered among others: its body, and no error of it is lost. -/
def Lowered (program : Program) (options : CodeOptions) (owner : Nat) (method : Method)
    (shared : Shared) (body : FinishedBody) : Prop :=
  ∃ before behind, lowerMethod program options owner method before = .ok (body, behind) ∧
    (behind.log.hasErrors → shared.log.hasErrors)

theorem lowerMethods_spec {methods : List Method} {bodies : List FinishedBody}
    (h : lowerMethods program options owner methods shared = .ok (bodies, shared')) :
    bodies.length = methods.length ∧ (shared.log.hasErrors → shared'.log.hasErrors) ∧
      ∀ (j : Nat) method, methods[j]? = some method →
        ∃ body, bodies[j]? = some body ∧ Lowered program options owner method shared' body := by
  induction methods generalizing shared bodies with
  | nil =>
    cases h
    exact ⟨rfl, id, fun j method hj => by cases hj⟩
  | cons m rest ih =>
    obtain ⟨⟨body, behind⟩, hbody, h⟩ := bind_eq_ok h
    obtain ⟨⟨others, last⟩, hothers, h⟩ := bind_eq_ok h
    cases h
    obtain ⟨hlength, hlog, hrest⟩ := ih hothers
    refine ⟨by rw [List.length_cons, List.length_cons, hlength],
      fun hs => hlog (hasErrors_lowerMethod hbody hs), fun j method hj => ?_⟩
    cases j with
    | zero =>
      cases hj
      exact ⟨body, rfl, shared, behind, hbody, hlog⟩
    | succ j => exact hrest j method hj

/-- The methods of types whose members have their rows, the first method having row `first`. -/
theorem lowerTypes_spec {types : List Members} {row fieldRow first : Nat}
    {bodies : List (List FinishedBody)}
    (h : lowerTypes program options row (Program.numberRows fieldRow first types) shared =
      .ok (bodies, shared')) :
    (shared.log.hasErrors → shared'.log.hasErrors) ∧
      ∀ (i : Nat) members, (Program.numberRows fieldRow first types)[i]? = some members →
        ∀ method ∈ members.methods, first ≤ method.row ∧
          ∃ body, bodies.flatten[method.row - first]? = some body ∧
            Lowered program options (row + i) method shared' body := by
  induction types generalizing row fieldRow first shared bodies with
  | nil =>
    cases h
    exact ⟨id, fun i members hi => by cases hi⟩
  | cons m rest ih =>
    obtain ⟨⟨own, behind⟩, hown, h⟩ := bind_eq_ok h
    obtain ⟨⟨others, last⟩, hothers, h⟩ := bind_eq_ok h
    cases h
    obtain ⟨hlength, hlog, hmethods⟩ := lowerMethods_spec hown
    obtain ⟨hlog', hrest⟩ := ih hothers
    refine ⟨fun hs => hlog' (hlog hs), fun i members hi method hmethod => ?_⟩
    rw [List.flatten_cons]
    cases i with
    | zero =>
      cases hi
      obtain ⟨j, hj⟩ := List.mem_iff_getElem?.1 hmethod
      obtain ⟨body, hbody, hlowered⟩ := hmethods j method hj
      have hrow : method.row = first + j := by
        rw [List.getElem?_mapIdx] at hj
        obtain ⟨m', -, rfl⟩ := Option.map_eq_some_iff.1 hj
        rfl
      obtain ⟨before, after, hmethod, herrors⟩ := hlowered
      refine ⟨by omega, body, ?_, before, after, hmethod, fun hs => hlog' (herrors hs)⟩
      rw [hrow, Nat.add_sub_cancel_left, List.getElem?_append_left, hbody]
      exact (List.getElem?_eq_some_iff.1 hbody).1
    | succ i =>
      obtain ⟨hle, body, hbody, hlowered⟩ := hrest i members hi method hmethod
      have hown : own.length = m.methods.length := by rw [hlength, List.length_mapIdx]
      refine ⟨by omega, body, ?_, ?_⟩
      · rw [List.getElem?_append_right (by omega), hown, Nat.sub_sub, hbody]
      · rw [← Nat.add_assoc, Nat.add_right_comm]
        exact hlowered

end CilScope.Lowering

namespace CilScope.Image

open Lowering

/-- The members of a declared program have their rows. -/
theorem members_of_declare {language : Language} {unit : Source.CompilationUnit} {log log' : Log}
    {program : Program} (h : (Program.declare language unit).run log = (program, log')) :
    ∃ members, program.members.toList = {} :: Program.numberRows 0 0 members := by
  cases h
  exact ⟨_, rfl⟩

/-- **The body of every method stands at its row**, and no method of an image has an error. -/
theorem lowered_of_generate {language : Language} {options : CodeOptions} {mvid : Vector UInt8 16}
    {unit : Source.CompilationUnit} {log log' declared : Log} {program : Program} {image : Image}
    (hprogram : (Program.declare language unit).run log = (program, declared))
    (h : generate language options mvid unit log = .ok (some image, log')) {owner : Nat}
    {method : Method} (hmethod : method ∈ (program.membersOf owner).methods) :
    ∃ body before behind, image.bodies[method.row]? = some body ∧
      lowerMethod program options owner method before = .ok (body, behind) ∧
      behind.log.hasErrors = false := by
  rw [generate, hprogram] at h
  obtain ⟨⟨bodies, shared⟩, hbodies, h⟩ := bind_eq_ok h
  dsimp only at h
  split at h
  · cases h
  rename_i hclean
  cases h
  obtain ⟨members, hmembers⟩ := members_of_declare hprogram
  rw [hmembers, List.tail_cons] at hbodies
  obtain ⟨-, hall⟩ := lowerTypes_spec hbodies
  rw [Program.membersOf, ← Array.getElem?_toList, hmembers] at hmethod
  -- the first row is that of the placeholder, which has no methods
  cases owner with
  | zero => cases hmethod
  | succ i =>
    rw [List.getElem?_cons_succ] at hmethod
    cases hi : (Program.numberRows 0 0 members)[i]? with
    | none =>
      rw [hi] at hmethod
      cases hmethod
    | some own =>
      rw [hi] at hmethod
      obtain ⟨-, body, hbody, before, behind, hlower, herrors⟩ := hall i own hi method hmethod
      refine ⟨body, before, behind, hbody, ?_, Bool.eq_false_iff.2 fun hs => hclean (herrors hs)⟩
      rw [Nat.add_comm i 1]
      exact hlower

end CilScope.Image
