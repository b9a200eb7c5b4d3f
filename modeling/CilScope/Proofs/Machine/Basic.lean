import CilScope.Instruction
import Mathlib

/-!
# The evaluation machine

A machine for the instructions that work on 32-bit words: an operand stack, the locals and the
arguments of one call. What an opcode does is an `Action`, which the short and the long forms of an
instruction share. The machine is stated over any way to fetch instructions, so that bodies whose
branches go to labels and bodies whose branches go to offsets run on the same machine.

* `run`: a number of steps of the machine;
* `Reach`: a run of at least a given number of steps leads from one status to another;
* `run_map`: renaming the places of a program renames its runs.
-/

namespace CilScope.Machine

/-! ## Arithmetic -/

/-- A division that truncates, unless the divisor is zero or the quotient is no 32-bit word. -/
def divide? (a b : Int32) : Option Int32 :=
  if b = 0 ∨ (a = Int32.minValue ∧ b = -1) then none else some (a / b)

/-- The remainder of `divide?`. -/
def remainder? (a b : Int32) : Option Int32 :=
  if b = 0 ∨ (a = Int32.minValue ∧ b = -1) then none else some (a % b)

/-- The word of a truth value. -/
def ofBool (b : Bool) : Int32 := if b then 1 else 0

/-! ## Instructions -/

/-- The memory of one call. -/
structure Memory where
  stack : List Int32
  locals : List Int32
  args : List Int32
  deriving DecidableEq, Repr

/-- The part of an operand that is no place in the code. -/
inductive Immediate
  | none
  | int (value : Int32)
  | var (index : UInt16)
  deriving DecidableEq, Repr

/-- What an instruction does. -/
inductive Action
  | nop
  | push (v : Int32)
  | loadLocal (i : Nat)
  | storeLocal (i : Nat)
  | loadArg (i : Nat)
  | storeArg (i : Nat)
  | unary (f : Int32 → Int32)
  /-- Takes two words, the right one on top; `none` is a fault. -/
  | binary (f : Int32 → Int32 → Option Int32)
  | jump
  | jumpIf (test : Int32 → Bool)
  | jumpIfBoth (test : Int32 → Int32 → Bool)
  | ret

/-- What an opcode does; `none` for opcodes that do not work on words. -/
def action? : Opcode → Immediate → Option Action
  | .nop, _ => some .nop
  | .ldarg0, _ => some (.loadArg 0)
  | .ldarg1, _ => some (.loadArg 1)
  | .ldarg2, _ => some (.loadArg 2)
  | .ldarg3, _ => some (.loadArg 3)
  | .ldargS, .var i | .ldarg, .var i => some (.loadArg i.toNat)
  | .stargS, .var i => some (.storeArg i.toNat)
  | .ldloc0, _ => some (.loadLocal 0)
  | .ldloc1, _ => some (.loadLocal 1)
  | .ldloc2, _ => some (.loadLocal 2)
  | .ldloc3, _ => some (.loadLocal 3)
  | .ldlocS, .var i | .ldloc, .var i => some (.loadLocal i.toNat)
  | .stloc0, _ => some (.storeLocal 0)
  | .stloc1, _ => some (.storeLocal 1)
  | .stloc2, _ => some (.storeLocal 2)
  | .stloc3, _ => some (.storeLocal 3)
  | .stlocS, .var i | .stloc, .var i => some (.storeLocal i.toNat)
  | .ldcI4M1, _ => some (.push (-1))
  | .ldcI40, _ => some (.push 0)
  | .ldcI41, _ => some (.push 1)
  | .ldcI42, _ => some (.push 2)
  | .ldcI43, _ => some (.push 3)
  | .ldcI44, _ => some (.push 4)
  | .ldcI45, _ => some (.push 5)
  | .ldcI46, _ => some (.push 6)
  | .ldcI47, _ => some (.push 7)
  | .ldcI48, _ => some (.push 8)
  | .ldcI4S, .int v | .ldcI4, .int v => some (.push v)
  | .add, _ => some (.binary fun a b => some (a + b))
  | .sub, _ => some (.binary fun a b => some (a - b))
  | .mul, _ => some (.binary fun a b => some (a * b))
  | .div, _ => some (.binary divide?)
  | .rem, _ => some (.binary remainder?)
  | .and, _ => some (.binary fun a b => some (a &&& b))
  | .or, _ => some (.binary fun a b => some (a ||| b))
  | .xor, _ => some (.binary fun a b => some (a ^^^ b))
  | .ceq, _ => some (.binary fun a b => some (ofBool (a = b)))
  | .cgt, _ => some (.binary fun a b => some (ofBool (b < a)))
  | .clt, _ => some (.binary fun a b => some (ofBool (a < b)))
  | .neg, _ => some (.unary fun a => -a)
  | .not, _ => some (.unary fun a => ~~~a)
  | .brS, _ | .br, _ => some .jump
  | .brfalseS, _ | .brfalse, _ => some (.jumpIf (· = 0))
  | .brtrueS, _ | .brtrue, _ => some (.jumpIf (· ≠ 0))
  | .beqS, _ | .beq, _ => some (.jumpIfBoth fun a b => a = b)
  | .bneUnS, _ | .bneUn, _ => some (.jumpIfBoth fun a b => a ≠ b)
  | .bltS, _ | .blt, _ => some (.jumpIfBoth fun a b => a < b)
  | .bleS, _ | .ble, _ => some (.jumpIfBoth fun a b => a ≤ b)
  | .bgtS, _ | .bgt, _ => some (.jumpIfBoth fun a b => b < a)
  | .bgeS, _ | .bge, _ => some (.jumpIfBoth fun a b => b ≤ a)
  | .ret, _ => some .ret
  | _, _ => none

/-- What becomes of the memory, and where control goes. -/
inductive Effect
  | next (m : Memory)
  | jump (m : Memory)
  | return_ (stack : List Int32)
  | fault
  | stuck

/-- The effect of an action. -/
def Action.perform : Action → Memory → Effect
  | .nop, m => .next m
  | .push v, m => .next { m with stack := v :: m.stack }
  | .loadLocal i, m =>
    match m.locals[i]? with
    | some v => .next { m with stack := v :: m.stack }
    | none => .stuck
  | .loadArg i, m =>
    match m.args[i]? with
    | some v => .next { m with stack := v :: m.stack }
    | none => .stuck
  | .storeLocal i, ⟨v :: stack, locals, args⟩ =>
    if i < locals.length then .next ⟨stack, locals.set i v, args⟩ else .stuck
  | .storeArg i, ⟨v :: stack, locals, args⟩ =>
    if i < args.length then .next ⟨stack, locals, args.set i v⟩ else .stuck
  | .unary f, ⟨a :: stack, locals, args⟩ => .next ⟨f a :: stack, locals, args⟩
  | .binary f, ⟨b :: a :: stack, locals, args⟩ =>
    match f a b with
    | some v => .next ⟨v :: stack, locals, args⟩
    | none => .fault
  | .jump, m => .jump m
  | .jumpIf test, ⟨a :: stack, locals, args⟩ =>
    if test a then .jump ⟨stack, locals, args⟩ else .next ⟨stack, locals, args⟩
  | .jumpIfBoth test, ⟨b :: a :: stack, locals, args⟩ =>
    if test a b then .jump ⟨stack, locals, args⟩ else .next ⟨stack, locals, args⟩
  | .ret, m => .return_ m.stack
  | _, _ => .stuck

/-! ## Steps -/

variable {π ρ : Type}

/-- An instruction with the places that control may go to. -/
structure Fetched (π : Type) where
  action : Action
  next : π
  target : Option π

/-- What a run has come to. -/
inductive Status (π : Type)
  | running (pc : π) (m : Memory)
  /-- The method has returned; the stack holds the value it returns. -/
  | returned (stack : List Int32)
  | faulted
  /-- There is no instruction, or it lacks what it needs. -/
  | stuck

/-- Where an effect leads. -/
def Fetched.follow (i : Fetched π) : Effect → Status π
  | .next m => .running i.next m
  | .jump m =>
    match i.target with
    | some t => .running t m
    | none => .stuck
  | .return_ stack => .returned stack
  | .fault => .faulted
  | .stuck => .stuck

/-- One step. -/
def step (fetch : π → Option (Fetched π)) : Status π → Status π
  | .running pc m =>
    match fetch pc with
    | some i => i.follow (i.action.perform m)
    | none => .stuck
  | s => s

/-- A number of steps. -/
def run (fetch : π → Option (Fetched π)) : Nat → Status π → Status π
  | 0, s => s
  | n + 1, s => run fetch n (step fetch s)

/-- The part of an operand that is no place. -/
def immediate : Operand → Immediate
  | .int v => .int v
  | .var i => .var i
  | _ => .none

/-- Fetching from a decoded body, by offset. -/
def fetch (is : List Instruction) (pc : UInt32) : Option (Fetched UInt32) := do
  let i ← is.find? (·.offset = pc)
  let action ← action? i.opcode (immediate i.operand)
  return { action, next := i.next, target := i.target? }

/-- The status a call starts in: at the first offset, the stack empty and the locals zero. -/
def entry (locals : Nat) (args : List Int32) : Status UInt32 :=
  .running 0 { stack := [], locals := List.replicate locals 0, args }

/-! ## Runs -/

section

variable {fetch : π → Option (Fetched π)}

theorem run_add (m n : Nat) (s : Status π) : run fetch (m + n) s = run fetch n (run fetch m s) := by
  induction m generalizing s with
  | zero => rw [Nat.zero_add]; rfl
  | succ m ih => rw [Nat.succ_add]; exact ih (step fetch s)

/-- Whether a run has ended. -/
def Status.Halted : Status π → Prop
  | .running .. => False
  | _ => True

theorem run_of_halted {s : Status π} (h : s.Halted) (n : Nat) : run fetch n s = s := by
  have hstep : step fetch s = s := by
    cases s with
    | running => exact h.elim
    | returned | faulted | stuck => rfl
  induction n with
  | zero => rfl
  | succ n ih => rw [run, hstep, ih]

/-- A run of at least `k` steps leads from `a` to `b`. -/
def Reach (fetch : π → Option (Fetched π)) (k : Nat) (a b : Status π) : Prop :=
  ∃ n, k ≤ n ∧ run fetch n a = b

namespace Reach

theorem refl (a : Status π) : Reach fetch 0 a a := ⟨0, Nat.le_refl 0, rfl⟩

theorem trans {j k : Nat} {a b c : Status π} (hab : Reach fetch j a b) (hbc : Reach fetch k b c) :
    Reach fetch (j + k) a c := by
  obtain ⟨m, hm, rfl⟩ := hab
  obtain ⟨n, hn, rfl⟩ := hbc
  exact ⟨m + n, by omega, run_add m n a⟩

theorem weaken {j k : Nat} {a b : Status π} (h : Reach fetch k a b) (hjk : j ≤ k) :
    Reach fetch j a b := by
  obtain ⟨n, hn, hrun⟩ := h
  exact ⟨n, by omega, hrun⟩

theorem one {a b : Status π} (h : step fetch a = b) : Reach fetch 1 a b := ⟨1, Nat.le_refl 1, h⟩

/-- A run that has ended is all there is. -/
theorem eq_of_halted {j k : Nat} {a b c : Status π} (hb : Reach fetch j a b) (hc : Reach fetch k a c)
    (hbh : b.Halted) (hch : c.Halted) : b = c := by
  obtain ⟨m, -, hm⟩ := hb
  obtain ⟨n, -, hn⟩ := hc
  rcases Nat.le_total m n with h | h
  · obtain ⟨d, rfl⟩ := Nat.exists_eq_add_of_le h
    rw [run_add, hm, run_of_halted hbh] at hn
    exact hn
  · obtain ⟨d, rfl⟩ := Nat.exists_eq_add_of_le h
    rw [run_add, hn, run_of_halted hch] at hm
    exact hm.symm

/-- A run that still goes on after `k` steps had not ended before. -/
theorem not_halted {k n : Nat} {a b : Status π} {pc : π} {m : Memory}
    (h : Reach fetch k a (.running pc m)) (hb : run fetch n a = b) (hn : n ≤ k) : ¬b.Halted := by
  intro hhalted
  obtain ⟨j, hj, hrun⟩ := h
  obtain ⟨d, rfl⟩ := Nat.exists_eq_add_of_le (Nat.le_trans hn hj)
  rw [run_add, hb, run_of_halted hhalted] at hrun
  rw [hrun] at hhalted
  exact hhalted

end Reach

end

/-! ## Renaming places -/

/-- The instruction with its places renamed. -/
def Fetched.map (f : π → ρ) (i : Fetched π) : Fetched ρ := ⟨i.action, f i.next, i.target.map f⟩

/-- The status with its place renamed. -/
def Status.map (f : π → ρ) : Status π → Status ρ
  | .running pc m => .running (f pc) m
  | .returned stack => .returned stack
  | .faulted => .faulted
  | .stuck => .stuck

theorem Fetched.follow_map (f : π → ρ) (i : Fetched π) (e : Effect) :
    (i.map f).follow e = (i.follow e).map f := by
  obtain ⟨action, next, target⟩ := i
  cases e <;> cases target <;> rfl

/-- Programs that fetch the same instructions up to the names of places run alike. -/
theorem run_map {fetch₁ : π → Option (Fetched π)} {fetch₂ : ρ → Option (Fetched ρ)} {f : π → ρ}
    (h : ∀ pc, fetch₂ (f pc) = (fetch₁ pc).map (·.map f)) (n : Nat) (s : Status π) :
    run fetch₂ n (s.map f) = (run fetch₁ n s).map f := by
  have hstep (s : Status π) : step fetch₂ (s.map f) = (step fetch₁ s).map f := by
    cases s with
    | running pc m =>
      simp only [Status.map, step, h pc]
      cases fetch₁ pc with
      | none => rfl
      | some i => exact i.follow_map f (i.action.perform m)
    | returned | faulted | stuck => rfl
  induction n generalizing s with
  | zero => rfl
  | succ n ih => rw [run, hstep, ih, run]

end CilScope.Machine
