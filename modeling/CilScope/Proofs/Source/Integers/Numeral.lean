import CilScope.Proofs.Source.Positions
import CilScope.Proofs.Source.Termination

/-!
# Numerals

What integer literals are worth. A numeral is written with the digits of its base, behind a mark if that
is not ten; its value is that of its digits (`Numeral.value`). A token of an integer carries the value of
the numeral that stands where the token does, unless the numeral has been reported as too large
(`denotes_of_tokenize`). What counts as too large differs: a decimal numeral may be worth `2 ^ 31` at
most, a hexadecimal one everything that 32 bits can hold.
-/

namespace CilScope

namespace Log

/-- No number has been reported as too large. -/
def NoOverflow (log : Log) : Prop :=
  ∀ d ∈ log.diagnostics, d.code ≠ Cause.integerTooLarge.code log.language

variable {log : Log} {pos : Source.Position} {cause : Cause}

theorem NoOverflow.of_report (h : (log.report pos cause).NoOverflow) : log.NoOverflow :=
  fun d hd => h d (Array.mem_push_of_mem _ hd)

theorem not_noOverflow_report : ¬(log.report pos .integerTooLarge).NoOverflow :=
  fun h => h _ Array.mem_push_self rfl

end Log

namespace Source

open Lexeme

/-- An integer literal: its base and its digits. -/
structure Numeral where
  base : Nat
  digits : List Char
  deriving DecidableEq, Repr, Inhabited

namespace Numeral

/-- The number that is written. -/
def value (n : Numeral) : Nat := Nat.ofDigits n.base (n.digits.reverse.map digitValue)

/-- The largest number that may be written. -/
def limit (n : Numeral) : Nat := if n.base = 16 then 2 ^ 32 - 1 else 2 ^ 31

/-- The marks in front of hexadecimal digits. -/
def marks : List (Char × Char) := [('0', 'x'), ('0', 'X'), ('&', 'H'), ('&', 'h')]

/-- A numeral at the front of a text. -/
inductive Heads : Numeral → List Char → Prop
  | decimal {cs : List Char} (h : cs.takeWhile Char.isDigit ≠ []) :
      Heads ⟨10, cs.takeWhile Char.isDigit⟩ cs
  | hexadecimal {c d : Char} {cs : List Char} (hmark : (c, d) ∈ marks)
      (h : cs.takeWhile isHexDigit ≠ []) : Heads ⟨16, cs.takeWhile isHexDigit⟩ (c :: d :: cs)

theorem valueOf_eq (base : Nat) (digits : List Char) :
    valueOf base digits = Numeral.value ⟨base, digits⟩ := by
  unfold value
  induction digits using List.reverseRecOn with
  | nil => rfl
  | append_singleton digits c ih =>
    rw [valueOf, List.foldl_append, ← valueOf, ih, List.reverse_append, List.map_append,
      Nat.ofDigits_append]
    simp [Nat.add_comm]

end Numeral

namespace Lexeme

variable {language : Language} {c : Char} {cs : List Char} {n : Nat}

/-- A scan of an integer that makes no problem gives the value of the numeral at the front of a text. -/
def Reads (s : Scan) (cs : List Char) : Prop :=
  ∀ n, s.lexeme = some (.int n) → s.problem ≠ some .integerTooLarge →
    ∃ m : Numeral, m.Heads cs ∧ m.value = n ∧ n ≤ m.limit

theorem reads_scanDigits {m : Numeral} {skipped : Nat} {isDigit : Char → Bool}
    (hdigits : m.digits = (cs.drop skipped).takeWhile isDigit)
    (hheads : m.digits ≠ [] → m.Heads cs) :
    Reads (scanDigits m.base m.limit skipped isDigit cs) cs := by
  intro n hlexeme hproblem
  unfold scanDigits at hlexeme hproblem
  dsimp only at hlexeme hproblem
  split at hlexeme
  · rename_i h
    rw [Bool.and_eq_true, decide_eq_true_eq, Bool.not_eq_true', List.isEmpty_eq_false_iff,
      ← hdigits, Numeral.valueOf_eq] at h
    rw [← hdigits, Numeral.valueOf_eq] at hlexeme
    cases hlexeme
    exact ⟨m, hheads h.1, rfl, h.2⟩
  · rename_i h
    rw [if_neg h] at hproblem
    exact absurd rfl hproblem

theorem reads_hexadecimal {c d : Char} (hmark : (c, d) ∈ Numeral.marks) :
    Reads (scanDigits 16 0xFFFFFFFF 2 isHexDigit (c :: d :: cs)) (c :: d :: cs) :=
  reads_scanDigits (m := ⟨16, cs.takeWhile isHexDigit⟩) rfl fun h => .hexadecimal hmark h

theorem reads_scanNumber (hmark : c = '&' → ∃ d ds, cs = d :: ds ∧ (c, d) ∈ Numeral.marks) :
    Reads (scanNumber (c :: cs)) (c :: cs) := by
  unfold scanNumber
  split
  · next h => exact h ▸ reads_hexadecimal (by decide)
  · next h => exact h ▸ reads_hexadecimal (by decide)
  · next h =>
    obtain ⟨rfl, rfl⟩ := List.cons_eq_cons.1 h
    obtain ⟨d, ds, hcs, hd⟩ := hmark rfl
    exact hcs ▸ reads_hexadecimal hd
  · exact reads_scanDigits (m := ⟨10, (c :: cs).takeWhile Char.isDigit⟩) rfl fun h => .decimal h

/-- Every scan that gives an integer reads a numeral. -/
theorem reads_scan (language : Language) (c : Char) (cs : List Char) :
    Reads (scan language c cs) (c :: cs) := by
  have hother {s : Scan} (h : ∀ n, s.lexeme ≠ some (.int n)) : Reads s (c :: cs) :=
    fun n hn => absurd hn (h n)
  unfold scan
  split
  · refine hother fun n => ?_
    unfold scanWord
    dsimp only
    repeat' split
    all_goals nofun
  split
  · next h => exact reads_scanNumber fun hc => absurd h (by rw [hc]; decide)
  split
  · exact hother nofun
  · exact hother nofun
  · exact hother nofun
  · exact reads_scanNumber fun _ => ⟨_, _, rfl, by decide⟩
  · exact reads_scanNumber fun _ => ⟨_, _, rfl, by decide⟩
  · exact hother nofun
  · exact hother nofun
  · exact hother nofun
  · refine hother fun n => ?_
    unfold scanPunct
    split <;> nofun

/-! ### Tokens -/

/-- The token is an integer that is worth what the numeral in its place says. -/
structure Denotes (source : List Char) (t : Located) (m : Numeral) : Prop where
  lexeme : t.lexeme = .int m.value
  heads : ∃ offset, t.start = .ofOffset source offset ∧ m.Heads (source.drop offset)
  le_limit : m.value ≤ m.limit

/-- Where no number has been reported as too large behind a scan, none was before. -/
theorem noOverflow_of_scan {log : Log} {position : Position} {s : Scan}
    (h : (match s.problem with
      | some cause => log.report position cause
      | none => log).NoOverflow) : log.NoOverflow ∧ s.problem ≠ some .integerTooLarge := by
  split at h
  · next cause hcause =>
    refine ⟨h.of_report, fun hlarge => ?_⟩
    obtain rfl := Option.some.inj (hcause.symm.trans hlarge)
    exact Log.not_noOverflow_report h
  · next hnone => exact ⟨h, by simp [hnone]⟩

/-- Offsets and positions go together through a scan. -/
theorem placed_of_drop {source rest : List Char} {k skip n : Nat}
    (hdrop : (source.drop k).drop skip = c :: rest) (hn : 0 < n) :
    (Position.ofOffset source k).after ((source.drop k).take skip) = .ofOffset source (k + skip) ∧
    ((Position.ofOffset source k).after ((source.drop k).take skip)).after ((c :: rest).take n) =
      .ofOffset source (k + skip + n) ∧
    rest.drop (n - 1) = source.drop (k + skip + n) := by
  obtain ⟨j, rfl⟩ := Nat.exists_eq_add_one.mpr hn
  rw [List.drop_drop] at hdrop
  refine ⟨Position.after_drop .., ?_, ?_⟩
  · rw [Position.after_drop, ← hdrop, Position.after_drop]
  · rw [← List.drop_drop, hdrop, List.drop_succ_cons, Nat.add_sub_cancel]

theorem denotes_of_scanAll {source : List Char} {k : Nat} {position : Position} {before : Option Char}
    {log : Log} (hposition : position = .ofOffset source k) (hcs : cs = source.drop k)
    (h : (scanAll language position before cs log).2.NoOverflow) :
    log.NoOverflow ∧ ∀ t ∈ (scanAll language position before cs log).1, ∀ n, t.lexeme = .int n →
      ∃ m, Denotes source t m := by
  fun_induction scanAll language position before cs log generalizing k with
  | case1 =>
    refine ⟨h, fun t ht n hn => ?_⟩
    cases List.mem_singleton.1 ht
    cases hn
  | case2 =>
    refine ⟨(noOverflow_of_scan h).1, fun t ht n hn => ?_⟩
    cases List.mem_singleton.1 ht
    cases hn
  | case3 position before cs log skip start c rest hdrop s log₁ stop _ tail log₂ htail lexeme _ hlexeme =>
    rename_i ih
    subst hposition hcs
    have hplace := placed_of_drop hdrop (n := s.length) fits_scan.1
    rw [htail] at ih
    obtain ⟨hlog, hall⟩ := ih hplace.2.1 hplace.2.2 h
    obtain ⟨hlog, hproblem⟩ := noOverflow_of_scan hlog
    refine ⟨hlog, List.forall_mem_cons.2 ⟨fun n hn => ?_, hall⟩⟩
    obtain rfl : lexeme = .int n := hn
    obtain ⟨m, hheads, rfl, hle⟩ := reads_scan language c rest n hlexeme hproblem
    exact ⟨m, rfl, ⟨_, hplace.1, by rwa [← List.drop_drop, hdrop]⟩, hle⟩
  | case4 position before cs log skip start c rest hdrop s log₁ stop _ tail log₂ htail =>
    rename_i ih
    subst hposition hcs
    have hplace := placed_of_drop hdrop (n := s.length) fits_scan.1
    rw [htail] at ih
    obtain ⟨hlog, hall⟩ := ih hplace.2.1 hplace.2.2 h
    exact ⟨(noOverflow_of_scan hlog).1, hall⟩

theorem mem_of_mem_collapse {t : Located} {ts : List Located} {previous : Option Lexeme}
    (h : t ∈ collapse previous ts) : t ∈ ts := by
  fun_induction collapse previous ts with
  | case1 => exact h
  | case2 _ _ _ _ ih => exact List.mem_cons_of_mem _ (ih h)
  | case3 _ _ _ _ ih =>
    rcases List.mem_cons.1 h with rfl | h
    · exact List.mem_cons_self
    · exact List.mem_cons_of_mem _ (ih h)

/-- **Tokens carry the value of their numerals.** In a text without numerals that are too large, every
token of an integer carries the value of the numeral that stands in its place. -/
theorem denotes_of_tokenize {source : String} {log : Log}
    (h : (tokenize language source log).2.NoOverflow) {t : Located}
    (ht : t ∈ (tokenize language source log).1) {n : Nat} (hn : t.lexeme = .int n) :
    ∃ m, Denotes source.toList t m :=
  (denotes_of_scanAll (k := 0) rfl rfl h).2 t (mem_of_mem_collapse ht) n hn

end Lexeme

end Source

end CilScope
