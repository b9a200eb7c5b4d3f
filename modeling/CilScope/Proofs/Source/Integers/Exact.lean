import CilScope.Proofs.Source.Integers.CSharp
import CilScope.Proofs.Source.Integers.VisualBasic

/-!
# Integer literals keep their value

The integers of a syntax tree are the values of the numerals in the source text, as long as none of them
is reported as too large. Behind a minus sign stands the negation of that value, with one exception: the
range of a literal is not checked there, so a hexadecimal numeral above `2 ^ 31` is negated modulo
`2 ^ 32`.
-/

namespace CilScope.Source

open Lexeme

/-! ### Values -/

theorem toInt_ofNat_of_lt {n : Nat} (h : n < 2 ^ 31) : (Int32.ofNat n).toInt = n := by
  have hsize : Int32.size = 2 ^ 32 := rfl
  rw [Int32.toInt_ofNat', hsize, Int.bmod_eq_of_le] <;> omega

theorem toInt_ofInt_neg {n : Nat} (h : n < 2 ^ 32) :
    (Int32.ofInt (-n)).toInt = if n ≤ 2 ^ 31 then -(n : Int) else 2 ^ 32 - n := by
  have hsize : Int32.size = 2 ^ 32 := rfl
  rw [Int32.toInt_ofInt, hsize, Int.bmod]
  split_ifs <;> omega

/-- The value that an integer at a position of a tree has by the source text and its lexemes. -/
inductive Exact (source : List Char) (ts : List Located) (pos : Position) (v : Int32) : Prop
  | literal {t : Located} {m : Numeral} (ht : t ∈ ts) (hpos : t.start = pos)
      (hm : Denotes source t m) (hv : v.toInt = m.value)
  | negated {minus t : Located} {m : Numeral} (ht : [minus, t] <:+: ts) (hpos : minus.start = pos)
      (hminus : minus.lexeme = .punct "-") (hm : Denotes source t m)
      (hv : v.toInt = -m.value ∨ m.base = 16 ∧ 2 ^ 31 < m.value ∧ v.toInt = 2 ^ 32 - m.value)
  | step {t : Located} {w : String} (ht : t ∈ ts) (hpos : t.start = pos) (hw : t.lexeme = .word w)
      (hfor : Language.visualBasic.sameName w "for") (hv : v = 1)

theorem Origin.exact {source : List Char} {ts : List Located} {pos : Position} {v : Int32}
    (hts : ∀ t ∈ ts, ∀ n, t.lexeme = .int n → ∃ m, Denotes source t m) (h : Origin ts pos v) :
    Exact source ts pos v := by
  cases h with
  | literal ht hpos hn hlt =>
    obtain ⟨m, hm⟩ := hts _ ht _ hn
    obtain rfl := Lexeme.int.inj (hn.symm.trans hm.lexeme)
    exact .literal ht hpos hm (toInt_ofNat_of_lt hlt)
  | @negated minus t n ht hpos hminus hn =>
    obtain ⟨m, hm⟩ := hts _ (ht.subset (by simp)) _ hn
    obtain rfl := Lexeme.int.inj (hn.symm.trans hm.lexeme)
    have hle := hm.le_limit
    refine .negated ht hpos hminus hm ?_
    rw [Numeral.limit] at hle
    split at hle
    · rw [toInt_ofInt_neg (by omega)]
      split <;> omega
    · rw [toInt_ofInt_neg (by omega), if_pos hle]
      exact .inl rfl
  | step ht hpos hw hfor => exact .step ht hpos hw hfor rfl

theorem gives_compilationUnit {ts : List Located} {N : Cursor → Prop} :
    ∀ language, Parser.Gives ts N (CompilationUnit.Ints (Origin ts)) (compilationUnit language)
  | .csharp => CSharp.gives_compilationUnit
  | .visualBasic => VisualBasic.gives_compilationUnit

/-- **Integer literals keep their value.** If a source text is read and no number in it is reported as too
large, then every integer of its tree is what the text says in its place: the value of a literal, or behind
a minus sign its negation; only a hexadecimal literal above `2 ^ 31` is not negated but replaced by what is
left to `2 ^ 32`. No other integer is there but the step of a `For` loop without one. -/
theorem integers_exact {language : Language} {source : String} {log log' : Log} {unit : CompilationUnit}
    (h : parse language source log = (some unit, log')) (hlog : log'.NoOverflow) :
    unit.Ints (Exact source.toList (tokenize language source log).1) := by
  rw [parse] at h
  dsimp only at h
  generalize htokens : tokenize language source log = tokens at h ⊢
  generalize hrun : (compilationUnit language).run.run ⟨tokens.1, {}, tokens.2⟩ = run at h
  obtain ⟨result, c⟩ := run
  obtain ⟨hresult, rfl⟩ := Prod.mk.inj h
  cases result with
  | error e => cases hresult
  | ok unit' =>
    obtain rfl : unit' = unit := Option.some.inj hresult
    obtain ⟨-, hquiet⟩ := gives_compilationUnit (N := Parser.Anywhere) language _ c unit'
      List.suffix_rfl trivial hrun
    obtain ⟨hlog₀, hunit⟩ := hquiet hlog
    refine TypeDecl.IntsAll.mono (fun pos v => Origin.exact fun t ht n hn => ?_) _ hunit
    subst htokens
    exact denotes_of_tokenize hlog₀ ht hn

/-- The exception is met: a minus sign in front of `0xFFFFFFFF` gives a one. -/
example (p q r : Position) : (Parser.expression.run.run
    { rest := [⟨.punct "-", p, q⟩, ⟨.int 0xFFFFFFFF, q, r⟩, ⟨.eof, r, r⟩], log := .forSnippet .csharp }).1 =
      .ok (.int p 1) := by
  rfl

end CilScope.Source
