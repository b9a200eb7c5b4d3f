import CilScope.Proofs.Source.Grammar
import CilScope.Source.Lexeme
import CilScope.Text.Quoted

/-!
# Lexing undoes printing

Tokens are printed on one line with single blanks between them (`printLine`): words, punctuation and
decimal numbers as they are, and strings as literals of the language. `tokenize_printLine` is that the line
is read back as the same tokens, each of them at its columns, without a diagnostic. The scanner counts
columns in 32 bits: what it reads is the same on a longer line (`tokenize_printLine_eq`), but the columns
are then those of the line modulo `2 ^ 32`.

What is read of a token does not depend on what stands behind it, as long as that is the end of the line
or a blank (`scan_print`), and nothing of a printed token is taken for a blank, a comment or a continued
line (`gapLength_print`).
-/

namespace CilScope.Source.Lexeme

/-! ## Printing -/

/-- A quote inside a string literal of Visual Basic is written twice. -/
def doubleQuote (c : Char) : List Char := if c = '"' then ['"', '"'] else [c]

/-- The text of a token. -/
def print (language : Language) : Lexeme → String
  | word text => text
  | int value => toString value
  | str text =>
    match language with
    | .csharp => Text.Quoted.literal text
    | .visualBasic => String.ofList ('"' :: (text.toList.flatMap doubleQuote ++ ['"']))
  | punct text => text
  | newline | eof => ""

/-- Whether a text is a letter or an underscore, and letters, digits and underscores behind it. -/
def isWord (text : String) : Bool := text.toList.head?.any startsWord && text.toList.all inWord

/-- The tokens that have a text. In Visual Basic `Rem` starts a comment, and a string stays on its line. -/
def Printable (language : Language) : Lexeme → Prop
  | word text => isWord text ∧ (language = .visualBasic → language.sameName text "rem" = false)
  | int value => value ≤ 2 ^ 31
  | str text =>
    match language with
    | .csharp => ∀ c ∈ text.toList, Text.Quoted.isControl c → c ∈ ['\n', '\r', '\t', '\x00']
    | .visualBasic => '\n' ∉ text.toList
  | punct text => text ∈ punctuation language
  | newline | eof => False

instance (language : Language) : (l : Lexeme) → Decidable (l.Printable language)
  | word text => inferInstanceAs (Decidable (isWord text ∧
      (language = .visualBasic → language.sameName text "rem" = false)))
  | int value => inferInstanceAs (Decidable (value ≤ 2 ^ 31))
  | str text =>
    match language with
    | .csharp => List.decidableBAll (fun c => Text.Quoted.isControl c → c ∈ ['\n', '\r', '\t', '\x00'])
        text.toList
    | .visualBasic => inferInstanceAs (Decidable ('\n' ∉ text.toList))
  | punct text => inferInstanceAs (Decidable (text ∈ punctuation language))
  | newline | eof => inferInstanceAs (Decidable False)

/-- Tokens on one line. -/
def printLine (language : Language) (ls : List Lexeme) : String :=
  " ".intercalate (ls.map (print language))

/-- The columns of tokens that are printed from a column on, with one column between them. -/
def columns (language : Language) (column : Nat) : List Lexeme → List (Nat × Nat)
  | [] => []
  | l :: ls =>
    let stop := column + (l.print language).length
    (column, stop) :: columns language (stop + 1) ls

/-- A token on the first line, at its columns as they are counted. -/
def locate (l : Lexeme) (columns : Nat × Nat) : Located :=
  ⟨l, ⟨1, .ofNat columns.1⟩, ⟨1, .ofNat columns.2⟩⟩

/-- Tokens on the first line from a column on, with one column between them. -/
def locateAll (language : Language) (column : Nat) (ls : List Lexeme) : List Located :=
  ls.zipWith locate (columns language column ls)

theorem locateAll_cons (language : Language) (column : Nat) (l : Lexeme) (ls : List Lexeme) :
    locateAll language column (l :: ls) = locate l (column, column + (l.print language).length) ::
      locateAll language (column + (l.print language).length + 1) ls := rfl

/-! ## Reading one token -/

section

variable {language : Language} {rest : List Char}

/-- What comes next is a character of the text, or the blank behind it. -/
theorem mem_or_blank (hrest : ∀ c ∈ rest.head?, c = ' ') {cs : List Char} {d : Char}
    (h : (cs ++ rest).head? = some d) : d ∈ cs ∨ d = ' ' := by
  cases cs with
  | nil => exact .inr (hrest d h)
  | cons c cs =>
    cases h
    exact .inl (List.mem_cons_self ..)

/-- Characters of one kind are read up to the blank behind them. -/
theorem takeWhile_append_rest {p : Char → Bool} (hp : p ' ' = false)
    (hrest : ∀ c ∈ rest.head?, c = ' ') {cs : List Char} (h : ∀ c ∈ cs, p c) :
    (cs ++ rest).takeWhile p = cs := by
  rw [List.takeWhile_append_of_pos h]
  cases rest with
  | nil => rw [List.takeWhile_nil, List.append_nil]
  | cons c rest =>
    obtain rfl := hrest c rfl
    rw [List.takeWhile_cons_of_neg (by simp [hp]), List.append_nil]

/-! ### Words -/

theorem scan_word (hrest : ∀ c ∈ rest.head?, c = ' ') {c : Char} {cs : List Char}
    (hc : startsWord c) (hcs : ∀ d ∈ c :: cs, inWord d)
    (hrem : language = .visualBasic → language.sameName (String.ofList (c :: cs)) "rem" = false) :
    scan language c (cs ++ rest) =
      { length := cs.length + 1, lexeme := some (.word (String.ofList (c :: cs))) } := by
  unfold scan
  rw [if_pos hc, scanWord, ← List.cons_append, takeWhile_append_rest (by decide) hrest hcs, if_neg]
  · rfl
  · rintro ⟨rfl, hsame⟩
    have hnot := hrem rfl
    rw [Language.sameName_visualBasic, String.toList_ofList, hsame] at hnot
    simp at hnot

/-! ### Numbers -/

theorem startsWord_of_isDigit {c : Char} (h : c.isDigit) : startsWord c = false := by
  have hlt : c.toNat < 'A'.toNat := by
    simp only [Char.isDigit, Bool.and_eq_true, decide_eq_true_eq, UInt32.le_iff_toNat_le] at h
    exact Nat.lt_of_le_of_lt h.2 (by decide)
  have hne : c ≠ '_' := by
    rintro rfl
    exact absurd hlt (by decide)
  simp only [startsWord, Char.isAlpha, Char.isUpper, Char.isLower, Bool.or_eq_false_iff,
    Bool.and_eq_false_iff, decide_eq_false_iff_not, beq_eq_false_iff_ne, UInt32.le_iff_toNat_le, ge_iff_le]
  have hlower : c.toNat < 'a'.toNat := Nat.lt_trans hlt (by decide)
  exact ⟨⟨fun h => Nat.not_le.2 hlt h.1, .inl (Nat.not_le.2 hlower)⟩, hne⟩

theorem digitValue_of_isDigit {c : Char} (h : c.isDigit) : digitValue c = c.toNat - '0'.toNat :=
  if_pos h

/-- The value of the digits of a number. -/
theorem valueOf_toDigits (n : Nat) : valueOf 10 (Nat.toDigits 10 n) = n := by
  have hvalue (digits : List Char) (h : ∀ c ∈ digits, c.isDigit) :
      valueOf 10 digits = Nat.ofDigitChars 10 digits 0 := by
    unfold valueOf Nat.ofDigitChars
    refine List.foldl_ext _ _ _ fun v c hc => ?_
    rw [digitValue_of_isDigit (h c hc)]
  rw [hvalue _ fun c => Nat.isDigit_of_mem_toDigits (by decide) (by decide),
    Nat.ofDigitChars_toDigits (by decide) (by decide)]

theorem toList_print_int (value : Nat) :
    ((int value).print language).toList = Nat.toDigits 10 value := String.toList_ofList

theorem scan_int (hrest : ∀ c ∈ rest.head?, c = ' ') {n : Nat} (hn : n ≤ 2 ^ 31) {c : Char}
    {cs : List Char} (hdigits : Nat.toDigits 10 n = c :: cs) :
    scan language c (cs ++ rest) = { length := cs.length + 1, lexeme := some (.int n) } := by
  have hall : ∀ d ∈ c :: cs, d.isDigit := fun d hd =>
    Nat.isDigit_of_mem_toDigits (by decide) (by decide) (hdigits ▸ hd)
  have hc := hall c (List.mem_cons_self ..)
  have hnumber : scanNumber (c :: cs ++ rest) =
      scanDigits 10 0x80000000 0 Char.isDigit (c :: cs ++ rest) := by
    have hsecond {d : Char} (hd : d.isDigit = false) (hblank : d ≠ ' ') (tail : List Char) :
        cs ++ rest ≠ d :: tail := by
      intro h
      rcases mem_or_blank hrest (h ▸ rfl : (cs ++ rest).head? = some d) with hmem | rfl
      · exact Bool.false_ne_true (hd.symm.trans (hall d (List.mem_cons_of_mem _ hmem)))
      · exact hblank rfl
    unfold scanNumber
    split
    · rename_i h
      exact absurd (List.cons.inj h).2 (hsecond (by decide) (by decide) _)
    · rename_i h
      exact absurd (List.cons.inj h).2 (hsecond (by decide) (by decide) _)
    · rename_i h
      rw [(List.cons.inj h).1] at hc
      exact absurd hc (by decide)
    · rfl
  have htake : ((c :: cs ++ rest).drop 0).takeWhile Char.isDigit = c :: cs :=
    takeWhile_append_rest (by decide) hrest hall
  have hvalue : valueOf 10 (c :: cs) = n := hdigits ▸ valueOf_toDigits n
  unfold scan
  rw [if_neg (by simp [startsWord_of_isDigit hc]), if_pos hc, ← List.cons_append, hnumber, scanDigits,
    htake, hvalue]
  simp [show n ≤ 2147483648 from hn]

/-! ### Strings -/

/-- A character of a literal stands for itself, or behind a backslash for what its escape means. -/
theorem escapeChar_cases {c : Char}
    (h : Text.Quoted.isControl c → c ∈ ['\n', '\r', '\t', '\x00']) :
    (∃ e, Text.Quoted.escapeChar c = ['\\', e] ∧ unescape e = c ∧ e ≠ '\n') ∨
      Text.Quoted.escapeChar c = [c] ∧ c ≠ '"' ∧ c ≠ '\\' ∧ c ≠ '\n' := by
  by_cases hspecial : c ∈ ['"', '\\', '\n', '\r', '\t', '\x00']
  · left
    simp only [List.mem_cons, List.not_mem_nil, or_false] at hspecial
    rcases hspecial with rfl | rfl | rfl | rfl | rfl | rfl
    · exact ⟨'"', rfl, rfl, by decide⟩
    · exact ⟨'\\', rfl, rfl, by decide⟩
    · exact ⟨'n', rfl, rfl, by decide⟩
    · exact ⟨'r', rfl, rfl, by decide⟩
    · exact ⟨'t', rfl, rfl, by decide⟩
    · exact ⟨'0', rfl, rfl, by decide⟩
  · right
    have hcontrol : Text.Quoted.isControl c = false := by
      refine Bool.eq_false_iff.2 fun hc => hspecial ?_
      exact List.mem_cons_of_mem _ (List.mem_cons_of_mem _ (h hc))
    simp only [List.mem_cons, List.not_mem_nil, or_false, not_or] at hspecial
    obtain ⟨hquote, hbackslash, hnewline, hreturn, htab, hnull⟩ := hspecial
    refine ⟨?_, hquote, hbackslash, hnewline⟩
    simp [Text.Quoted.escapeChar, hquote, hbackslash, hnewline, hreturn, htab, hnull, hcontrol]

/-- A character that is written as it is. -/
theorem scanString_plain {style : StringStyle} {c : Char} (hquote : c ≠ '"')
    (hbackslash : c = '\\' → style.escapes = false) (hnewline : c ≠ '\n') (cs : List Char) :
    scanString style (c :: cs) = (scanString style cs).cons c 1 := by
  by_cases hc : c = '\\'
  · subst hc
    conv_lhs => rw [scanString.eq_def]
    simp only [hbackslash rfl, Bool.false_eq_true, if_false]
  · rw [scanString, if_neg fun h => hnewline h.1] <;> assumption

/-- A literal with escapes is read up to its quote. -/
theorem scanString_escapes {text : List Char}
    (h : ∀ c ∈ text, Text.Quoted.isControl c → c ∈ ['\n', '\r', '\t', '\x00']) :
    scanString ⟨false, true, false⟩ (text.flatMap Text.Quoted.escapeChar ++ '"' :: rest) =
      ⟨text, (text.flatMap Text.Quoted.escapeChar).length + 1, true⟩ := by
  induction text with
  | nil => simp [scanString]
  | cons c text ih =>
    obtain ⟨hc, htext⟩ := List.forall_mem_cons.1 h
    rw [List.flatMap_cons, List.append_assoc]
    rcases escapeChar_cases hc with ⟨e, hescape, hmeans, -⟩ | ⟨hescape, hquote, hbackslash, hnewline⟩
    · rw [hescape, List.cons_append, List.cons_append, List.nil_append, scanString, if_pos rfl, ih htext,
        hmeans]
      rfl
    · rw [hescape, List.cons_append, List.nil_append,
        scanString_plain hquote (fun h => absurd h hbackslash) hnewline, ih htext]
      rfl

/-- A literal with doubled quotes is read up to its quote. -/
theorem scanString_doubled (hrest : ∀ c ∈ rest.head?, c = ' ') {text : List Char} (h : '\n' ∉ text) :
    scanString ⟨true, false, false⟩ (text.flatMap doubleQuote ++ '"' :: rest) =
      ⟨text, (text.flatMap doubleQuote).length + 1, true⟩ := by
  induction text with
  | nil =>
    cases rest with
    | nil => simp [scanString]
    | cons c rest =>
      obtain rfl := hrest c rfl
      simp [scanString]
  | cons c text ih =>
    obtain ⟨hc, htext⟩ := not_or.1 (mt List.mem_cons.2 h)
    rw [List.flatMap_cons, List.append_assoc]
    by_cases hquote : c = '"'
    · subst hquote
      rw [doubleQuote, if_pos rfl, List.cons_append, List.cons_append, List.nil_append,
        scanString.eq_2 _ _ rfl, ih htext]
      rfl
    · rw [doubleQuote, if_neg hquote, List.cons_append, List.nil_append,
        scanString_plain hquote (fun _ => rfl) (Ne.symm hc), ih htext]
      rfl

theorem scan_str_csharp {text : String}
    (h : ∀ c ∈ text.toList, Text.Quoted.isControl c → c ∈ ['\n', '\r', '\t', '\x00']) :
    scan .csharp '"' (text.toList.flatMap Text.Quoted.escapeChar ++ '"' :: rest) =
      { length := (text.toList.flatMap Text.Quoted.escapeChar).length + 2, lexeme := some (.str text) } := by
  unfold scan
  rw [if_neg (by decide), if_neg (by decide)]
  simp only [scanLiteral, List.drop_succ_cons, List.drop_zero, scanString_escapes h, String.ofList_toList,
    if_true, Nat.add_comm 1, Nat.add_assoc]

theorem scan_str_visualBasic (hrest : ∀ c ∈ rest.head?, c = ' ') {text : String}
    (h : '\n' ∉ text.toList) :
    scan .visualBasic '"' (text.toList.flatMap doubleQuote ++ '"' :: rest) =
      { length := (text.toList.flatMap doubleQuote).length + 2, lexeme := some (.str text) } := by
  unfold scan
  rw [if_neg (by decide), if_neg (by decide)]
  simp only [scanLiteral, List.drop_succ_cons, List.drop_zero, scanString_doubled hrest h,
    String.ofList_toList, if_true, Nat.add_comm 1, Nat.add_assoc]

/-! ### The punctuation of a language -/

/-- Whether a text can only be punctuation, whatever stands behind it. -/
def isPunct : List Char → Bool
  | [] => false
  | c :: cs => !startsWord c && !c.isDigit && c ∉ [' ', '\t', '\r', '\n', '"', '\'', ':'] &&
      cs.all (· ∉ [' ', '\n', '"', '/', '*', 'H', 'h'])

theorem isPunct_cons {c : Char} {cs : List Char} : isPunct (c :: cs) ↔
    startsWord c = false ∧ c.isDigit = false ∧ c ∉ [' ', '\t', '\r', '\n', '"', '\'', ':'] ∧
      ∀ d ∈ cs, d ∉ [' ', '\n', '"', '/', '*', 'H', 'h'] := by
  simp only [isPunct, Bool.and_eq_true, Bool.not_eq_true', List.all_eq_true, decide_eq_true_eq, and_assoc]

/-- No blank and no end of a line is part of punctuation. -/
theorem notMem_of_isPunct {cs : List Char} (h : isPunct cs) : ' ' ∉ cs ∧ '\n' ∉ cs := by
  cases cs with
  | nil => simp
  | cons c cs =>
    obtain ⟨-, -, hc, hcs⟩ := isPunct_cons.1 h
    simp only [List.mem_cons, not_or]
    refine ⟨⟨fun h => hc (h ▸ by simp), fun h => hcs _ h (by simp)⟩,
      fun h => hc (h ▸ by simp), fun h => hcs _ h (by simp)⟩

theorem isPunct_of_mem {p : String} (h : p ∈ punctuation language) : isPunct p.toList := by
  revert p
  cases language <;> decide +kernel

theorem punctuation_pairwise (language : Language) :
    (punctuation language).Pairwise fun p q => ¬p.toList <+: q.toList := by
  cases language <;> decide +kernel

/-- Of texts that do not start with an earlier one, the one in front of a blank is found. -/
theorem find?_prefix {ps : List String} (hps : ps.Pairwise fun p q => ¬p.toList <+: q.toList)
    (hblank : ∀ p ∈ ps, ' ' ∉ p.toList) (hrest : ∀ c ∈ rest.head?, c = ' ') {p : String} (hp : p ∈ ps) :
    ps.find? (·.toList.isPrefixOf (p.toList ++ rest)) = some p := by
  induction ps with
  | nil => cases hp
  | cons q ps ih =>
    obtain ⟨hq, hps⟩ := List.pairwise_cons.1 hps
    obtain ⟨hqblank, hblank⟩ := List.forall_mem_cons.1 hblank
    rcases List.mem_cons.1 hp with rfl | hp
    · exact List.find?_cons_of_pos (List.isPrefixOf_iff_prefix.2 (List.prefix_append ..))
    · rw [List.find?_cons_of_neg, ih hps hblank hp]
      rw [List.isPrefixOf_iff_prefix]
      intro hprefix
      rcases List.prefix_or_prefix_of_prefix hprefix (List.prefix_append p.toList rest) with h | ⟨s, hs⟩
      · exact hq p hp h
      · rw [← hs, List.prefix_append_right_inj] at hprefix
        cases s with
        | nil => exact hq p hp (by rw [← hs, List.append_nil])
        | cons d s =>
          obtain ⟨tail, rfl⟩ := hprefix
          obtain rfl := hrest d rfl
          exact hqblank (hs ▸ List.mem_append_right _ (List.mem_cons_self ..))

theorem scan_punct (hrest : ∀ c ∈ rest.head?, c = ' ') {p : String} (hp : p ∈ punctuation language)
    {c : Char} {cs : List Char} (hcs : p.toList = c :: cs) :
    scan language c (cs ++ rest) = { length := cs.length + 1, lexeme := some (.punct p) } := by
  have hlength : p.length = cs.length + 1 := by rw [← String.length_toList, hcs, List.length_cons]
  have hpunct : scanPunct language c (cs ++ rest) =
      { length := cs.length + 1, lexeme := some (.punct p) } := by
    rw [scanPunct, ← List.cons_append, ← hcs,
      find?_prefix (punctuation_pairwise language)
        (fun q hq => (notMem_of_isPunct (isPunct_of_mem hq)).1) hrest hp]
    simp only [hlength]
  obtain ⟨hword, hdigit, hfirst, htail⟩ := isPunct_cons.1 (hcs ▸ isPunct_of_mem hp)
  unfold scan
  rw [if_neg (by simp [hword]), if_neg (by simp [hdigit])]
  have hsecond {d : Char} (hd : d ∈ [' ', '\n', '"', '/', '*', 'H', 'h']) (hblank : d ≠ ' ')
      (tail : List Char) : cs ++ rest ≠ d :: tail := by
    intro h
    rcases mem_or_blank hrest (h ▸ rfl : (cs ++ rest).head? = some d) with hmem | rfl
    · exact htail d hmem hd
    · exact hblank rfl
  split
  · exact absurd (by simp) hfirst
  · exact absurd (by simp) hfirst
  · exact absurd (by simp) hfirst
  · exact absurd ‹_› (hsecond (by simp) (by simp) _)
  · exact absurd ‹_› (hsecond (by simp) (by simp) _)
  · exact absurd ‹_› (hsecond (by simp) (by simp) _)
  · exact absurd (by simp) hfirst
  · exact absurd (by simp) hfirst
  · exact hpunct

/-! ### All tokens -/

/-- Nothing is skipped in front of such a text: no blank and no comment starts it. -/
def Solid (c : Char) (cs : List Char) : Prop :=
  c ∉ [' ', '\t', '\r', '\''] ∧ (c = '/' → ∀ d ∈ cs.head?, d ∉ ['/', '*'])

theorem solid_of_notMem {c : Char} (h : c ∉ [' ', '\t', '\r', '\'', '/']) (cs : List Char) : Solid c cs :=
  ⟨fun hc => h (List.mem_append_left ['/'] hc), fun hc => absurd (hc ▸ by simp) h⟩

theorem solid_of_starts {c : Char} (h : startsWord c ∨ c.isDigit) (cs : List Char) : Solid c cs := by
  have hall : [' ', '\t', '\r', '\'', '/'].all fun c => !startsWord c && !c.isDigit := by decide
  refine solid_of_notMem (fun hc => ?_) cs
  have hneither := List.all_eq_true.1 hall c hc
  rw [Bool.and_eq_true, Bool.not_eq_true', Bool.not_eq_true'] at hneither
  simp [hneither.1, hneither.2] at h

theorem solid_of_isPunct (hrest : ∀ c ∈ rest.head?, c = ' ') {c : Char} {cs : List Char}
    (h : isPunct (c :: cs)) : Solid c (cs ++ rest) := by
  obtain ⟨-, -, hfirst, htail⟩ := isPunct_cons.1 h
  refine ⟨fun hc => hfirst ?_, fun _ d hd hcomment => ?_⟩
  · revert hc
    simp only [List.mem_cons, List.not_mem_nil, or_false]
    tauto
  · rcases mem_or_blank hrest hd with hmem | rfl
    · refine htail d hmem ?_
      revert hcomment
      simp only [List.mem_cons, List.not_mem_nil, or_false]
      tauto
    · simp at hcomment

/-- The text of a token is read as the token. -/
theorem scan_print {l : Lexeme} (hl : l.Printable language) (hrest : ∀ c ∈ rest.head?, c = ' ') :
    ∃ c cs, (l.print language).toList = c :: cs ∧ Solid c (cs ++ rest) ∧
      scan language c (cs ++ rest) = { length := cs.length + 1, lexeme := some l } := by
  cases l with
  | word text =>
    obtain ⟨hword, hrem⟩ := hl
    obtain ⟨hfirst, hall⟩ := Bool.and_eq_true_iff.1 hword
    obtain ⟨c, hc, hstart⟩ := (Option.any_eq_true ..).1 hfirst
    obtain ⟨cs, hcs⟩ := List.head?_eq_some_iff.1 hc
    refine ⟨c, cs, hcs, solid_of_starts (.inl hstart) _, ?_⟩
    have htext : String.ofList (c :: cs) = text := by rw [← hcs, String.ofList_toList]
    rw [scan_word hrest hstart (fun d hd => List.all_eq_true.1 hall d (hcs ▸ hd)) (htext.symm ▸ hrem),
      htext]
  | int value =>
    obtain ⟨c, cs, hcs⟩ := List.exists_cons_of_ne_nil (Nat.toDigits_ne_nil (n := value) (b := 10))
    have hdigit : c.isDigit := Nat.isDigit_of_mem_toDigits (by decide) (by decide)
      (hcs ▸ List.mem_cons_self .. : c ∈ Nat.toDigits 10 value)
    exact ⟨c, cs, (toList_print_int value).trans hcs, solid_of_starts (.inr hdigit) _,
      scan_int hrest hl hcs⟩
  | str text =>
    cases language with
    | csharp =>
      refine ⟨'"', _, String.toList_ofList, solid_of_notMem (by decide) _, ?_⟩
      rw [List.append_assoc, List.singleton_append, scan_str_csharp hl, List.length_append]
      rfl
    | visualBasic =>
      refine ⟨'"', _, String.toList_ofList, solid_of_notMem (by decide) _, ?_⟩
      rw [List.append_assoc, List.singleton_append, scan_str_visualBasic hrest hl, List.length_append]
      rfl
  | punct text =>
    have hpunct := isPunct_of_mem hl
    cases hcs : text.toList with
    | nil =>
      rw [hcs] at hpunct
      cases hpunct
    | cons c cs =>
      exact ⟨c, cs, hcs, solid_of_isPunct hrest (hcs ▸ hpunct), scan_punct hrest hl hcs⟩
  | newline | eof => exact hl.elim

theorem ne_eof {l : Lexeme} (hl : l.Printable language) : l ≠ .eof := by
  rintro rfl
  exact hl

theorem ne_newline {l : Lexeme} (hl : l.Printable language) : l ≠ .newline := by
  rintro rfl
  exact hl

/-- No token has the end of a line in its text. -/
theorem newline_notMem_print {l : Lexeme} (hl : l.Printable language) :
    '\n' ∉ (l.print language).toList := by
  cases l with
  | word text =>
    intro hmem
    have hword := List.all_eq_true.1 (Bool.and_eq_true_iff.1 hl.1).2 _ hmem
    exact absurd hword (by decide)
  | int value =>
    rw [toList_print_int]
    intro hmem
    exact absurd (Nat.isDigit_of_mem_toDigits (by decide) (by decide) hmem) (by decide)
  | str text =>
    have hquoted {written : Char → List Char} (hwritten : ∀ c ∈ text.toList, '\n' ∉ written c) :
        '\n' ∉ (String.ofList ('"' :: (text.toList.flatMap written ++ ['"']))).toList := by
      simpa [String.toList_ofList] using hwritten
    cases language with
    | csharp =>
      refine hquoted fun c hc => ?_
      rcases escapeChar_cases (hl c hc) with ⟨e, hescape, -, hnewline⟩ | ⟨hescape, -, -, hnewline⟩
      all_goals
        rw [hescape]
        simpa using hnewline.symm
    | visualBasic =>
      refine hquoted fun c hc => ?_
      have hnewline : c ≠ '\n' := by
        rintro rfl
        exact hl hc
      unfold doubleQuote
      split <;> simp [hnewline.symm]
  | punct text => exact (notMem_of_isPunct (isPunct_of_mem hl)).2
  | newline | eof => exact hl.elim

/-! ## Reading a line -/

theorem gapLength_eq_zero {c : Char} {cs : List Char} (hsolid : Solid c cs) (hline : '\n' ∉ cs)
    (before : Option Char) : gapLength language before (c :: cs) = 0 := by
  obtain ⟨hblank, hslash⟩ := hsolid
  unfold gapLength
  split
  all_goals try rfl
  · next h =>
    cases h
    exact absurd (by simp) hblank
  · next h =>
    cases h
    exact absurd (by simp) hblank
  · next h =>
    cases h
    exact absurd (by simp) hblank
  · next h =>
    cases h
    exact absurd (by simp) (hslash rfl '/' rfl)
  · next h =>
    cases h
    exact absurd (by simp) (hslash rfl '*' rfl)
  · next h =>
    cases h
    exact absurd (by simp) hblank
  · next h =>
    cases h
    simp [continues, hline]

theorem skipLength_solid {c : Char} {cs : List Char} (hsolid : Solid c cs) (hline : '\n' ∉ cs)
    (before : Option Char) : skipLength language before (c :: cs) = 0 := by
  rw [skipLength, gapLength_eq_zero hsolid hline]

theorem skipLength_blank {c : Char} {cs : List Char} (hsolid : Solid c cs) (hline : '\n' ∉ cs)
    (before : Option Char) : skipLength language before (' ' :: c :: cs) = 1 := by
  have hgap : gapLength language before (' ' :: c :: cs) = 1 := by cases language <;> rfl
  rw [skipLength, hgap]
  simp [skipLength_solid hsolid hline]

/-- A line goes on where a text without the end of a line ends. -/
theorem after_line {cs : List Char} (h : '\n' ∉ cs) (column : Nat) :
    Position.after ⟨1, .ofNat column⟩ cs = ⟨1, .ofNat (column + cs.length)⟩ := by
  induction cs generalizing column with
  | nil => rfl
  | cons c cs ih =>
    obtain ⟨hc, hcs⟩ := not_or.1 (mt List.mem_cons.2 h)
    rw [Position.after, List.foldl_cons, Position.next, if_neg (Ne.symm hc)]
    have hnext : UInt32.ofNat column + 1 = .ofNat (column + 1) :=
      (UInt32.ofNat_add column 1).symm
    rw [hnext]
    refine (ih hcs (column + 1)).trans ?_
    rw [List.length_cons, Nat.add_assoc, Nat.add_comm 1]

/-- What is read of a text behind what is skipped. -/
theorem scanAll_of_scan (position : Position) {before : Option Char} {gap text : List Char} {c : Char}
    {cs : List Char} {l : Lexeme} (htext : text = c :: cs) (hl : l ≠ .eof)
    (hskip : skipLength language before (gap ++ text ++ rest) = gap.length)
    (hscan : scan language c (cs ++ rest) = { length := cs.length + 1, lexeme := some l }) (log : Log) :
    ∃ before', scanAll language position before (gap ++ text ++ rest) log =
      (⟨l, position.after gap, (position.after gap).after text⟩ ::
        (scanAll language ((position.after gap).after text) before' rest log).1,
        (scanAll language ((position.after gap).after text) before' rest log).2) := by
  subst htext
  have hdrop : (gap ++ c :: cs ++ rest).drop gap.length = c :: (cs ++ rest) := by simp
  have htake : (gap ++ c :: cs ++ rest).take gap.length = gap := by simp
  have htext : (c :: (cs ++ rest)).take (cs.length + 1) = c :: cs := by simp
  refine ⟨(c :: (cs ++ rest))[cs.length]?, ?_⟩
  rw [scanAll]
  split
  · next h =>
    rw [hskip, hdrop] at h
    cases h
  · next h =>
    rw [hskip, hdrop] at h
    cases h
    simp only [hscan, hskip, htake, htext, Nat.add_sub_cancel, List.drop_left]
    cases l with
    | eof => exact absurd rfl hl
    | word | int | str | punct | newline => rfl

variable {l : Lexeme} {ls : List Lexeme}

/-- The text behind the first token of a line. -/
def behind (language : Language) (ls : List Lexeme) : List Char :=
  ls.flatMap fun l => ' ' :: (l.print language).toList

theorem head?_behind (language : Language) (ls : List Lexeme) :
    ∀ c ∈ (behind language ls).head?, c = ' ' := by
  cases ls with
  | nil => exact nofun
  | cons l ls => rintro c ⟨⟩; rfl

theorem newline_notMem_behind (h : ∀ l ∈ ls, l.Printable language) : '\n' ∉ behind language ls := by
  rw [behind, List.mem_flatMap]
  rintro ⟨l, hl, hmem⟩
  rcases List.mem_cons.1 hmem with hblank | hmem
  · exact absurd hblank (by decide)
  · exact newline_notMem_print (h l hl) hmem

theorem toList_printLine (language : Language) (l : Lexeme) (ls : List Lexeme) :
    (printLine language (l :: ls)).toList = (l.print language).toList ++ behind language ls := by
  have hline (text : List Char) (texts : List (List Char)) :
      [' '].intercalate (text :: texts) = text ++ texts.flatMap (' ' :: ·) := by
    induction texts generalizing text with
    | nil => simp [List.intercalate]
    | cons text' texts ih =>
      rw [List.intercalate_cons_cons, ih]
      simp
  rw [printLine, String.toList_intercalate, List.map_map, List.map_cons]
  refine (hline _ _).trans ?_
  rw [behind, List.flatMap_map]
  rfl

/-- Behind the last character comes the end of the file. -/
theorem scanAll_nil (position : Position) (before : Option Char) (log : Log) :
    scanAll language position before [] log = ([⟨.eof, position, position⟩], log) := by
  rw [scanAll]
  split
  · next h => simp [Position.after]
  · next h => simp at h

/-- The tokens of a line behind its first token. -/
theorem scanAll_behind (h : ∀ l ∈ ls, l.Printable language) (column : Nat) (before : Option Char)
    (log : Log) : scanAll language ⟨1, .ofNat column⟩ before (behind language ls) log =
      (locateAll language (column + 1) ls ++ [locate .eof (column + (behind language ls).length,
        column + (behind language ls).length)], log) := by
  induction ls generalizing column before with
  | nil => exact scanAll_nil ..
  | cons l ls ih =>
    obtain ⟨hl, hls⟩ := List.forall_mem_cons.1 h
    have hrest := head?_behind language ls
    obtain ⟨c, cs, hcs, hsolid, hscan⟩ := scan_print hl hrest
    have hline := newline_notMem_print hl
    have htext : behind language (l :: ls) = [' '] ++ (l.print language).toList ++ behind language ls := by
      rw [behind, List.flatMap_cons]
      rfl
    have hskip : skipLength language before
        ([' '] ++ (l.print language).toList ++ behind language ls) = [' '].length := by
      rw [hcs]
      refine skipLength_blank hsolid ?_ before
      rw [hcs] at hline
      simp only [List.mem_append, not_or]
      exact ⟨fun hmem => hline (List.mem_cons_of_mem _ hmem), newline_notMem_behind hls⟩
    obtain ⟨before', hscanAll⟩ := scanAll_of_scan ⟨1, .ofNat column⟩ hcs (ne_eof hl) hskip hscan log
    have hlength : (behind language (l :: ls)).length =
        1 + ((l.print language).length + (behind language ls).length) := by
      rw [htext, List.length_append, List.length_append, String.length_toList, Nat.add_assoc]
      rfl
    rw [hlength, htext, hscanAll, after_line (by decide), after_line hline, ih hls, locateAll_cons]
    simp only [locate, List.cons_append, List.length_cons, List.length_nil, String.length_toList,
      Nat.add_assoc, Nat.zero_add]

theorem collapse_eq_self {ts : List Located} (h : ∀ t ∈ ts, t.lexeme ≠ .newline)
    (previous : Option Lexeme) : collapse previous ts = ts := by
  induction ts generalizing previous with
  | nil => rfl
  | cons t ts ih =>
    obtain ⟨ht, hts⟩ := List.forall_mem_cons.1 h
    rw [collapse, if_neg fun hnewline => ht hnewline.1, ih hts]

/-! ### Columns -/

theorem map_lexeme_locateAll (language : Language) (column : Nat) (ls : List Lexeme) :
    (locateAll language column ls).map (·.lexeme) = ls := by
  induction ls generalizing column with
  | nil => rfl
  | cons l ls ih =>
    rw [locateAll_cons, List.map_cons, ih]
    rfl

theorem line_of_mem_locateAll {column : Nat} {t : Located} (ht : t ∈ locateAll language column ls) :
    t.start.line = 1 ∧ t.stop.line = 1 := by
  induction ls generalizing column with
  | nil => cases ht
  | cons l ls ih =>
    rw [locateAll_cons] at ht
    rcases List.mem_cons.1 ht with rfl | ht
    · exact ⟨rfl, rfl⟩
    · exact ih ht

/-- The columns of a token as numbers. -/
def columnsOf (t : Located) : Nat × Nat := (t.start.column.toNat, t.stop.column.toNat)

theorem columnsOf_locate {l : Lexeme} {first last : Nat} (hle : first ≤ last) (hlast : last < UInt32.size) :
    columnsOf (locate l (first, last)) = (first, last) :=
  Prod.ext (UInt32.toNat_ofNat_of_lt (Nat.lt_of_le_of_lt hle hlast)) (UInt32.toNat_ofNat_of_lt hlast)

/-- Columns are counted without an overflow on a line that is short enough. -/
theorem map_columnsOf_locateAll (column : Nat)
    (h : column + (behind language ls).length < UInt32.size) :
    (locateAll language (column + 1) ls).map columnsOf = columns language (column + 1) ls := by
  induction ls generalizing column with
  | nil => rfl
  | cons l ls ih =>
    have hlength : (behind language (l :: ls)).length =
        1 + (l.print language).length + (behind language ls).length := by
      rw [behind, List.flatMap_cons, List.length_append, List.length_cons, String.length_toList,
        Nat.add_comm 1]
      rfl
    rw [hlength] at h
    rw [locateAll_cons, List.map_cons, columns, columnsOf_locate (Nat.le_add_right ..) (by omega),
      ih _ (by omega)]

/-- What is read of a printed line, whatever its length. -/
theorem tokenize_printLine_eq (h : ∀ l ∈ ls, l.Printable language) (log : Log) :
    tokenize language (printLine language ls) log =
      (locateAll language 1 ls ++ [locate .eof (1 + (printLine language ls).length,
        1 + (printLine language ls).length)], log) := by
  have hall : scanAll language {} none (printLine language ls).toList log =
      (locateAll language 1 ls ++ [locate .eof (1 + (printLine language ls).length,
        1 + (printLine language ls).length)], log) := by
    rw [← String.length_toList]
    cases ls with
    | nil => exact scanAll_nil ..
    | cons l ls =>
      obtain ⟨hl, hls⟩ := List.forall_mem_cons.1 h
      obtain ⟨c, cs, hcs, hsolid, hscan⟩ := scan_print hl (head?_behind language ls)
      have hline := newline_notMem_print hl
      have hskip : skipLength language none ([] ++ (l.print language).toList ++ behind language ls) = 0 := by
        rw [hcs]
        refine skipLength_solid hsolid ?_ none
        rw [hcs] at hline
        rw [List.mem_append, not_or]
        exact ⟨fun hmem => hline (List.mem_cons_of_mem _ hmem), newline_notMem_behind hls⟩
      obtain ⟨before, hscanAll⟩ := scanAll_of_scan {} hcs (ne_eof hl) hskip hscan log
      have hstart : Position.after {} (l.print language).toList =
          ⟨1, .ofNat (1 + (l.print language).toList.length)⟩ := after_line hline 1
      rw [toList_printLine, ← List.nil_append (l.print language).toList, hscanAll,
        show Position.after {} [] = {} from rfl, hstart, scanAll_behind hls, locateAll_cons]
      simp only [locate, List.nil_append, List.cons_append, List.length_append, String.length_toList,
        Nat.add_assoc]
      rfl
  have hnewline : ∀ t ∈ locateAll language 1 ls ++ [locate .eof (1 + (printLine language ls).length,
      1 + (printLine language ls).length)], t.lexeme ≠ .newline := by
    intro t ht
    rcases List.mem_append.1 ht with ht | ht
    · refine ne_newline (h t.lexeme ?_)
      rw [← map_lexeme_locateAll language 1 ls]
      exact List.mem_map_of_mem ht
    · rw [List.mem_singleton.1 ht]
      exact nofun
  rw [tokenize, hall]
  exact congrArg (·, log) (collapse_eq_self hnewline none)

/-- **Lexing undoes printing.** Tokens that are printed on one line with single blanks between them are
read as these tokens, each of them at its columns of the first line, and the end of the file behind them.
Nothing is reported. The line is short enough for its columns to be counted in 32 bits. -/
theorem tokenize_printLine (language : Language) {ls : List Lexeme} (h : ∀ l ∈ ls, l.Printable language)
    (hlength : (printLine language ls).length + 1 < UInt32.size) (log : Log) :
    ∃ ts last, tokenize language (printLine language ls) log = (ts ++ [last], log) ∧
      ts.map (·.lexeme) = ls ∧ last.lexeme = .eof ∧
      (∀ t ∈ ts ++ [last], t.start.line = 1 ∧ t.stop.line = 1) ∧
      ts.map columnsOf = columns language 1 ls ∧
      columnsOf last = ((printLine language ls).length + 1, (printLine language ls).length + 1) := by
  refine ⟨_, _, tokenize_printLine_eq h log, map_lexeme_locateAll .., rfl, fun t ht => ?_, ?_, ?_⟩
  · rcases List.mem_append.1 ht with ht | ht
    · exact line_of_mem_locateAll ht
    · rw [List.mem_singleton.1 ht]
      exact ⟨rfl, rfl⟩
  · cases ls with
    | nil => rfl
    | cons l ls =>
      refine map_columnsOf_locateAll 0 ?_
      rw [← String.length_toList, toList_printLine, List.length_append] at hlength
      rw [behind, List.flatMap_cons, List.cons_append, List.length_cons, List.length_append, Nat.zero_add]
      exact hlength
  · rw [Nat.add_comm, columnsOf_locate (Nat.le_refl _) (by omega)]

end

/-- An assignment of a string with escapes, and a number that only a minus sign makes small enough. -/
def assignment : List Lexeme :=
  [.word "s", .punct "+=", .str "a \"\\é\n\"", .punct ";", .word "_x1", .punct "-", .int 2147483648]

theorem tokenize_printLine_assignment : (∀ l ∈ assignment, l.Printable .csharp) ∧
    (printLine .csharp assignment).length + 1 < UInt32.size ∧
    ∃ ts last, tokenize .csharp (printLine .csharp assignment) (.forSnippet .csharp) =
        (ts ++ [last], .forSnippet .csharp) ∧
      ts.map (·.lexeme) = assignment ∧ last.lexeme = .eof ∧
      (∀ t ∈ ts ++ [last], t.start.line = 1 ∧ t.stop.line = 1) ∧
      ts.map columnsOf = columns .csharp 1 assignment ∧
      columnsOf last =
        ((printLine .csharp assignment).length + 1, (printLine .csharp assignment).length + 1) :=
  have h : ∀ l ∈ assignment, l.Printable .csharp := by decide +kernel
  have hlength : (printLine .csharp assignment).length + 1 < UInt32.size := by decide +kernel
  ⟨h, hlength, tokenize_printLine .csharp h hlength _⟩

end CilScope.Source.Lexeme
