import CilScope.Listing.Names
import Mathlib

/-!
# String literals can be told apart

The escapes of a literal overlap with the characters of texts: a text may contain backslashes before quotes,
or spell out an escape itself. `readBody` reads a literal from left to right, one character or one escape at
a time, and gets back what was written, `readBody_escaped`. A quote belongs to the text exactly if an odd
number of backslashes stands before it: `Guarded` follows along a literal whether the next character is
escaped, and `foldl_escapes` compares that with the number of backslashes.
-/

namespace CilScope.Text

namespace Hex

/-- The digits that numbers are written with. -/
def digits : List Char :=
  ['0', '1', '2', '3', '4', '5', '6', '7', '8', '9', 'a', 'b', 'c', 'd', 'e', 'f']

theorem mem_digits_of_mem_toDigits (n : Nat) : ∀ c ∈ Nat.toDigits 16 n, c ∈ digits := by
  have hdigit : ∀ d < 16, Nat.digitChar d ∈ digits := by decide
  induction n using Nat.strong_induction_on with
  | h n ih =>
    intro c hc
    rw [Nat.toDigits_eq_if (by decide)] at hc
    split at hc
    · rw [List.mem_singleton.1 hc]
      exact hdigit n ‹n < 16›
    · rcases List.mem_append.1 hc with hc | hc
      · exact ih (n / 16) (by omega) c hc
      · rw [List.mem_singleton.1 hc]
        exact hdigit (n % 16) (Nat.mod_lt n (by decide))

theorem mem_digits_of_mem_padded {width n : Nat} {c : Char} (h : c ∈ (padded width n).toList) :
    c ∈ digits := by
  rw [padded, String.toList_ofList, List.mem_append] at h
  rcases h with h | h
  · rw [List.eq_of_mem_replicate h]
    decide
  · exact mem_digits_of_mem_toDigits n c h

end Hex

namespace Quoted

/-! ### Reading a literal -/

/-- The character that stands for itself or for another one behind a backslash. -/
def meaning? : Char → Option Char
  | '"' => some '"'
  | '\\' => some '\\'
  | 'n' => some '\n'
  | 'r' => some '\r'
  | 't' => some '\t'
  | '0' => some '\x00'
  | _ => none

/-- The value of hexadecimal digits. -/
def valueOf? (ds : List Char) : Option Nat :=
  ds.foldlM (fun v d => (Hex.digits.idxOf? d).map (16 * v + ·)) 0

/-- Reads a literal from behind its first quote: the text up to the quote that ends it, and what follows. -/
def readBody : List Char → Option (List Char × List Char)
  | [] => none
  | '"' :: rest => some ([], rest)
  | '\\' :: 'u' :: a :: b :: c :: d :: rest => do
    let code ← valueOf? [a, b, c, d]
    let (text, rest) ← readBody rest
    return (Char.ofNat code :: text, rest)
  | '\\' :: e :: rest => do
    let c ← meaning? e
    let (text, rest) ← readBody rest
    return (c :: text, rest)
  | c :: rest => do
    let (text, rest) ← readBody rest
    return (c :: text, rest)

/-- Reads a literal in front of other characters. -/
def read? : List Char → Option (String × List Char)
  | '"' :: rest => (readBody rest).map fun body => (String.ofList body.1, body.2)
  | _ => none

/-- What a character of a text is written as: itself, a backslash and a letter, or its number. -/
inductive Escape (c : Char) : List Char → Prop
  | plain (hquote : c ≠ '"') (hbackslash : c ≠ '\\') (hcontrol : isControl c = false) : Escape c [c]
  | letter {e : Char} (he : meaning? e = some c) (hu : e ≠ 'u') (hcontrol : isControl e = false) :
      Escape c ['\\', e]
  | number {a b d e : Char} (hdigits : ∀ x ∈ [a, b, d, e], x ∈ Hex.digits)
      (hvalue : valueOf? [a, b, d, e] = some c.toNat) : Escape c ['\\', 'u', a, b, d, e]

theorem escape_escapeChar (c : Char) : Escape c (escapeChar c) := by
  by_cases hspecial : c ∈ ['"', '\\', '\n', '\r', '\t', '\x00']
  · simp only [List.mem_cons, List.not_mem_nil, or_false] at hspecial
    rcases hspecial with rfl | rfl | rfl | rfl | rfl | rfl <;>
      exact .letter rfl (by decide) (by decide)
  simp only [List.mem_cons, List.not_mem_nil, or_false, not_or] at hspecial
  obtain ⟨hquote, hbackslash, hnewline, hreturn, htab, hnull⟩ := hspecial
  simp only [escapeChar, hquote, hbackslash, hnewline, hreturn, htab, hnull, if_false]
  by_cases hcontrol : isControl c
  · rw [if_pos hcontrol]
    have hsmall : c.toNat < 0xA0 := by
      simp only [isControl, Bool.or_eq_true, Bool.and_eq_true, decide_eq_true_eq] at hcontrol
      omega
    have hfinite : ∀ k < 0xA0, (Hex.padded 4 k).toList.length = 4 ∧
        valueOf? (Hex.padded 4 k).toList = some k := by
      decide +kernel
    obtain ⟨hlength, hvalue⟩ := hfinite _ hsmall
    obtain ⟨a, b, d, e, hdigits⟩ := List.length_eq_four.1 hlength
    rw [hdigits] at hvalue ⊢
    exact .number (fun x hx => Hex.mem_digits_of_mem_padded (hdigits ▸ hx)) hvalue
  · rw [if_neg hcontrol]
    exact .plain hquote hbackslash (Bool.eq_false_iff.2 hcontrol)

/-- No digit of a number is a control character. -/
theorem isControl_of_mem_digits {x : Char} (h : x ∈ Hex.digits) : isControl x = false :=
  of_decide_eq_true (List.all_eq_true.1 (show Hex.digits.all (isControl · = false) by decide) x h)

namespace Escape

variable {c : Char} {es : List Char}

theorem readBody_append (h : Escape c es) (cs : List Char) :
    readBody (es ++ cs) = (readBody cs).map fun (text, rest) => (c :: text, rest) := by
  cases h with
  | plain hquote hbackslash _ =>
    rw [List.singleton_append, readBody]
    · cases readBody cs <;> rfl
    all_goals simp_all
  | letter he hu _ =>
    rw [List.cons_append, List.singleton_append, readBody, he]
    · cases readBody cs <;> rfl
    · simp_all
  | number hdigits hvalue =>
    simp only [List.cons_append, List.nil_append, readBody, hvalue]
    cases readBody cs <;> simp [Char.ofNat_toNat]

theorem isControl_eq_false (h : Escape c es) : ∀ x ∈ es, isControl x = false := by
  cases h with
  | plain _ _ hcontrol => simpa using hcontrol
  | letter _ _ hcontrol => simpa [show isControl '\\' = false by decide] using hcontrol
  | number hdigits _ =>
    intro x hx
    rcases List.mem_cons.1 hx with rfl | hx
    · decide
    rcases List.mem_cons.1 hx with rfl | hx
    · decide
    · exact isControl_of_mem_digits (hdigits x hx)

end Escape

/-- What is written of a text is read back, whatever stands behind its quote. -/
theorem readBody_escaped (text rest : List Char) :
    readBody (text.flatMap escapeChar ++ '"' :: rest) = some (text, rest) := by
  induction text with
  | nil => rfl
  | cons c text ih =>
    rw [List.flatMap_cons, List.append_assoc, (escape_escapeChar c).readBody_append, ih]
    rfl

/-! ### Quotes behind backslashes -/

/-- How many backslashes stand at the end. -/
def backslashes (cs : List Char) : Nat := (cs.reverse.takeWhile (· = '\\')).length

/-- Whether the character behind `c` is escaped. -/
def escapes (escaped : Bool) (c : Char) : Bool := !escaped && c = '\\'

theorem backslashes_concat (cs : List Char) (c : Char) :
    backslashes (cs ++ [c]) = if c = '\\' then backslashes cs + 1 else 0 := by
  rw [backslashes, List.reverse_append, List.reverse_singleton, List.singleton_append]
  by_cases hc : c = '\\'
  · rw [if_pos hc, List.takeWhile_cons_of_pos (by simpa using hc), List.length_cons, backslashes]
  · rw [if_neg hc, List.takeWhile_cons_of_neg (by simpa using hc), List.length_nil]

/-- The next character is escaped if the backslashes before it are odd in number. -/
theorem foldl_escapes (cs : List Char) : cs.foldl escapes false = decide (Odd (backslashes cs)) := by
  induction cs using List.reverseRecOn with
  | nil => rfl
  | append_singleton cs c ih =>
    rw [List.foldl_append, ih, backslashes_concat, List.foldl_cons, List.foldl_nil, escapes]
    by_cases hc : c = '\\'
    · rw [if_pos hc, decide_eq_true hc, Bool.and_true, ← decide_not]
      exact decide_eq_decide.2 Nat.odd_add_one.symm
    · rw [if_neg hc, decide_eq_false hc, Bool.and_false]
      rfl

/-- Every quote is escaped. -/
def Guarded (escaped : Bool) : List Char → Prop
  | [] => True
  | c :: cs => (c = '"' → escaped = true) ∧ Guarded (escapes escaped c) cs

theorem guarded_append {escaped : Bool} {cs ds : List Char} :
    Guarded escaped (cs ++ ds) ↔ Guarded escaped cs ∧ Guarded (cs.foldl escapes escaped) ds := by
  induction cs generalizing escaped with
  | nil => simp [Guarded]
  | cons c cs ih => simp only [List.cons_append, Guarded, ih, List.foldl_cons, and_assoc]

theorem guarded_of_forall {cs : List Char} (h : ∀ c ∈ cs, c ≠ '"' ∧ c ≠ '\\') :
    Guarded false cs ∧ cs.foldl escapes false = false := by
  induction cs with
  | nil => exact ⟨trivial, rfl⟩
  | cons c cs ih =>
    obtain ⟨⟨hquote, hbackslash⟩, hcs⟩ := List.forall_mem_cons.1 h
    have hescapes : escapes false c = false := by simp [escapes, hbackslash]
    rw [Guarded, List.foldl_cons, hescapes]
    exact ⟨⟨fun hc => absurd hc hquote, (ih hcs).1⟩, (ih hcs).2⟩

/-- What is written of a character holds no open quote, and what stands behind it is not escaped. -/
theorem Escape.guarded {c : Char} {es : List Char} (h : Escape c es) :
    Guarded false es ∧ es.foldl escapes false = false := by
  cases h with
  | plain hquote hbackslash _ => exact guarded_of_forall (by simpa using ⟨hquote, hbackslash⟩)
  | letter _ _ _ => exact ⟨⟨nofun, fun _ => rfl, trivial⟩, rfl⟩
  | number hdigits _ =>
    have hplain : Hex.digits.all fun x => x ≠ '"' ∧ x ≠ '\\' := by decide
    obtain ⟨hguarded, hopen⟩ := guarded_of_forall fun x hx =>
      of_decide_eq_true (List.all_eq_true.1 hplain x (hdigits x hx))
    exact ⟨⟨nofun, nofun, hguarded⟩, hopen⟩

theorem guarded_escaped (text : List Char) :
    Guarded false (text.flatMap escapeChar) ∧ (text.flatMap escapeChar).foldl escapes false = false := by
  induction text with
  | nil => exact ⟨trivial, rfl⟩
  | cons c text ih =>
    obtain ⟨hguarded, hopen⟩ := (escape_escapeChar c).guarded
    rw [List.flatMap_cons, guarded_append, List.foldl_append, hopen]
    exact ⟨⟨hguarded, ih.1⟩, ih.2⟩

/-- Behind the first quote of a literal the one that ends it is the only one with an even number of
backslashes before it. -/
theorem even_backslashes_iff {text before behind : List Char}
    (h : text.flatMap escapeChar ++ ['"'] = before ++ '"' :: behind) :
    Even (backslashes before) ↔ behind = [] := by
  obtain ⟨hguarded, hopen⟩ := guarded_escaped text
  rw [← Nat.not_odd_iff_even]
  rcases List.eq_nil_or_concat behind with rfl | ⟨init, last, rfl⟩
  · obtain ⟨rfl, -⟩ := List.append_inj' h rfl
    rw [foldl_escapes] at hopen
    exact ⟨fun _ => rfl, fun _ => of_decide_eq_false hopen⟩
  · -- the quote belongs to the text, where every quote is escaped
    rw [List.concat_eq_append, ← List.cons_append, ← List.append_assoc] at h
    obtain ⟨htext, -⟩ := List.append_inj' h rfl
    rw [htext, guarded_append, foldl_escapes] at hguarded
    exact ⟨fun hodd => absurd (of_decide_eq_true (hguarded.2.1 rfl)) hodd, fun hnil => by simp at hnil⟩

/-! ### Literals -/

theorem toList_literal (t : String) :
    (literal t).toList = '"' :: (t.toList.flatMap escapeChar ++ ['"']) :=
  String.toList_ofList

theorem isControl_literal (t : String) : ∀ c ∈ (literal t).toList, isControl c = false := by
  have hquote : isControl '"' = false := by decide
  intro c hc
  rw [toList_literal, List.mem_cons, List.mem_append, List.mem_singleton, List.mem_flatMap] at hc
  rcases hc with rfl | ⟨x, -, hc⟩ | rfl
  · exact hquote
  · exact (escape_escapeChar x).isControl_eq_false c hc
  · exact hquote

theorem read?_literal (t : String) (rest : List Char) :
    read? ((literal t).toList ++ rest) = some (t, rest) := by
  rw [toList_literal, List.cons_append, List.append_assoc, read?]
  change (readBody (_ ++ '"' :: rest)).map _ = _
  rw [readBody_escaped, Option.map_some, String.ofList_toList]

theorem literal_injective : Function.Injective literal := by
  intro t t' h
  have hread := read?_literal t []
  rw [h, read?_literal t' []] at hread
  exact (congrArg Prod.fst (Option.some.inj hread)).symm

end Quoted

end CilScope.Text

namespace CilScope.Listing

open Text Text.Quoted

/-! ### Lines with literals -/

theorem isControl_offsetLabel (offset : UInt32) :
    ∀ c ∈ (offsetLabel offset).toList, isControl c = false := by
  intro c hc
  rw [offsetLabel, String.toList_append, List.mem_append] at hc
  rcases hc with hc | hc
  · exact of_decide_eq_true (List.all_eq_true.1 (show "IL_".toList.all (isControl · = false) by decide) c hc)
  · exact isControl_of_mem_digits (Hex.mem_digits_of_mem_padded hc)

/-- The line that loads a string ends in its literal. -/
theorem instructionLine_ldstr {n : Names} {i : Instruction} {token : Token} {t : String}
    (hop : i.opcode = .ldstr) (htoken : i.operand = .token token) (htable : token.table? = some .userString)
    (hrow : n.row .userString n.metadata.userStrings token = .ok t) (m : MethodDef)
    (jump : Option String) :
    instructionLine n m i jump = .ok (offsetLabel i.offset ++ ": ldstr " ++ literal t) := by
  have hname : n.token token = .ok (literal t) := by
    rw [Names.token, htable]
    dsimp only
    rw [hrow]
    rfl
  rw [instructionLine, operandText, htoken]
  dsimp only
  rw [hname, hop]
  refine congrArg Except.ok ?_
  rw [← String.toList_inj]
  simp [Opcode.mnemonic]

/-- **String literals are unambiguous.** A literal has no control characters; behind its first quote the one
that ends it is the only one with an even number of backslashes before it; reading it from left to right
gives its text back, so different texts never look alike; and the line that loads a text is one line. -/
theorem literal_unambiguous (t : String) :
    (∀ c ∈ (literal t).toList, isControl c = false) ∧
      (∃ body, (literal t).toList = '"' :: (body ++ ['"']) ∧ ∀ before behind,
        body ++ ['"'] = before ++ '"' :: behind → (Even (backslashes before) ↔ behind = [])) ∧
      (∀ rest, read? ((literal t).toList ++ rest) = some (t, rest)) ∧
      (∀ t', literal t' = literal t → t' = t) ∧
      ∀ (n : Names) (i : Instruction) (token : Token), i.opcode = .ldstr → i.operand = .token token →
        token.table? = some .userString → n.row .userString n.metadata.userStrings token = .ok t →
        ∀ (m : MethodDef) (jump : Option String), ∃ head,
          instructionLine n m i jump = .ok (head ++ literal t) ∧
            ∀ c ∈ (head ++ literal t).toList, isControl c = false := by
  refine ⟨isControl_literal t, ⟨t.toList.flatMap escapeChar, toList_literal t, fun before behind =>
    even_backslashes_iff⟩, read?_literal t, fun t' h => literal_injective h, ?_⟩
  intro n i token hop htoken htable hrow m jump
  refine ⟨_, instructionLine_ldstr hop htoken htable hrow m jump, fun c hc => ?_⟩
  rw [String.toList_append, String.toList_append, List.mem_append, List.mem_append] at hc
  rcases hc with (hc | hc) | hc
  · exact isControl_offsetLabel i.offset c hc
  · exact of_decide_eq_true
      (List.all_eq_true.1 (show ": ldstr ".toList.all (isControl · = false) by decide) c hc)
  · exact isControl_literal t c hc

/-- A text with a backslash in front of a quote, the spelling of an escape, and a control character in front
of a digit. -/
def entangled : String := "\\\"\\u0041\x010"

/-- The names of a module with one string. -/
def entangledNames : Names := ⟨{ (default : Metadata) with userStrings := [entangled] }, "P::M"⟩

theorem literal_unambiguous_entangled :
    literal entangled = "\"\\\\\\\"\\\\u0041\\u00010\"" ∧
      entangledNames.row .userString entangledNames.metadata.userStrings (.ofRow .userString 0) =
        .ok entangled ∧
      Even (backslashes "\\\\\\\"\\\\u0041\\u00010".toList) ∧
      ∃ head, instructionLine entangledNames default ⟨0, .ldstr, .token (.ofRow .userString 0)⟩ none =
        .ok (head ++ literal entangled) ∧
          ∀ c ∈ (head ++ literal entangled).toList, isControl c = false := by
  have hliteral : literal entangled = "\"\\\\\\\"\\\\u0041\\u00010\"" := by decide +kernel
  obtain ⟨-, ⟨body, hbody, hquotes⟩, -, -, hline⟩ := literal_unambiguous entangled
  have hinside : body = "\\\\\\\"\\\\u0041\\u00010".toList := by
    rw [hliteral] at hbody
    exact (List.append_inj' (List.cons.inj hbody).2.symm rfl).1
  exact ⟨hliteral, rfl, hinside ▸ (hquotes body [] rfl).2 rfl,
    hline entangledNames ⟨0, .ldstr, .token (.ofRow .userString 0)⟩ _ rfl rfl rfl rfl default none⟩

end CilScope.Listing
