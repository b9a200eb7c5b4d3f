import CilScope.Source.Lexeme
import Mathlib

/-!
# Where tokens stand

The scanner keeps a position and moves it on by the characters it passes. Here the position of every
token is tied to the offset its text has in the source: the tokens of a source text and what is passed
over between them make up the whole text (`Tiles`), each token begins and ends where its text does, and
a position is what the scanner counts for its offset (`ofOffset`): its line and its column, as long as the
counters do not overflow (`isAt_ofOffset`). What makes this work is that a scan reads a character at least
and none behind the end (`fits_scan`), and that the scanner remembers the character in front of the next
one, on which the continuation of a line depends.
-/

namespace CilScope.Source

namespace Position

/-- The line an offset of a text is on. -/
def lineAt (text : List Char) (offset : Nat) : Nat := (text.take offset).count '\n' + 1

/-- The column of an offset of a text, counted since the last newline. -/
def columnAt (text : List Char) (offset : Nat) : Nat :=
  ((text.take offset).reverse.takeWhile (· ≠ '\n')).length + 1

/-- What a scanner counts for an offset of a text. -/
def ofOffset (text : List Char) (offset : Nat) : Position :=
  ⟨.ofNat (lineAt text offset), .ofNat (columnAt text offset)⟩

theorem after_append (p : Position) (text more : List Char) :
    p.after (text ++ more) = (p.after text).after more :=
  List.foldl_append

theorem after_eq (text : List Char) : after {} text = ofOffset text text.length := by
  induction text using List.reverseRecOn with
  | nil => rfl
  | append_singleton text c ih =>
    rw [after_append, ih, after, List.foldl_cons, List.foldl_nil, next]
    simp only [ofOffset, lineAt, columnAt, List.take_length]
    by_cases hc : c = '\n'
    · simp [hc]
    · simp [hc]

/-- Passing characters by leads to the place of their offset. -/
theorem after_take (text : List Char) (offset : Nat) :
    after {} (text.take offset) = ofOffset text offset := by
  rw [after_eq]
  simp only [ofOffset, lineAt, columnAt, List.take_length]

/-- Passing characters by leads on to the place of a later offset. -/
theorem after_drop (text : List Char) (n k : Nat) :
    (ofOffset text n).after ((text.drop n).take k) = ofOffset text (n + k) := by
  rw [← after_take, ← after_append, ← List.take_add, after_take]

/-! ### Counting without an overflow -/

/-- A position is on the line and at the column of an offset. -/
structure IsAt (p : Position) (text : List Char) (offset : Nat) : Prop where
  line : p.line.toNat = lineAt text offset
  column : p.column.toNat = columnAt text offset

theorem lineAt_le (text : List Char) (offset : Nat) : lineAt text offset ≤ text.length + 1 := by
  have hcount := List.count_le_length (a := '\n') (l := text.take offset)
  have htake := List.length_take_le' offset text
  unfold lineAt
  omega

theorem columnAt_le (text : List Char) (offset : Nat) : columnAt text offset ≤ text.length + 1 := by
  have hcount := (List.takeWhile_sublist (· ≠ '\n') (l := (text.take offset).reverse)).length_le
  have htake := List.length_take_le' offset text
  rw [List.length_reverse] at hcount
  unfold columnAt
  omega

/-- No counter of a scanner overflows in a text of less than `2 ^ 32 - 1` characters. -/
theorem isAt_ofOffset {text : List Char} (h : text.length + 1 < UInt32.size) (offset : Nat) :
    (ofOffset text offset).IsAt text offset where
  line := UInt32.toNat_ofNat_of_lt (Nat.lt_of_le_of_lt (lineAt_le text offset) h)
  column := UInt32.toNat_ofNat_of_lt (Nat.lt_of_le_of_lt (columnAt_le text offset) h)

/-- Whether a position is the same as another one or comes before it. -/
def Before (p q : Position) : Prop := p.line < q.line ∨ p.line = q.line ∧ p.column ≤ q.column

/-- A later offset is on a later line, or on the same line at a later column. -/
theorem lineAt_lt_or_columnAt_le (text : List Char) {n m : Nat} (h : n ≤ m) :
    lineAt text n < lineAt text m ∨
      lineAt text n = lineAt text m ∧ columnAt text n ≤ columnAt text m := by
  obtain ⟨k, rfl⟩ := Nat.exists_eq_add_of_le h
  simp only [lineAt, columnAt, List.take_add, List.count_append, List.reverse_append]
  by_cases hline : '\n' ∈ (text.drop n).take k
  · have := List.count_pos_iff.mpr hline
    omega
  · right
    have hnone : ∀ c ∈ ((text.drop n).take k).reverse, decide (c ≠ '\n') := fun c hc =>
      decide_eq_true fun heq => hline (heq ▸ List.mem_reverse.mp hc)
    rw [List.takeWhile_append_of_pos hnone, List.count_eq_zero.mpr hline, List.length_append]
    omega

theorem IsAt.before {text : List Char} {n m : Nat} {p q : Position} (hp : p.IsAt text n)
    (hq : q.IsAt text m) (h : n ≤ m) : p.Before q := by
  have hle := lineAt_lt_or_columnAt_le text h
  rw [← hp.line, ← hq.line, ← hp.column, ← hq.column] at hle
  exact hle.imp UInt32.lt_iff_toNat_lt.mpr
    (And.imp UInt32.toNat_inj.mp UInt32.le_iff_toNat_le.mpr)

end Position

namespace Lexeme

variable {language : Language} {before : Option Char} {c : Char} {cs : List Char}

/-! ### Lengths of gaps -/

theorem lineLength_le (cs : List Char) : lineLength cs ≤ cs.length :=
  (List.takeWhile_sublist _).length_le

theorem lineLength_lt (h : '\n' ∈ cs) : lineLength cs < cs.length := by
  refine lt_of_le_of_ne (lineLength_le cs) fun hlength => ?_
  have hall := (List.takeWhile_sublist (· ≠ '\n')).eq_of_length hlength
  have hne := List.mem_takeWhile_imp (hall.symm ▸ h)
  exact of_decide_eq_true hne rfl

theorem commentLength_le (cs : List Char) : commentLength cs ≤ cs.length := by
  fun_induction commentLength cs with
  | case1 => simp
  | case2 c cs _ ih => rw [List.length_cons]; omega
  | case3 => exact Nat.le_refl _

theorem gapLength_le : gapLength language before cs ≤ cs.length := by
  unfold gapLength
  split
  · exact Nat.le_add_left ..
  · exact Nat.le_add_left ..
  · exact Nat.le_add_left ..
  · exact lineLength_le _
  · have := commentLength_le ‹_›
    simp only [List.length_cons]
    omega
  · exact lineLength_le _
  · split
    · next rest h =>
      have hline : '\n' ∈ rest := by
        rw [continues, Bool.and_eq_true] at h
        exact List.contains_iff_mem.mp h.2
      exact lineLength_lt (List.mem_cons_of_mem _ hline)
    · exact Nat.zero_le _
  · exact Nat.zero_le _

/-! ### Lengths of scans -/

theorem length_takeWhile_pos {p : Char → Bool} (h : p c) (cs : List Char) :
    0 < ((c :: cs).takeWhile p).length := by
  rw [List.takeWhile_cons_of_pos h]
  exact Nat.succ_pos _

/-- A scan reads a character at least, and none behind the end. -/
def Fits (s : Scan) (cs : List Char) : Prop := 0 < s.length ∧ s.length ≤ cs.length

theorem fits_scanWord (h : startsWord c) : Fits (scanWord language (c :: cs)) (c :: cs) := by
  have hword : inWord c := by
    rw [startsWord, Bool.or_eq_true] at h
    rw [inWord, Char.isAlphanum, Bool.or_eq_true, Bool.or_eq_true]
    exact h.imp_left .inl
  have hpos := length_takeWhile_pos hword cs
  have hle := (List.takeWhile_sublist inWord (l := c :: cs)).length_le
  have hline := lineLength_le (c :: cs)
  unfold scanWord
  dsimp only
  split
  · next hrem =>
    split
    · next hlt => exact ⟨Nat.succ_pos _, hlt⟩
    · refine ⟨?_, hline⟩
      dsimp only
      simp only [List.length_cons] at *
      omega
  · exact ⟨hpos, hle⟩

theorem fits_scanDigits {base limit skipped : Nat} {isDigit : Char → Bool}
    (hpos : 0 < skipped ∨ ∀ d ∈ cs.head?, isDigit d) (hcs : cs ≠ []) (hle : skipped ≤ cs.length) :
    Fits (scanDigits base limit skipped isDigit cs) cs := by
  have htake := (List.takeWhile_sublist isDigit (l := cs.drop skipped)).length_le
  rw [List.length_drop] at htake
  have hread : 0 < skipped + ((cs.drop skipped).takeWhile isDigit).length := by
    rcases Nat.eq_zero_or_pos skipped with rfl | hskip
    · obtain ⟨d, ds, rfl⟩ := List.exists_cons_of_ne_nil hcs
      have := length_takeWhile_pos (hpos.resolve_left (Nat.lt_irrefl 0) d rfl) ds
      rw [List.drop_zero]
      omega
    · omega
  unfold scanDigits
  dsimp only
  split <;> exact ⟨hread, by dsimp only; omega⟩

theorem fits_scanNumber (h : c.isDigit ∨ c = '&' ∧ cs ≠ []) :
    Fits (scanNumber (c :: cs)) (c :: cs) := by
  have htwo : ∀ {d e : Char} {ds : List Char}, c :: cs = d :: e :: ds → 2 ≤ (c :: cs).length :=
    fun heq => heq ▸ Nat.le_add_left ..
  unfold scanNumber
  split
  · exact fits_scanDigits (.inl two_pos) nofun (htwo ‹_›)
  · exact fits_scanDigits (.inl two_pos) nofun (htwo ‹_›)
  · exact fits_scanDigits (.inl two_pos) nofun (htwo ‹_›)
  · next hx =>
    refine fits_scanDigits (.inr fun d hd => ?_) nofun (Nat.zero_le _)
    cases hd
    refine h.resolve_right fun ⟨hc, hcs⟩ => ?_
    obtain ⟨d, ds, rfl⟩ := List.exists_cons_of_ne_nil hcs
    exact hx d ds (by rw [hc])

theorem length_scanString_le (style : StringStyle) (cs : List Char) :
    (scanString style cs).length ≤ cs.length := by
  fun_induction scanString style cs <;> simp_all [StringRest.cons]

theorem fits_scanLiteral {style : StringStyle} {opening : Nat} (hpos : 0 < opening)
    (hle : opening ≤ cs.length) : Fits (scanLiteral style opening cs) cs := by
  have := length_scanString_le style (cs.drop opening)
  rw [List.length_drop] at this
  unfold scanLiteral
  exact ⟨by dsimp only; omega, by dsimp only; omega⟩

theorem fits_scanPunct : Fits (scanPunct language c cs) (c :: cs) := by
  unfold scanPunct
  split
  · next p hp =>
    have hfound := List.find?_some hp
    have hprefix := (List.isPrefixOf_iff_prefix.mp hfound).length_le
    have hne : ∀ q ∈ punctuation language, 0 < q.length := by cases language <;> decide
    rw [String.length_toList] at hprefix
    exact ⟨hne p (List.mem_of_find?_eq_some hp), hprefix⟩
  · exact ⟨Nat.one_pos, Nat.le_add_left ..⟩

theorem fits_scan : Fits (scan language c cs) (c :: cs) := by
  have hone : ∀ {l}, Fits { length := 1, lexeme := l } (c :: cs) := ⟨Nat.one_pos, Nat.le_add_left ..⟩
  unfold scan
  split
  · exact fits_scanWord ‹_›
  split
  · exact fits_scanNumber (.inl ‹_›)
  split
  · exact hone
  · exact hone
  · exact hone
  · exact fits_scanNumber (.inr ⟨rfl, nofun⟩)
  · exact fits_scanNumber (.inr ⟨rfl, nofun⟩)
  · exact fits_scanLiteral two_pos (by simp)
  · exact fits_scanLiteral Nat.one_pos (Nat.le_add_left ..)
  · exact fits_scanLiteral Nat.one_pos (Nat.le_add_left ..)
  · exact fits_scanPunct


/-- Only a comment at the end of a text stands for the end of the file. -/
theorem length_scan_of_eof (h : (scan language c cs).lexeme = some .eof) :
    (scan language c cs).length = (c :: cs).length := by
  have hword : (scanWord language (c :: cs)).lexeme = some .eof →
      (scanWord language (c :: cs)).length = (c :: cs).length := by
    have hline := lineLength_le (c :: cs)
    unfold scanWord
    dsimp only
    split
    · split
      · exact nofun
      · intro _
        dsimp only
        omega
    · exact nofun
  have hdigits : ∀ {base limit skipped isDigit} {cs : List Char},
      (scanDigits base limit skipped isDigit cs).lexeme ≠ some .eof := by
    intros
    unfold scanDigits
    dsimp only
    split <;> exact nofun
  have hnumber : (scanNumber (c :: cs)).lexeme ≠ some .eof := by
    unfold scanNumber
    split <;> exact hdigits
  revert h
  unfold scan
  split
  · exact hword
  split
  · exact fun h => absurd h hnumber
  split
  · exact nofun
  · exact nofun
  · exact nofun
  · exact fun h => absurd h hnumber
  · exact fun h => absurd h hnumber
  · exact nofun
  · exact nofun
  · exact nofun
  · unfold scanPunct
    split <;> exact nofun

/-! ### What is passed over -/

/-- The length of the gap at an offset. -/
def gapAt (language : Language) (source : List Char) (offset : Nat) : Nat :=
  gapLength language (source.take offset).getLast? (source.drop offset)

/-- What stands at an offset of a text, if no gap does. -/
def scanAt? (language : Language) (source : List Char) (offset : Nat) : Option Scan :=
  match gapAt language source offset, source.drop offset with
  | 0, c :: cs => some (scan language c cs)
  | _, _ => none

/-- Between two offsets there are only gaps, ends of lines and characters that no token starts
with. -/
inductive Passed (language : Language) (source : List Char) : Nat → Nat → Prop
  | nil (n : Nat) : Passed language source n n
  | gap {n m : Nat} (h : gapAt language source n ≠ 0)
      (rest : Passed language source (n + gapAt language source n) m) : Passed language source n m
  | scan {n m : Nat} {s : Scan} (h : scanAt? language source n = some s)
      (hnone : s.lexeme = none ∨ s.lexeme = some .newline)
      (rest : Passed language source (n + s.length) m) : Passed language source n m

/-- The text between two offsets is read as this token. -/
inductive Consumed (language : Language) (source : List Char) : Lexeme → Nat → Nat → Prop
  | eof : Consumed language source .eof source.length source.length
  | scan {n : Nat} {s : Scan} {l : Lexeme} (h : scanAt? language source n = some s)
      (hl : s.lexeme = some l) : Consumed language source l n (n + s.length)

variable {source : List Char} {n m k : Nat}

theorem scanAt?_eq_some {s : Scan} (h : scanAt? language source n = some s) :
    ∃ c cs, source.drop n = c :: cs ∧ s = Lexeme.scan language c cs := by
  unfold scanAt? at h
  split at h
  · next c cs _ hdrop => exact ⟨c, cs, hdrop, (Option.some.inj h).symm⟩
  · cases h

theorem lt_of_scanAt? {s : Scan} (h : scanAt? language source n = some s) :
    0 < s.length ∧ n + s.length ≤ source.length := by
  obtain ⟨c, cs, hdrop, rfl⟩ := scanAt?_eq_some h
  have hfits : Fits (Lexeme.scan language c cs) (c :: cs) := fits_scan
  have hlength := congrArg List.length hdrop
  rw [List.length_drop] at hlength
  exact ⟨hfits.1, by have := hfits.2; simp only [List.length_cons] at *; omega⟩

theorem Passed.le (h : Passed language source n m) : n ≤ m := by
  induction h with
  | nil => exact Nat.le_refl _
  | gap _ _ ih => omega
  | scan _ _ _ ih => omega

theorem Passed.trans (h : Passed language source n m) (h' : Passed language source m k) :
    Passed language source n k := by
  induction h with
  | nil => exact h'
  | gap hgap _ ih => exact .gap hgap (ih h')
  | scan hscan hnone _ ih => exact .scan hscan hnone (ih h')

/-- The character in front of an offset further on. -/
theorem getLast?_take_add (h : n + k < source.length) :
    (source.take (n + (k + 1))).getLast? = (source.drop n)[k]? := by
  rw [List.getLast?_take, if_neg (by omega), List.getElem?_drop]
  have : n + (k + 1) - 1 = n + k := by omega
  rw [this, List.getElem?_eq_getElem h]
  rfl

/-- Behind what is skipped no gap stands. -/
theorem passed_skipLength {k : Nat} (hn : n ≤ source.length)
    (hk : skipLength language (source.take n).getLast? (source.drop n) = k) :
    Passed language source n (n + k) ∧ n + k ≤ source.length ∧ gapAt language source (n + k) = 0 := by
  induction hlength : source.length - n using Nat.strong_induction_on generalizing n k with
  | _ r ih =>
  subst hlength
  cases hdrop : source.drop n with
  | nil =>
    rw [hdrop, skipLength] at hk
    subst hk
    refine ⟨.nil n, hn, ?_⟩
    rw [Nat.add_zero, gapAt, hdrop]
    exact Nat.le_zero.mp gapLength_le
  | cons c cs =>
    rw [hdrop, skipLength] at hk
    have hlength := congrArg List.length hdrop
    rw [List.length_drop, List.length_cons] at hlength
    have hle : gapLength language (source.take n).getLast? (c :: cs) ≤ (c :: cs).length := gapLength_le
    have hgap : gapAt language source n = gapLength language (source.take n).getLast? (c :: cs) := by
      rw [gapAt, hdrop]
    rw [← hgap] at hk hle
    split at hk
    · next hzero =>
      subst hk
      exact ⟨.nil n, hn, hzero⟩
    · next j hj =>
      rw [hj, List.length_cons] at hle
      have hbehind : cs.drop j = source.drop (n + (j + 1)) := by
        rw [← List.drop_drop, hdrop, List.drop_succ_cons]
      have hbefore : (c :: cs)[j]? = (source.take (n + (j + 1))).getLast? := by
        rw [getLast?_take_add (by omega), hdrop]
      rw [hbefore, hbehind] at hk
      obtain ⟨hpassed, hlast, hnone⟩ := ih _ (by omega) (n := n + (j + 1)) (by omega) rfl rfl
      rw [Nat.add_assoc] at hpassed hlast hnone
      rw [hk] at hpassed hlast hnone
      refine ⟨.gap (by omega) ?_, hlast, hnone⟩
      rwa [hj]

/-! ### Tokens and their spans -/

/-- A token that stands where the text it is read from does. -/
structure Placed (language : Language) (source : List Char) (t : Located) (first last : Nat) :
    Prop where
  consumed : Consumed language source t.lexeme first last
  start : t.start = .ofOffset source first
  stop : t.stop = .ofOffset source last

/-- From an offset on, tokens and what is passed over between them make up the text. -/
inductive Tiles (language : Language) (source : List Char) : Nat → List Located → Prop
  | eof {n first : Nat} {t : Located} (passed : Passed language source n first)
      (placed : Placed language source t first source.length) (heof : t.lexeme = .eof) :
      Tiles language source n [t]
  | cons {n first last : Nat} {t : Located} {ts : List Located}
      (passed : Passed language source n first) (placed : Placed language source t first last)
      (hne : t.lexeme ≠ .eof) (rest : Tiles language source last ts) :
      Tiles language source n (t :: ts)

theorem Tiles.after {ts : List Located} (h : Passed language source n m)
    (hts : Tiles language source m ts) : Tiles language source n ts := by
  cases hts with
  | eof passed placed heof => exact .eof (h.trans passed) placed heof
  | cons passed placed hne rest => exact .cons (h.trans passed) placed hne rest

theorem tiles_scanAll (hn : n ≤ source.length) (log : Log) : Tiles language source n
    (scanAll language (.ofOffset source n) (source.take n).getLast? (source.drop n) log).1 := by
  induction hlength : source.length - n using Nat.strong_induction_on generalizing n log with
  | _ r ih =>
  subst hlength
  obtain ⟨k, hk⟩ : ∃ k, skipLength language (source.take n).getLast? (source.drop n) = k := ⟨_, rfl⟩
  obtain ⟨hpassed, hle, hgap⟩ := passed_skipLength hn hk
  rw [scanAll]
  split
  · next hdrop =>
    rw [hk, List.drop_drop, List.drop_eq_nil_iff] at hdrop
    obtain hend : source.length = n + k := by omega
    simp only [hk, Position.after_drop, ← hend]
    rw [← hend] at hpassed
    exact .eof hpassed ⟨.eof, rfl, rfl⟩ rfl
  · next c rest hdrop =>
    rw [hk, List.drop_drop] at hdrop
    obtain ⟨s, hs⟩ : ∃ s, scan language c rest = s := ⟨_, rfl⟩
    have hscan : scanAt? language source (n + k) = some s := by
      rw [scanAt?, hgap, hdrop]
      exact congrArg some hs
    obtain ⟨hpos, hend⟩ := lt_of_scanAt? hscan
    have hstop : (Position.ofOffset source (n + k)).after ((c :: rest).take s.length) =
        .ofOffset source (n + k + s.length) := by
      rw [← hdrop, Position.after_drop]
    have hbefore : (c :: rest)[s.length - 1]? = (source.take (n + k + s.length)).getLast? := by
      obtain ⟨j, hj⟩ := Nat.exists_eq_add_one.mpr hpos
      rw [← hdrop, hj, getLast?_take_add (by omega), Nat.add_sub_cancel]
    have hbehind : rest.drop (s.length - 1) = source.drop (n + k + s.length) := by
      obtain ⟨j, hj⟩ := Nat.exists_eq_add_one.mpr hpos
      rw [← List.drop_drop, hdrop, hj, List.drop_succ_cons, Nat.add_sub_cancel]
    have htail := fun log => ih _ (by omega) (n := n + k + s.length) hend log rfl
    simp only [hk, hs, Position.after_drop, hstop, hbefore, hbehind]
    split
    · next heof =>
      have hlast := length_scan_of_eof (hs ▸ heof)
      have hlength := congrArg List.length hdrop
      rw [List.length_drop] at hlength
      obtain hend : n + k + s.length = source.length := by rw [← hs]; omega
      have hconsumed := Consumed.scan hscan heof
      rw [hend] at hconsumed ⊢
      exact .eof hpassed ⟨hconsumed, rfl, rfl⟩ rfl
    · next hne =>
      split
      · next l hl =>
        have hne : l ≠ .eof := fun h => hne (hl.trans (congrArg some h))
        exact .cons hpassed ⟨.scan hscan hl, rfl, rfl⟩ hne (htail _)
      · next hnone => exact (htail _).after (hpassed.trans (.scan hscan (.inl hnone) (.nil _)))

/-- A line end is as good as passed over. -/
theorem Tiles.collapse {ts : List Located} (h : Tiles language source n ts) (previous : Option Lexeme) :
    Tiles language source n (collapse previous ts) := by
  induction h generalizing previous with
  | eof passed placed heof =>
    rw [Lexeme.collapse, if_neg (by rw [heof]; exact fun h => nomatch h.1)]
    exact .eof passed placed heof
  | cons passed placed hne rest ih =>
    rw [Lexeme.collapse]
    split
    · next hnewline =>
      have hconsumed := placed.consumed
      rw [hnewline.1] at hconsumed
      cases hconsumed with
      | scan hscan hl => exact (ih previous).after (passed.trans (.scan hscan (.inr hl) (.nil _)))
    · exact .cons passed placed hne (ih _)

theorem tiles_tokenize (language : Language) (source : String) (log : Log) :
    Tiles language source.toList 0 (tokenize language source log).1 :=
  (tiles_scanAll (Nat.zero_le _) log).collapse none

/-! ### Line ends -/

/-- A line end that follows this token is left out. -/
def Blocks (previous : Option Lexeme) : Prop := previous = none ∨ previous = some .newline

theorem head?_collapse {previous : Option Lexeme} (h : Blocks previous) (ts : List Located) :
    ∀ t ∈ (collapse previous ts).head?, t.lexeme ≠ .newline := by
  induction ts with
  | nil => exact nofun
  | cons t ts ih =>
    rw [collapse]
    split
    · exact ih
    · next hne =>
      rintro t ⟨⟩ ht
      exact hne ⟨ht, h⟩

theorem isChain_collapse (previous : Option Lexeme) (ts : List Located) :
    (collapse previous ts).IsChain fun t t' => ¬(t.lexeme = .newline ∧ t'.lexeme = .newline) := by
  induction ts generalizing previous with
  | nil => exact .nil
  | cons t ts ih =>
    rw [collapse]
    split
    · exact ih previous
    · rw [List.isChain_cons]
      refine ⟨fun t' ht' h => ?_, ih _⟩
      exact head?_collapse (.inr (congrArg some h.1)) ts t' ht' h.2

/-! ### Spans -/

theorem Consumed.le {l : Lexeme} (h : Consumed language source l n m) :
    n ≤ m ∧ m ≤ source.length := by
  cases h with
  | eof => exact ⟨Nat.le_refl _, Nat.le_refl _⟩
  | scan h _ => exact ⟨Nat.le_add_right .., (lt_of_scanAt? h).2⟩

namespace Tiles

variable {ts : List Located}

theorem before_start (h : Tiles language source n ts)
    (hat : ∀ k, (Position.ofOffset source k).IsAt source k) :
    ∀ t ∈ ts.head?, (Position.ofOffset source n).Before t.start := by
  cases h with
  | eof passed placed | cons passed placed =>
    rintro t ⟨⟩
    rw [placed.start]
    exact (hat _).before (hat _) passed.le

theorem isChain_before (h : Tiles language source n ts)
    (hat : ∀ k, (Position.ofOffset source k).IsAt source k) :
    ts.IsChain fun t t' => t.stop.Before t'.start := by
  induction h with
  | eof => exact .singleton _
  | cons _ placed _ rest ih =>
    rw [List.isChain_cons]
    refine ⟨fun t' ht' => ?_, ih⟩
    rw [placed.stop]
    exact rest.before_start hat t' ht'

theorem exists_eof (h : Tiles language source n ts) : ∃ init last, ts = init ++ [last] ∧
    last.lexeme = .eof ∧ ∀ t ∈ init, t.lexeme ≠ .eof := by
  induction h with
  | eof _ _ heof => exact ⟨[], _, rfl, heof, nofun⟩
  | cons _ _ hne _ ih =>
    obtain ⟨init, last, rfl, hlast, hinit⟩ := ih
    exact ⟨_ :: init, last, rfl, hlast, List.forall_mem_cons.mpr ⟨hne, hinit⟩⟩

theorem exists_spans (h : Tiles language source n ts) : ∃ spans : List (Nat × Nat),
    List.Forall₂ (fun t s => Placed language source t s.1 s.2) ts spans ∧
      (∀ s ∈ spans.head?, Passed language source n s.1) ∧
      spans.IsChain fun s s' => Passed language source s.2 s'.1 := by
  induction h with
  | eof passed placed => exact ⟨[(_, _)], .cons placed .nil, by rintro s ⟨⟩; exact passed, .singleton _⟩
  | cons passed placed _ _ ih =>
    obtain ⟨spans, hplaced, hhead, hchain⟩ := ih
    refine ⟨(_, _) :: spans, .cons placed hplaced, by rintro s ⟨⟩; exact passed, ?_⟩
    exact List.isChain_cons.mpr ⟨hhead, hchain⟩

end Tiles

/-- **Tokens stand where their text does.** The tokens of a source text end with the only end of the
file. No line end comes first or directly behind another one. Each token has a span of offsets whose
text is read as this token, and its positions are the lines and columns of the two ends. The spans are
in the order of the tokens and do not overlap, and in front of each there is nothing but what the
scanner passes over. The text is short enough for its lines and columns to be counted in 32 bits. -/
theorem tokenize_positions (language : Language) {source : String}
    (hlength : source.length + 1 < UInt32.size) (log : Log) :
    let ts := (tokenize language source log).1
    (∃ init last, ts = init ++ [last] ∧ last.lexeme = .eof ∧ ∀ t ∈ init, t.lexeme ≠ .eof) ∧
      (∀ t ∈ ts.head?, t.lexeme ≠ .newline) ∧
      (ts.IsChain fun t t' => ¬(t.lexeme = .newline ∧ t'.lexeme = .newline)) ∧
      (ts.IsChain fun t t' => t.stop.Before t'.start) ∧
      ∃ spans : List (Nat × Nat),
        List.Forall₂ (fun t s => s.1 ≤ s.2 ∧ s.2 ≤ source.length ∧
          Consumed language source.toList t.lexeme s.1 s.2 ∧
          t.start.IsAt source.toList s.1 ∧ t.stop.IsAt source.toList s.2) ts spans ∧
        (∀ s ∈ spans.head?, Passed language source.toList 0 s.1) ∧
        spans.IsChain fun s s' => s.2 ≤ s'.1 ∧ Passed language source.toList s.2 s'.1 := by
  intro ts
  have htiles := tiles_tokenize language source log
  obtain ⟨spans, hplaced, hhead, hchain⟩ := htiles.exists_spans
  have hat := Position.isAt_ofOffset (String.length_toList ▸ hlength)
  refine ⟨htiles.exists_eof, head?_collapse (.inl rfl) _, isChain_collapse _ _,
    htiles.isChain_before hat, spans, hplaced.imp fun t s h => ?_, hhead,
    hchain.imp fun _ _ h => ⟨h.le, h⟩⟩
  obtain ⟨hle, hlast⟩ := h.consumed.le
  exact ⟨hle, String.length_toList ▸ hlast, h.consumed, h.start ▸ hat _, h.stop ▸ hat _⟩

/-- A comment, a string over two lines with a character of two bytes, and a last line. -/
def spread : String := "/* x */ s = @\"é\n1\";\n\x7d"

theorem tokenize_positions_spread :
    let ts := (tokenize .csharp spread (.forSnippet .csharp)).1
    spread.length + 1 < UInt32.size ∧ (ts.IsChain fun t t' => t.stop.Before t'.start) ∧
      ∃ spans : List (Nat × Nat), List.Forall₂ (fun t s =>
        t.start.IsAt spread.toList s.1 ∧ t.stop.IsAt spread.toList s.2) ts spans := by
  have hlength : spread.length + 1 < UInt32.size := by decide
  obtain ⟨-, -, -, hbefore, spans, hspans, -, -⟩ :=
    tokenize_positions .csharp hlength (.forSnippet .csharp)
  exact ⟨hlength, hbefore, spans, hspans.imp fun _ _ h => h.2.2.2⟩

end Lexeme

end CilScope.Source
