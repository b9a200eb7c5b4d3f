import CilScope.Diagnostic.Log
import CilScope.Text.Blank

/-!
# Lexemes

The tokens of a source text. Words are not told from keywords here. Visual Basic is read line by
line: the end of a line and a colon give a `newline`, blank lines give none, and a line that ends in
a lone underscore goes on in the next one.

Scanning works on the list of remaining characters. A scan says how many characters belong to a
lexeme, and positions follow from the characters passed by.
-/

namespace CilScope.Source

/-- A token. -/
inductive Lexeme
  | word (text : String)
  /-- An integer literal without sign. -/
  | int (value : Nat)
  | str (text : String)
  | punct (text : String)
  | newline
  | eof
  deriving DecidableEq, Repr, Inhabited

/-- A token with the positions where it starts and behind which it ends. -/
structure Located where
  lexeme : Lexeme
  start : Position
  stop : Position
  deriving DecidableEq, Repr, Inhabited

/-- The punctuation of a language. An entry stands before every entry it begins with. -/
def punctuation : Language → List String
  | .csharp => ["++", "--", "+=", "-=", "*=", "/=", "%=", "==", "!=", "<=", ">=", "&&", "||",
      "\x7b", "\x7d", "(", ")", "[", "]", ";", ",", ".", "+", "-", "*", "/", "%", "<", ">", "!", "="]
  | .visualBasic => ["+=", "-=", "*=", "&=", "<>", "<=", ">=", "(", ")", ",", ".", "+", "-", "*",
      "/", "\\", "&", "<", ">", "="]

namespace Lexeme

/-! ### What is skipped -/

/-- The number of characters up to the end of the line. -/
def lineLength (cs : List Char) : Nat := (cs.takeWhile (· ≠ '\n')).length

/-- The number of characters of a comment up to its end mark, the mark included. -/
def commentLength : List Char → Nat
  | '*' :: '/' :: _ => 2
  | _ :: cs => 1 + commentLength cs
  | [] => 0

/-- Whether an underscore continues the line: it stands alone behind a blank, nothing but white
space follows, and there is a next line. -/
def continues (before : Option Char) (behind : List Char) : Bool :=
  (before == none || before == some ' ' || before == some '\t') &&
  (behind.takeWhile (· ≠ '\n')).all Text.isBlank && behind.contains '\n'

/-- The number of characters of the blank, comment or continuation at the front, where `before` is
the character in front of them; zero if there is none. -/
def gapLength (language : Language) (before : Option Char) (cs : List Char) : Nat :=
  match language, cs with
  | _, ' ' :: _ | _, '\t' :: _ | _, '\r' :: _ => 1
  | .csharp, '/' :: '/' :: _ => lineLength cs
  | .csharp, '/' :: '*' :: rest => 2 + commentLength rest
  | .visualBasic, '\'' :: _ => lineLength cs
  | .visualBasic, '_' :: rest => if continues before rest then lineLength cs + 1 else 0
  | _, _ => 0

/-- The number of characters to skip before the next lexeme. -/
def skipLength (language : Language) (before : Option Char) (cs : List Char) : Nat :=
  match cs with
  | [] => 0
  | c :: rest =>
    match gapLength language before (c :: rest) with
    | 0 => 0
    | n + 1 => n + 1 + skipLength language (c :: rest)[n]? (rest.drop n)
termination_by cs.length
decreasing_by
  simp only [List.length_drop, List.length_cons]
  omega

/-! ### What is read -/

/-- What stands at the front of a text: the number of its characters, the lexeme if it is one, and
the problem if there is one. -/
structure Scan where
  length : Nat
  lexeme : Option Lexeme := none
  problem : Option Cause := none
  deriving DecidableEq, Repr, Inhabited

/-- The characters a word starts with. -/
def startsWord (c : Char) : Bool := c.isAlpha || c == '_'

/-- The characters of a word. -/
def inWord (c : Char) : Bool := c.isAlphanum || c == '_'

/-- The hexadecimal digits. -/
def isHexDigit (c : Char) : Bool :=
  c.isDigit || ('a' ≤ c && c ≤ 'f') || ('A' ≤ c && c ≤ 'F')

/-- The value of a hexadecimal digit. -/
def digitValue (c : Char) : Nat :=
  if c.isDigit then c.toNat - '0'.toNat else c.toLower.toNat - 'a'.toNat + 10

/-- The value of a digit string. -/
def valueOf (base : Nat) (digits : List Char) : Nat :=
  digits.foldl (fun v c => base * v + digitValue c) 0

/-- A word. In Visual Basic the word `Rem` starts a comment, which is read to the end of its line
and stands for the end of the line. -/
def scanWord (language : Language) (cs : List Char) : Scan :=
  let word := cs.takeWhile inWord
  if language = .visualBasic ∧ word.map Char.toLower = "rem".toList then
    let n := lineLength cs
    if n < cs.length then { length := n + 1, lexeme := some .newline }
    else { length := n, lexeme := some .eof }
  else { length := word.length, lexeme := some (.word (String.ofList word)) }

/-- A literal of `skipped` characters followed by digits of the given base. Without digits, or
above the limit, it is too large. -/
def scanDigits (base limit skipped : Nat) (isDigit : Char → Bool) (cs : List Char) : Scan :=
  let digits := (cs.drop skipped).takeWhile isDigit
  let value := valueOf base digits
  let length := skipped + digits.length
  if !digits.isEmpty && value ≤ limit then { length, lexeme := some (.int value) }
  else { length, lexeme := some (.int 0), problem := some .integerTooLarge }

/-- A number: hexadecimal up to 32 bits, decimal up to `2 ^ 31`, since a minus sign may follow. -/
def scanNumber (cs : List Char) : Scan :=
  match cs with
  | '0' :: 'x' :: _ | '0' :: 'X' :: _ | '&' :: _ :: _ => scanDigits 16 0xFFFFFFFF 2 isHexDigit cs
  | _ => scanDigits 10 0x80000000 0 Char.isDigit cs

/-- The rest of a string literal: its text, the number of its characters and whether it ends. -/
structure StringRest where
  text : List Char
  length : Nat
  closed : Bool
  deriving DecidableEq, Repr, Inhabited

/-- A character of the text, written with `n` characters. -/
def StringRest.cons (c : Char) (n : Nat) (r : StringRest) : StringRest :=
  { r with text := c :: r.text, length := r.length + n }

/-- The character an escape stands for. -/
def unescape : Char → Char
  | 'n' => '\n'
  | 't' => '\t'
  | 'r' => '\r'
  | '0' => '\x00'
  | c => c

/-- How string literals are written: a quote inside is doubled, or a backslash escapes the next
character; a literal may span lines or not. -/
structure StringStyle where
  doubledQuotes : Bool
  escapes : Bool
  multiline : Bool
  deriving DecidableEq, Repr, Inhabited

/-- Reads a string literal behind its opening quote. -/
def scanString (style : StringStyle) : List Char → StringRest
  | [] => ⟨[], 0, false⟩
  | '"' :: cs =>
    match style.doubledQuotes, cs with
    | true, '"' :: cs => (scanString style cs).cons '"' 2
    | _, _ => ⟨[], 1, true⟩
  | '\\' :: cs =>
    if style.escapes then
      match cs with
      | [] => ⟨[], 1, false⟩
      | c :: cs => (scanString style cs).cons (unescape c) 2
    else (scanString style cs).cons '\\' 1
  | c :: cs =>
    if c = '\n' ∧ !style.multiline then ⟨[], 0, false⟩
    else (scanString style cs).cons c 1

/-- A string literal behind `opening` characters. -/
def scanLiteral (style : StringStyle) (opening : Nat) (cs : List Char) : Scan :=
  let rest := scanString style (cs.drop opening)
  { length := opening + rest.length
    lexeme := some (.str (String.ofList rest.text))
    problem := if rest.closed then none else some .newlineInConstant }

/-- The first entry of the punctuation that stands at the front, or else an unexpected
character. -/
def scanPunct (language : Language) (c : Char) (cs : List Char) : Scan :=
  match (punctuation language).find? (·.toList.isPrefixOf (c :: cs)) with
  | some p => { length := p.length, lexeme := some (.punct p) }
  | none => { length := 1, problem := some (.unexpectedChar c) }

/-- What stands at the front of `c :: cs`, which is nothing to be skipped. -/
def scan (language : Language) (c : Char) (cs : List Char) : Scan :=
  if startsWord c then scanWord language (c :: cs)
  else if c.isDigit then scanNumber (c :: cs)
  else
    match language, c, cs with
    | .csharp, '\n', _ => { length := 1 }
    | .visualBasic, '\n', _ | .visualBasic, ':', _ => { length := 1, lexeme := some .newline }
    | .visualBasic, '&', 'H' :: _ | .visualBasic, '&', 'h' :: _ => scanNumber (c :: cs)
    | .csharp, '@', '"' :: _ => scanLiteral ⟨true, false, true⟩ 2 (c :: cs)
    | .csharp, '"', _ => scanLiteral ⟨false, true, false⟩ 1 (c :: cs)
    | .visualBasic, '"', _ => scanLiteral ⟨true, false, false⟩ 1 (c :: cs)
    | _, _, _ => scanPunct language c cs

/-- The lexemes of the remaining characters, which start at `position` behind the character
`before`, and the problems met. The last lexeme is the end of the file. -/
def scanAll (language : Language) (position : Position) (before : Option Char) (cs : List Char)
    (log : Log) : List Located × Log :=
  let skip := skipLength language before cs
  let start := position.after (cs.take skip)
  match h : cs.drop skip with
  | [] => ([⟨.eof, start, start⟩], log)
  | c :: rest =>
    let s := scan language c rest
    let log := match s.problem with
      | some cause => log.report start cause
      | none => log
    let stop := start.after ((c :: rest).take s.length)
    match s.lexeme with
    | some .eof => ([⟨.eof, start, stop⟩], log)
    | lexeme =>
      have : rest.length < cs.length := by
        have := congrArg List.length h
        simp at this
        omega
      let (tail, log) := scanAll language stop (c :: rest)[s.length - 1]?
        (rest.drop (s.length - 1)) log
      match lexeme with
      | some lexeme => (⟨lexeme, start, stop⟩ :: tail, log)
      | none => (tail, log)
termination_by cs.length
decreasing_by
  simp only [List.length_drop]
  omega

/-- Leaves out the line ends that follow another one, or nothing. -/
def collapse (previous : Option Lexeme) : List Located → List Located
  | [] => []
  | t :: rest =>
    if t.lexeme = .newline ∧ (previous = none ∨ previous = some .newline) then
      collapse previous rest
    else t :: collapse (some t.lexeme) rest

/-- The lexemes of a source text. Problems are logged and passed over. -/
def tokenize (language : Language) (source : String) (log : Log) : List Located × Log :=
  let (all, log) := scanAll language {} none source.toList log
  (collapse none all, log)

end Lexeme

end CilScope.Source
