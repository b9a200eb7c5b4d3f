import CilScope.Text.Hex

/-!
# Quoting in listings

A name that is no plain identifier is put in single quotes, and string literals are written with
escapes, so that both always stay on one line and can be told apart.
-/

namespace CilScope.Text.Quoted

/-- The characters of plain identifiers. -/
def isNameChar (c : Char) : Bool :=
  c.isAlphanum || c == '_' || c == '.' || c == '$' || c == '@' || c == '\x60' || c == '?'

/-- Whether a name can stand without quotes: it is not empty, does not start with a digit and has
identifier characters only. -/
def isPlain (name : List Char) : Bool :=
  match name with
  | [] => false
  | c :: _ => !c.isDigit && name.all isNameChar

/-- A single quote is written behind a backslash. -/
def escapeQuote (c : Char) : List Char := if c = '\'' then ['\\', '\''] else [c]

/-- A name, in single quotes if need be. -/
def name (s : String) : String :=
  if isPlain s.toList then s
  else String.ofList ('\'' :: (s.toList.flatMap escapeQuote ++ ['\'']))

/-- The control characters of Unicode. -/
def isControl (c : Char) : Bool :=
  c.toNat < 0x20 || (0x7F ≤ c.toNat && c.toNat < 0xA0)

/-- The written form of one character of a string literal. -/
def escapeChar (c : Char) : List Char :=
  if c = '"' then ['\\', '"']
  else if c = '\\' then ['\\', '\\']
  else if c = '\n' then ['\\', 'n']
  else if c = '\r' then ['\\', 'r']
  else if c = '\t' then ['\\', 't']
  else if c = '\x00' then ['\\', '0']
  else if isControl c then '\\' :: 'u' :: (Hex.padded 4 c.toNat).toList
  else [c]

/-- A string literal in double quotes. -/
def literal (s : String) : String :=
  String.ofList ('"' :: (s.toList.flatMap escapeChar ++ ['"']))

end CilScope.Text.Quoted
