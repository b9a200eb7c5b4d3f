/-!
# Indented text

A `Sink` collects text line by line. Indentation is owed to a line until its first piece of text
arrives and is paid then, so a blank line never carries trailing tabs. A text is written in the
pieces that stand between its line breaks.
-/

namespace CilScope.Text

/-- Text written so far, the indentation owed to new lines, and whether the current line has
already been started. -/
structure Sink where
  text : String := ""
  depth : Nat := 0
  midLine : Bool := false
  deriving DecidableEq, Repr, Inhabited

namespace Sink

/-- One more tab in front of every line started from now on. -/
def indent (s : Sink) : Sink := { s with depth := s.depth + 1 }

/-- One tab less; at the margin nothing changes. -/
def unindent (s : Sink) : Sink := { s with depth := s.depth - 1 }

/-- `n` tabs appended to `text`. -/
def pushTabs (text : String) : Nat → String
  | 0 => text
  | n + 1 => pushTabs (text.push '\t') n

/-- Ends the current line. -/
def line (s : Sink) : Sink := { s with text := s.text.push '\n', midLine := false }

/-- Writes a piece of a line. The first one that is not empty pays the indentation. -/
def writePiece (s : Sink) (piece : List Char) : Sink :=
  if piece.isEmpty then s
  else
    let text := if s.midLine then s.text else pushTabs s.text s.depth
    { s with text := text ++ String.ofList piece, midLine := true }

/-- Writes pieces with line breaks between them. -/
def writePieces (s : Sink) : List (List Char) → Sink
  | [] => s
  | [piece] => s.writePiece piece
  | piece :: pieces => (s.writePiece piece).line.writePieces pieces

/-- Writes a text, line breaks included. -/
def write (s : Sink) (t : String) : Sink := s.writePieces (t.toList.splitOn '\n')

/-- Writes a text and ends the line. -/
def writeLine (s : Sink) (t : String) : Sink := (s.write t).line

end Sink

end CilScope.Text
