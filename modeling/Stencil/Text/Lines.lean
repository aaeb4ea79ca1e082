import Stencil.Text.Blank

/-!
# Lines

A line ends at a line feed, which is not part of it and takes one carriage return
directly before it along. A last line without a line feed counts when it is not empty.
-/

namespace Stencil

namespace Text

def dropReturn (line : List Char) : List Char :=
  if line.getLast? = some '\r' then line.dropLast else line

/-- Given the pieces between line feeds, the lines: every piece but the last is
followed by a line feed. -/
def linesOfPieces : List (List Char) → List (List Char)
  | [] => []
  | [last] => if last.isEmpty then [] else [last]
  | piece :: rest => dropReturn piece :: linesOfPieces rest

def lines (s : List Char) : List (List Char) := linesOfPieces (pieces (· == '\n') s)

end Text

end Stencil
