import Stencil.Text.Rows

/-!
# Rows of a quoted text

The rows of a text with their numbers and places. Positions are counted in characters
here. The row that holds a position is the last one that does not begin behind it, so the
position behind the whole text belongs to the last row.

A row is drawn column by column, one column for each character. A column is one cell
wide, but a tab makes its column reach to the next multiple of `tabSize`.
-/

namespace Stencil

namespace Report

structure Row where
  number : Nat
  /-- The number of characters before it. -/
  start : Nat
  /-- The text, with the characters that end it. -/
  text : List Char
  deriving DecidableEq, Repr, Inhabited

namespace Row

def stop (row : Row) : Nat := row.start + row.text.length

/-- What is drawn of the row: the blanks at its end are not. -/
def visible (row : Row) : List Char := Text.trimEnd row.text

def ofTexts (number start : Nat) : List (List Char) → List Row
  | [] => []
  | text :: rest => ⟨number, start, text⟩ :: ofTexts (number + 1) (start + text.length) rest

def all (source : List Char) : List Row := ofTexts 1 0 (Text.rows source)

def holding? (rows : List Row) (pos : Nat) : Option Row :=
  (rows.filter (·.start ≤ pos)).getLast?

end Row

/-- What is drawn in a column: a character in its first cell, and one that fills the
others. -/
structure Stroke where
  head : Char
  fill : Char
  deriving DecidableEq, Repr, Inhabited

namespace Stroke

def blank : Stroke := ⟨' ', ' '⟩

def line : Stroke := ⟨'─', '─'⟩

/-- A character of the text. A blank is drawn as a space. -/
def ofChar (c : Char) : Stroke := if Text.isBlank c then blank else ⟨c, ' '⟩

end Stroke

/-- A tab ends at a column whose number is a multiple of this one. -/
def tabSize : Nat := 4

/-- The number of cells of a column below or in that text. -/
def columnSize (text : List Char) (column : Nat) : Nat :=
  if text[column]? = some '\t' then (column / tabSize + 1) * tabSize - column else 1

/-- The strokes, one in each column from the first on, below or in that text. -/
def draw (text : List Char) (strokes : List Stroke) : String :=
  String.ofList (strokes.zipIdx.flatMap fun (stroke, column) =>
    stroke.head :: List.replicate (columnSize text column - 1) stroke.fill)

end Report

end Stencil
