import Stencil.Report.Basic
import Stencil.Report.Row

/-!
# Drawing a report

A report quotes the rows that its place covers and marks the place there. The two numbers
of a span are used as counts of characters, so a report on text with wider characters
before the place points behind it. What can be seen of the place depends on where that
leads:

* within one row, the place is underlined and the label hangs from the middle of it;
* over several rows, a bracket leads from the first row to the last one, and the label
  hangs from the bracket;
* when the place ends one character behind the text, its end is not found, and the label
  is left out;
* when it reaches further, nothing is quoted.

A span that runs backwards has no report at all.
-/

namespace Stencil

namespace Report

/-- The position of the last character of the place, or its start when it is empty. -/
def last (report : Report) : Nat := max report.span.start (report.span.stop - 1)

/-- The marks under the columns from `first` up to `stop`: a line, or a bar when the place is
empty. The label hangs from the column between them. -/
def underline (first stop : Nat) : List Stroke :=
  (List.range (stop + 2)).map fun column =>
    if column = (first + stop) / 2 then
      if first = stop then ⟨'│', ' '⟩ else ⟨'┬', '─'⟩
    else if first ≤ column && column < stop then .line
    else .blank

/-- The line that leads from the marked columns to the label. -/
def pointer (first stop : Nat) : List Stroke :=
  (List.range (stop + 2)).map fun column =>
    if column < (first + stop) / 2 then .blank
    else if column = (first + stop) / 2 then ⟨'╰', '─'⟩
    else .line

/-- The margin of a drawn row: as wide as the numbers are, and with a row's own number if
it is quoted. The bar at its end is interrupted where rows are left out. -/
def margin (width : Nat) (number bar : String) : String :=
  " " ++ String.ofList (List.replicate (width - number.length) ' ') ++ number ++ " " ++ bar

def quoteInline (report : Report) (width : Nat) (row : Row) : List String :=
  let plain := margin width "" "│" ++ " "
  if row.stop < report.span.stop then [plain]
  else
    let first := report.span.start - row.start
    let stop := report.span.stop - row.start
    let text := row.visible
    [margin width (toString row.number) "│" ++ " " ++ draw text (text.map .ofChar),
      plain ++ draw text (underline first stop),
      plain ++ draw text (pointer first stop) ++ " " ++ report.label]

/-- The quotation of a place over several rows, of which the first one and the others are
given. Rows in between are left out. -/
def quoteBracket (report : Report) (width : Nat) (first : Row) (others : List Row) :
    List String :=
  let quoted (row : Row) (bracket : String) : String :=
    let text := row.visible
    margin width (toString row.number) "│" ++ " " ++ bracket ++ draw text (text.map .ofChar)
  let (ends, between) := others.partition fun row => report.last < row.stop
  let gap := if between.isEmpty then [] else [margin width "" "┆" ++ " ┆   "]
  let tail := ends.flatMap fun row =>
    let columns := row.text.length + 2
    let plain := margin width "" "│"
    [quoted row "├─▶ ",
      plain ++ " │   " ++ draw row.visible (List.replicate columns .blank),
      plain ++ " ╰───" ++ draw row.visible (List.replicate columns .line) ++ " " ++ report.label]
  quoted first "╭─▶ " :: gap ++ tail

/-- The quotation of the place, or nothing if it reaches too far behind the text. -/
def quote? (report : Report) (source : List Char) (file : String) : Option String :=
  if source.length < report.last then none
  else do
    let rows := Row.all source
    let first ← Row.holding? rows report.span.start
    let final ← Row.holding? rows report.last
    let width := (toString final.number).length
    let column := report.span.start - first.start + 1
    let place := file ++ ":" ++ toString first.number ++ ":" ++ toString column
    let others := rows.filter fun row => first.number < row.number && row.number ≤ final.number
    let quotation :=
      if others.isEmpty then report.quoteInline width first
      else report.quoteBracket width first others
    let indent := String.ofList (List.replicate (width + 2) ' ')
    let rule := String.ofList (List.replicate (width + 2) '─')
    let drawn := [indent ++ "╭─[" ++ place ++ "]", indent ++ "│"] ++ quotation ++ [rule ++ "╯"]
    return String.join (drawn.map (· ++ "\n"))

def draw? (report : Report) (source file : String) : Option String :=
  if report.span.stop < report.span.start then none
  else
    some ("Error: " ++ report.headline ++ "\n" ++
      (report.quote? source.toList file).getD "")

end Report

end Stencil
