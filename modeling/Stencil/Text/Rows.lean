import Stencil.Text.Blank

/-!
# Rows

A text is shown in rows. A row keeps the characters that end it, so the rows of a text
make up the text again (`flatten_rows`) and a row begins where the lengths of the rows
before it add up to. A row ends at each mandatory line break of Unicode; a carriage
return and the line feed behind it are one break.
-/

namespace Stencil

namespace Text

/-- The mandatory line breaks of Unicode: line feed, vertical tab, form feed, carriage
return, next line, line separator and paragraph separator. -/
def isBreak (c : Char) : Bool :=
  let n := c.toNat
  (0x0A ≤ n && n ≤ 0x0D) || n == 0x85 || n == 0x2028 || n == 0x2029

/-- A break is a blank, so a trimmed row has lost its end. -/
theorem isBlank_of_isBreak {c : Char} (h : isBreak c) : isBlank c := by
  simp only [isBreak, isBlank, Bool.or_eq_true, Bool.and_eq_true, decide_eq_true_eq,
    beq_iff_eq] at h ⊢
  omega

/-- Whether a row ends at `c` when `rest` follows. -/
def endsRow (c : Char) (rest : List Char) : Bool :=
  isBreak c && !(c == '\r' && rest.head? == some '\n')

/-- The rows of a text. A break at the very end starts no further row. -/
def rows : List Char → List (List Char)
  | [] => []
  | c :: rest =>
      if endsRow c rest then [c] :: rows rest
      else
        match rows rest with
        | [] => [[c]]
        | row :: more => (c :: row) :: more

theorem flatten_rows (s : List Char) : (rows s).flatten = s := by
  induction s with
  | nil => rfl
  | cons c rest ih =>
      unfold rows
      split
      · simp [ih]
      · split
        · next h => simpa [h] using ih
        · next row more h => simpa [h] using ih

end Text

end Stencil
