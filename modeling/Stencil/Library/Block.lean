import Stencil.Text.Cut
import Stencil.Text.Blank

/-!
# The blocks of a library

The lines of a library fall into blocks. A block starts at a line that is not blank and
goes on up to the first line that closes it, or to the end of the text. Blank lines
between blocks belong to none; blank lines inside a block belong to it.
-/

namespace Stencil

namespace Library

structure Block where
  /-- The number of the first line. -/
  line : Nat
  lines : List (List Char)
  deriving DecidableEq, Repr, Inhabited

def Block.text (block : Block) : String :=
  String.ofList (List.intercalate ['\n'] block.lines)

/-- Whether a line closes a block: its last word is `end`. -/
def closesBlock (line : List Char) : Bool :=
  match Text.cutLast? "end".toList none (Text.trimEnd line) with
  | some (_, []) => true
  | _ => false

/-- The lines up to and including the first one that closes a block, and the lines
after it. -/
def cutBlock : List (List Char) → List (List Char) × List (List Char)
  | [] => ([], [])
  | line :: lines =>
      if closesBlock line then ([line], lines)
      else
        let (block, rest) := cutBlock lines
        (line :: block, rest)

theorem cutBlock_append (lines : List (List Char)) :
    (cutBlock lines).1 ++ (cutBlock lines).2 = lines := by
  induction lines with
  | nil => rfl
  | cons line lines ih =>
      unfold cutBlock
      split
      · rfl
      · simp [ih]

theorem length_cutBlock_cons (line : List Char) (lines : List (List Char)) :
    (cutBlock (line :: lines)).2.length ≤ lines.length := by
  unfold cutBlock
  split
  · exact Nat.le_refl _
  · have h := congrArg List.length (cutBlock_append lines)
    simp only [List.length_append] at h
    show (cutBlock lines).2.length ≤ lines.length
    omega

/-- The blocks among the lines, the first of which has that number. -/
def blocks (number : Nat) : List (List Char) → List Block
  | [] => []
  | line :: lines =>
      if Text.allBlank line then blocks (number + 1) lines
      else
        let block := (cutBlock (line :: lines)).1
        ⟨number, block⟩ :: blocks (number + block.length) (cutBlock (line :: lines)).2
  termination_by lines => lines.length
  decreasing_by
    · simp only [List.length_cons]
      omega
    · have := length_cutBlock_cons line lines
      simp only [List.length_cons]
      omega

end Library

end Stencil
