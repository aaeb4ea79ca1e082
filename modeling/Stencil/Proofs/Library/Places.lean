import Mathlib.Data.List.Pairwise
import Stencil.Proofs.Library.Load
import Stencil.Proofs.Text.Cut

/-!
# Where the lines of a library are

Every line is in one block, or it is blank and in none. The blocks take up ranges of lines one
behind the other, and their numbers count the lines of the whole text, headings included. What is
said here of blocks is read off `Splits`, for the blocks are what the lines fall into.
-/

namespace Stencil

namespace Library

/-- The block has the line of that number. -/
def Block.Holds (block : Block) (number : Nat) : Prop :=
  block.line ≤ number ∧ number < block.line + block.lines.length

variable {n number : Nat} {line : List Char} {lines front back : List (List Char)}
  {block other : Block} {found : List Block}

theorem Splits.le_line (h : Splits n lines found) : ∀ block ∈ found, n ≤ block.line := by
  induction h with
  | nil n => simp
  | blank _ _ ih => exact fun block hblock => Nat.le_of_succ_le (ih block hblock)
  | @closed n init rest last found _ _ _ _ ih =>
      refine List.forall_mem_cons.mpr ⟨Nat.le_refl _, fun block hblock => ?_⟩
      have := ih block hblock
      omega
  | unclosed _ _ _ => exact List.forall_mem_singleton.mpr (Nat.le_refl _)

/-- A block ends before the next one starts. -/
theorem Splits.pairwise (h : Splits n lines found) :
    found.Pairwise fun b b' => b.line + b.lines.length ≤ b'.line := by
  induction h with
  | nil n => exact .nil
  | blank _ _ ih => exact ih
  | @closed n init rest last found _ _ _ hrest ih =>
      refine .cons (fun block hblock => ?_) ih
      rw [List.length_append, List.length_singleton, ← Nat.add_assoc]
      exact hrest.le_line block hblock
  | unclosed _ _ _ => exact List.pairwise_singleton _ _

/-- No line is in two blocks. -/
theorem Splits.eq_of_holds (h : Splits n lines found) (hblock : block ∈ found)
    (hother : other ∈ found) (hholds : block.Holds number) (hholds' : other.Holds number) :
    block = other := by
  have hsymm : Std.Symm fun b b' : Block => b.Holds number → b'.Holds number → b = b' :=
    ⟨fun _ _ hagree h' h => (hagree h h').symm⟩
  have hagree : found.Pairwise fun b b' => b.Holds number → b'.Holds number → b = b' := by
    refine h.pairwise.imp ?_
    rintro b b' hle ⟨-, hlt⟩ ⟨hle', -⟩
    omega
  exact hagree.forall_of_forall (fun _ _ _ _ => rfl) hblock hother hholds hholds'

/-- The first line of a block is not blank. -/
theorem Splits.exists_first (h : Splits n lines found) (hmem : block ∈ found) :
    ∃ first rest, block.lines = first :: rest ∧ Text.allBlank first = false := by
  induction h with
  | nil n => cases hmem
  | blank _ _ ih => exact ih hmem
  | @closed n init rest last found hhead _ _ _ ih =>
      rcases List.mem_cons.mp hmem with rfl | hmem
      · obtain ⟨first, tail, hlines⟩ : ∃ first tail, init ++ [last] = first :: tail :=
          List.exists_cons_of_ne_nil (by simp)
        exact ⟨first, tail, hlines, hhead first (by rw [hlines]; rfl)⟩
      · exact ih hmem
  | @unclosed n lines hne hhead _ =>
      obtain rfl := List.mem_singleton.mp hmem
      obtain ⟨first, tail, rfl⟩ := List.exists_cons_of_ne_nil hne
      exact ⟨first, tail, rfl, hhead first rfl⟩

/-- A line that is in no block is blank. -/
theorem Splits.allBlank_of_not_holds (h : Splits n lines found)
    (hlines : lines = front ++ line :: back)
    (hnot : ∀ block ∈ found, ¬ block.Holds (n + front.length)) : Text.allBlank line = true := by
  induction h generalizing front with
  | nil n => simp at hlines
  | @blank n blank lines found hblank _ ih =>
      cases front with
      | nil =>
          obtain ⟨rfl, -⟩ := List.cons_eq_cons.mp hlines
          exact hblank
      | cons d front =>
          obtain ⟨rfl, hlines⟩ := List.cons_eq_cons.mp hlines
          refine ih (List.cons_eq_cons.mp hlines).2 fun block hblock => ?_
          rw [Nat.add_right_comm, Nat.add_assoc]
          exact hnot block hblock
  | @closed n init rest last found hhead _ _ _ ih =>
      obtain ⟨hfirst, hnot⟩ := List.forall_mem_cons.mp hnot
      have hsplit : init ++ [last] ++ rest = front ++ line :: back := by simpa using hlines
      rcases Text.append_eq_append_cons_cases hsplit with ⟨more, hblock, -⟩ | ⟨more, rfl, hrest⟩
      · have hlength := congrArg List.length hblock
        simp only [List.length_append, List.length_cons, List.length_nil] at hlength
        refine absurd ?_ hfirst
        simp only [Block.Holds, List.length_append, List.length_cons, List.length_nil]
        omega
      · refine ih hrest fun block hblock => ?_
        have := hnot block hblock
        rw [List.length_append, List.length_append, List.length_singleton] at this
        rwa [← Nat.add_assoc, ← Nat.add_assoc] at this
  | @unclosed n lines hne hhead _ =>
      refine absurd ?_ (hnot _ List.mem_cons_self)
      have hlength := congrArg List.length hlines
      simp only [List.length_append, List.length_cons] at hlength
      simp only [Block.Holds]
      omega

/-- Every line is in one block, or it is blank and in none. -/
theorem Splits.exists_block_or_allBlank (h : Splits n lines found)
    (hlines : lines = front ++ line :: back) :
    (∃! block, block ∈ found ∧ block.Holds (n + front.length)) ∨
      Text.allBlank line = true ∧ ∀ block ∈ found, ¬ block.Holds (n + front.length) := by
  by_cases hsome : ∃ block ∈ found, block.Holds (n + front.length)
  · obtain ⟨block, hblock, hholds⟩ := hsome
    exact .inl ⟨block, ⟨hblock, hholds⟩, fun other ⟨hother, hholds'⟩ =>
      h.eq_of_holds hother hblock hholds' hholds⟩
  · have hnot : ∀ block ∈ found, ¬ block.Holds (n + front.length) := by simpa using hsome
    exact .inr ⟨h.allBlank_of_not_holds hlines hnot, hnot⟩

theorem Splits.closed_of_mem_dropLast (h : Splits n lines found) :
    ∀ block ∈ found.dropLast, block.Closed := by
  rcases List.eq_nil_or_concat found with rfl | ⟨before, last, rfl⟩
  · simp
  · rw [List.concat_eq_append] at h ⊢
    obtain ⟨-, -, -, -, -, -, hclosed, -⟩ := h.exists_lines
    rwa [List.dropLast_concat]

theorem Block.text_eq_intercalate (block : Block) :
    block.text = String.intercalate "\n" (block.lines.map String.ofList) := by
  rw [← String.toList_inj, text, String.toList_ofList, String.toList_intercalate, List.map_map]
  have hid : String.toList ∘ String.ofList = id := funext fun _ => String.toList_ofList
  rw [hid, List.map_id]
  rfl

/-- A block of a text stands in the text at the line of its number, from one. -/
theorem exists_lines_of_mem_blocksOf {text : String} (hblock : block ∈ blocksOf text) :
    ∃ front back, Text.lines text.toList = front ++ block.lines ++ back ∧
      block.line = front.length + 1 := by
  have hsplits := splits_blocksOf text
  obtain ⟨first, rest, hfirst, -⟩ := hsplits.exists_first hblock
  obtain ⟨before, after, hfound⟩ := List.append_of_mem hblock
  rw [hfound] at hsplits
  obtain ⟨xs, ys, hlines, hline, -⟩ := hsplits.exists_lines
  have hlong : 3 ≤ (Text.lines text.toList).length := by
    by_contra hshort
    rw [List.drop_of_length_le (by omega), hfirst] at hlines
    simp at hlines
  refine ⟨(Text.lines text.toList).take 3 ++ xs, ys, ?_, ?_⟩
  · rw [List.append_assoc, List.append_assoc, ← List.append_assoc xs, ← hlines,
      List.take_append_drop]
  · rw [hline, firstLine, List.length_append, List.length_take_of_le hlong]
    omega

/-- The blocks take up ranges of lines one behind the other, and what is in no block is blank. A
block is its lines, the first of which is not blank and has the number of the block. All blocks but
the last end at the first line that closes them; the last one does too, or goes up to the end. -/
theorem every_line_in_one_place :
    (∀ (number : Nat) (lines : List (List Char)),
      (blocks number lines).Pairwise (fun b b' => b.line + b.lines.length ≤ b'.line) ∧
        (∀ block ∈ blocks number lines,
          (∃ front back, lines = front ++ block.lines ++ back ∧
            block.line = number + front.length) ∧
          block.text = String.intercalate "\n" (block.lines.map String.ofList) ∧
          (∃ first rest, block.lines = first :: rest ∧ Text.allBlank first = false) ∧
          (∀ line ∈ block.lines.dropLast, closesBlock line = false) ∧
          (¬ block.Closed → block.line + block.lines.length = number + lines.length)) ∧
        (∀ block ∈ (blocks number lines).dropLast, block.Closed) ∧
        ∀ front line back, lines = front ++ line :: back →
          (∃! block, block ∈ blocks number lines ∧ block.Holds (number + front.length)) ∨
            Text.allBlank line = true ∧
              ∀ block ∈ blocks number lines, ¬ block.Holds (number + front.length)) ∧
      ∀ (text : String), ∀ block ∈ blocksOf text,
        ∃ front back, Text.lines text.toList = front ++ block.lines ++ back ∧
          block.line = front.length + 1 := by
  refine ⟨fun number lines => ?_, fun text block => exists_lines_of_mem_blocksOf⟩
  have hsplits := splits_blocks number lines
  refine ⟨hsplits.pairwise, fun block hblock => ⟨?_, block.text_eq_intercalate,
    hsplits.exists_first hblock, ?_, hsplits.length_eq_of_unclosed hblock⟩,
    hsplits.closed_of_mem_dropLast, fun front line back => hsplits.exists_block_or_allBlank⟩
  · obtain ⟨before, after, hfound⟩ := List.append_of_mem hblock
    rw [hfound] at hsplits
    obtain ⟨front, back, hlines, hline, -⟩ := hsplits.exists_lines
    exact ⟨front, back, hlines, hline⟩
  · rcases List.eq_nil_or_concat block.lines with hnil | ⟨init, last, hlines⟩
    · simp [hnil]
    · rw [List.concat_eq_append] at hlines
      rw [hlines, List.dropLast_concat]
      exact hsplits.closesBlock_eq_false hblock hlines

end Library

end Stencil
