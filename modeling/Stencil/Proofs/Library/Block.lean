import Mathlib.Data.List.Basic
import Stencil.Library.Block

/-!
# Laws of blocks

`Splits` says what it is for lines to fall into blocks, and `splits_iff` that this is what
they are split into. The laws are inductions on it: behind closed blocks the splitting
starts anew (`Splits.append`), and around a block the lines before it and those after it are
split as on their own (`Splits.exists_lines`).
-/

namespace Stencil

namespace Library

variable {line last : List Char} {lines init rest xs ys : List (List Char)} {n : Nat}
  {block : Block} {found before after : List Block}

/-- The lines, the first of which has that number, fall into the blocks. -/
inductive Splits : Nat → List (List Char) → List Block → Prop where
  | nil (n : Nat) : Splits n [] []
  /-- A blank line in front belongs to no block. -/
  | blank {n : Nat} {line : List Char} {lines : List (List Char)} {found : List Block} :
      Text.allBlank line = true → Splits (n + 1) lines found → Splits n (line :: lines) found
  /-- A block goes up to the first line that closes it. -/
  | closed {n : Nat} {init rest : List (List Char)} {last : List Char} {found : List Block} :
      (∀ line ∈ (init ++ [last]).head?, Text.allBlank line = false) →
      (∀ line ∈ init, closesBlock line = false) → closesBlock last = true →
      Splits (n + init.length + 1) rest found →
      Splits n (init ++ last :: rest) (⟨n, init ++ [last]⟩ :: found)
  /-- The last block may go up to the end of the lines. -/
  | unclosed {n : Nat} {lines : List (List Char)} :
      lines ≠ [] → (∀ line ∈ lines.head?, Text.allBlank line = false) →
      (∀ line ∈ lines, closesBlock line = false) → Splits n lines [⟨n, lines⟩]

theorem cutBlock_append_cons (hinit : ∀ line ∈ init, closesBlock line = false)
    (hlast : closesBlock last = true) (rest : List (List Char)) :
    cutBlock (init ++ last :: rest) = (init ++ [last], rest) := by
  induction init with
  | nil => simp [cutBlock, hlast]
  | cons line init ih =>
      obtain ⟨hline, hinit⟩ := List.forall_mem_cons.mp hinit
      simp [cutBlock, hline, ih hinit]

theorem cutBlock_of_forall (h : ∀ line ∈ lines, closesBlock line = false) :
    cutBlock lines = (lines, []) := by
  induction lines with
  | nil => rfl
  | cons line lines ih =>
      obtain ⟨hline, hlines⟩ := List.forall_mem_cons.mp h
      simp [cutBlock, hline, ih hlines]

/-- Lines are cut behind the first one that closes a block, or behind the last one. -/
theorem cutBlock_cases (lines : List (List Char)) :
    (∃ init last rest, lines = init ++ last :: rest ∧ (∀ line ∈ init, closesBlock line = false) ∧
      closesBlock last = true ∧ cutBlock lines = (init ++ [last], rest)) ∨
    (∀ line ∈ lines, closesBlock line = false) ∧ cutBlock lines = (lines, []) := by
  cases hfind : lines.find? closesBlock with
  | none =>
      have hopen : ∀ line ∈ lines, closesBlock line = false := by simpa using hfind
      exact .inr ⟨hopen, cutBlock_of_forall hopen⟩
  | some last =>
      obtain ⟨hlast, init, rest, rfl, hinit⟩ := List.find?_eq_some_iff_append.mp hfind
      have hinit : ∀ line ∈ init, closesBlock line = false := by simpa using hinit
      exact .inl ⟨init, last, rest, rfl, hinit, hlast, cutBlock_append_cons hinit hlast rest⟩

theorem blocks_cons_of_allBlank (h : Text.allBlank line = true) (n : Nat)
    (lines : List (List Char)) : blocks n (line :: lines) = blocks (n + 1) lines := by
  rw [blocks, if_pos h]

theorem blocks_of_cutBlock (hne : lines ≠ [])
    (hhead : ∀ line ∈ lines.head?, Text.allBlank line = false) (hcut : cutBlock lines = (xs, rest))
    (n : Nat) : blocks n lines = ⟨n, xs⟩ :: blocks (n + xs.length) rest := by
  cases lines with
  | nil => exact absurd rfl hne
  | cons line lines =>
      have hline : Text.allBlank line = false := hhead line rfl
      rw [blocks, if_neg (by simp [hline]), hcut]

theorem splits_blocks (n : Nat) (lines : List (List Char)) : Splits n lines (blocks n lines) := by
  fun_induction blocks n lines with
  | case1 n => exact .nil n
  | case2 n line lines hblank ih => exact .blank hblank ih
  | case3 n line lines hblank cut ih =>
      have hline : Text.allBlank line = false := by simpa using hblank
      rcases cutBlock_cases (line :: lines) with
        ⟨init, last, rest, hlines, hinit, hlast, hcut⟩ | ⟨hopen, hcut⟩
      · have hhead : ∀ l ∈ (init ++ [last]).head?, Text.allBlank l = false := by
          intro l hl
          cases init <;> simp_all
        simp only [cut, hcut, List.length_append, List.length_singleton, ← Nat.add_assoc] at ih ⊢
        rw [hlines]
        exact .closed hhead hinit hlast ih
      · simp only [cut, hcut, blocks] at ih ⊢
        exact .unclosed (List.cons_ne_nil _ _) (by simp [hline]) hopen

/-- There is one way only to split lines into blocks. -/
theorem splits_iff : Splits n lines found ↔ blocks n lines = found := by
  constructor
  · intro h
    induction h with
    | nil n => rw [blocks]
    | blank hblank _ ih => rw [blocks_cons_of_allBlank hblank, ih]
    | @closed n init rest last found hhead hinit hlast _ ih =>
        have hhead' : ∀ line ∈ (init ++ last :: rest).head?, Text.allBlank line = false := by
          cases init <;> simpa using hhead
        rw [blocks_of_cutBlock (by simp) hhead' (cutBlock_append_cons hinit hlast rest),
          List.length_append, List.length_singleton, ← Nat.add_assoc, ih]
    | unclosed hne hhead hopen =>
        rw [blocks_of_cutBlock hne hhead (cutBlock_of_forall hopen), blocks]
  · rintro rfl
    exact splits_blocks n lines

/-- The last line of the block closes it. -/
def Block.Closed (block : Block) : Prop :=
  ∃ init last, block.lines = init ++ [last] ∧ closesBlock last = true

/-- No line of a block but the last one closes it. -/
theorem Splits.closesBlock_eq_false (h : Splits n lines found) (hmem : block ∈ found)
    (hlines : block.lines = init ++ [last]) : ∀ line ∈ init, closesBlock line = false := by
  induction h with
  | nil n => cases hmem
  | blank _ _ ih => exact ih hmem
  | closed _ hinit _ _ ih =>
      rcases List.mem_cons.mp hmem with rfl | hmem
      · obtain ⟨rfl, -⟩ := List.append_inj' hlines rfl
        exact hinit
      · exact ih hmem
  | unclosed _ _ hopen =>
      obtain rfl := List.mem_singleton.mp hmem
      obtain rfl : _ = init ++ [last] := hlines
      exact fun line hline => hopen line (List.mem_append_left _ hline)

/-- Behind closed blocks the splitting starts anew. -/
theorem Splits.append (h : Splits n xs before) (hclosed : ∀ block ∈ before, block.Closed)
    (h' : Splits (n + xs.length) ys after) : Splits n (xs ++ ys) (before ++ after) := by
  induction h with
  | nil n => exact h'
  | blank hblank _ ih =>
      rw [List.length_cons, ← Nat.add_assoc, Nat.add_right_comm] at h'
      exact .blank hblank (ih hclosed h')
  | @closed n init rest last found hhead hinit hlast _ ih =>
      obtain ⟨-, hclosed⟩ := List.forall_mem_cons.mp hclosed
      rw [List.append_assoc, List.cons_append, List.cons_append]
      refine .closed hhead hinit hlast (ih hclosed ?_)
      rwa [List.length_append, List.length_cons, ← Nat.add_assoc, ← Nat.add_assoc,
        Nat.add_right_comm _ rest.length] at h'
  | unclosed _ _ hopen =>
      obtain ⟨init, last, hlines, hlast⟩ := hclosed _ List.mem_cons_self
      simp only at hlines
      subst hlines
      rw [hopen last (List.mem_append_right _ List.mem_cons_self)] at hlast
      cases hlast

/-- A block stands at its number. All before it are closed, and it is itself closed or the
last thing there is. -/
theorem Splits.exists_lines (h : Splits n lines (before ++ block :: after)) :
    ∃ xs ys, lines = xs ++ block.lines ++ ys ∧ block.line = n + xs.length ∧
      Splits n xs before ∧ Splits (block.line + block.lines.length) ys after ∧
      (∀ b ∈ before, b.Closed) ∧ (block.Closed ∨ ys = []) := by
  generalize hfound : before ++ block :: after = found at h
  induction h generalizing before with
  | nil n => simp at hfound
  | blank hblank _ ih =>
      obtain ⟨xs, ys, rfl, hline, hxs, hys, hclosed, hends⟩ := ih hfound
      refine ⟨_ :: xs, ys, rfl, ?_, .blank hblank hxs, hys, hclosed, hends⟩
      rw [hline, List.length_cons, Nat.add_assoc, Nat.add_comm 1]
  | @closed n init rest last found hhead hinit hlast hrest ih =>
      cases before with
      | nil =>
          obtain ⟨rfl, rfl⟩ := List.cons_eq_cons.mp hfound
          refine ⟨[], rest, by simp, rfl, .nil n, ?_, by simp, .inl ⟨init, last, rfl, hlast⟩⟩
          simpa [← Nat.add_assoc] using hrest
      | cons b before =>
          obtain ⟨rfl, htail⟩ := List.cons_eq_cons.mp hfound
          obtain ⟨xs, ys, rfl, hline, hxs, hys, hclosed, hends⟩ := ih htail
          refine ⟨init ++ last :: xs, ys, by simp, ?_, .closed hhead hinit hlast hxs, hys,
            List.forall_mem_cons.mpr ⟨⟨init, last, rfl, hlast⟩, hclosed⟩, hends⟩
          rw [hline, List.length_append, List.length_cons]
          omega
  | @unclosed n lines hne hhead hopen =>
      obtain ⟨rfl, hsingle⟩ := List.append_eq_singleton_iff.mp hfound |>.resolve_right (by simp)
      obtain ⟨rfl, rfl⟩ := List.cons_eq_cons.mp hsingle
      exact ⟨[], [], by simp, rfl, .nil n, .nil _, by simp, .inr rfl⟩

/-- A block that is unclosed goes up to the end of the lines. -/
theorem Splits.length_eq_of_unclosed (h : Splits n lines found) (hmem : block ∈ found)
    (hunclosed : ¬ block.Closed) : block.line + block.lines.length = n + lines.length := by
  obtain ⟨before, after, rfl⟩ := List.append_of_mem hmem
  obtain ⟨xs, ys, rfl, hline, -, -, -, hclosed | rfl⟩ := h.exists_lines
  · exact absurd hclosed hunclosed
  · rw [hline, List.append_nil, List.length_append, Nat.add_assoc]

/-- Where the lines of a block are replaced by as many lines that form one block, the other
blocks stay, with their numbers. -/
theorem Splits.replace {block' : Block} {new : List (List Char)}
    (h : Splits n (xs ++ block.lines ++ ys) (before ++ block :: after))
    (hline : block.line = n + xs.length) (hlength : new.length = block.lines.length)
    (hnew : Splits block.line new [block'])
    (hmem : block' ∈ blocks n (xs ++ new ++ ys)) :
    Splits n (xs ++ new ++ ys) (before ++ block' :: after) := by
  obtain ⟨xs', ys', hlines, hline', hxs, hys, hclosed, -⟩ := h.exists_lines
  obtain ⟨rfl, rfl⟩ : xs = xs' ∧ ys = ys' := by
    rw [List.append_assoc, List.append_assoc] at hlines
    obtain ⟨hxs', htail⟩ := List.append_inj hlines (by omega)
    exact ⟨hxs', (List.append_cancel_left htail)⟩
  rw [← hlength] at hys
  rw [List.append_assoc]
  refine hxs.append hclosed ?_
  rw [← hline]
  by_cases hends : block'.Closed
  · exact hnew.append (by simpa using hends) hys
  · -- A block that runs to the end of the new lines and of all lines has nothing behind it.
    have hinner := hnew.length_eq_of_unclosed List.mem_cons_self hends
    have houter := (splits_blocks n _).length_eq_of_unclosed hmem hends
    simp only [List.length_append] at houter
    obtain rfl : ys = [] := List.eq_nil_of_length_eq_zero (by omega)
    obtain rfl : after = [] := by rw [← splits_iff.mp hys, blocks]
    rwa [List.append_nil]

end Library

end Stencil
