import Mathlib.Data.List.DropRight
import Stencil.Proofs.Text.Cut
import Stencil.Report.Row

/-!
# The line and the column of a place

The text before a place tells the line and the column of the place, and no other place of the text
has the same two (`eq_of_place_eq`). In a text that is broken by line feeds alone, and not at its
end (`IsLined`), the row that holds a position has the number of its line and begins where that
line does (`Report.Row.exists_holding?_all`).
-/

namespace Stencil

namespace Text

variable {s t line front front' : List Char}

/-- The number of the line that goes on behind this text. -/
def lineAfter (before : List Char) : Nat := before.count '\n' + 1

/-- The number of the column behind this text: one more than there are characters on the same
line. -/
def columnAfter (before : List Char) : Nat := (before.rtakeWhile (· != '\n')).length + 1

theorem columnAfter_append (ht : '\n' ∉ t) (s : List Char) :
    columnAfter (s ++ t) = columnAfter s + t.length := by
  have hline : ∀ c ∈ t.reverse, (c != '\n') = true := by
    intro c hc
    rw [bne_iff_ne]
    rintro rfl
    exact ht (List.mem_reverse.mp hc)
  simp only [columnAfter, List.rtakeWhile, List.reverse_append, List.takeWhile_append_of_pos hline,
    List.length_reverse, List.length_append]
  omega

theorem columnAfter_of_notMem (hs : '\n' ∉ s) : columnAfter s = s.length + 1 := by
  have happend := columnAfter_append hs []
  rwa [List.nil_append, Nat.add_comm] at happend

/-- Only what stands behind the last line feed counts. -/
theorem columnAfter_append_cons (s t : List Char) :
    columnAfter (s ++ '\n' :: t) = columnAfter t := by
  simp only [columnAfter, List.rtakeWhile, List.reverse_append, List.reverse_cons,
    List.append_assoc, List.singleton_append, List.length_reverse, List.takeWhile_append]
  split
  · next hall => simp [hall]
  · rfl

theorem lineAfter_append (s t : List Char) :
    lineAfter (s ++ t) = lineAfter s + t.count '\n' := by
  rw [lineAfter, lineAfter, List.count_append]
  omega

/-- No two places of a text have the same line and column. -/
theorem eq_of_place_eq (h : front <+: s) (h' : front' <+: s)
    (hline : lineAfter front = lineAfter front')
    (hcolumn : columnAfter front = columnAfter front') : front = front' := by
  -- What one of the two has more is neither a line feed nor any other character.
  have hsame (front more : List Char) (hline : lineAfter front = lineAfter (front ++ more))
      (hcolumn : columnAfter front = columnAfter (front ++ more)) : front = front ++ more := by
    rw [lineAfter_append] at hline
    have hnone : '\n' ∉ more := List.count_eq_zero.mp (by omega)
    rw [columnAfter_append hnone] at hcolumn
    have hempty := List.eq_nil_of_length_eq_zero (by omega : more.length = 0)
    rw [hempty, List.append_nil]
  rcases List.prefix_or_prefix_of_prefix h h' with ⟨more, rfl⟩ | ⟨more, rfl⟩
  · exact hsame front more hline hcolumn
  · exact (hsame front' more hline.symm hcolumn.symm).symm

/-! ### Rows of a text that is broken by line feeds -/

/-- Line feeds are all that breaks the text, as no character that is one column wide does, and
there is more behind each. -/
structure IsLined (s : List Char) : Prop where
  ne_nil : s ≠ []
  eq_of_isBreak : ∀ c ∈ s, isBreak c = true → c = '\n'
  last : s.getLast? ≠ some '\n'

instance (s : List Char) : Decidable (IsLined s) :=
  decidable_of_iff
    (s ≠ [] ∧ s.all (fun c => !isBreak c || c == '\n') = true ∧ s.getLast? ≠ some '\n') <| by
    have hall : s.all (fun c => !isBreak c || c == '\n') = true ↔
        ∀ c ∈ s, isBreak c = true → c = '\n' := by
      rw [List.all_eq_true]
      refine forall_congr' fun c => forall_congr' fun _ => ?_
      cases isBreak c <;> simp
    rw [hall]
    exact ⟨fun ⟨hne, hbreak, hlast⟩ => ⟨hne, hbreak, hlast⟩,
      fun ⟨hne, hbreak, hlast⟩ => ⟨hne, hbreak, hlast⟩⟩

theorem IsLined.isBreak_eq_false (h : IsLined s) (ht : t ⊆ s) (hnone : '\n' ∉ t) :
    ∀ c ∈ t, isBreak c = false := by
  intro c hc
  rw [← Bool.not_eq_true]
  intro hbreak
  exact hnone (h.eq_of_isBreak c (ht hc) hbreak ▸ hc)

theorem IsLined.of_append_cons (h : IsLined (s ++ '\n' :: t)) : IsLined t := by
  have hlast := h.last
  rw [List.getLast?_append_of_ne_nil _ (List.cons_ne_nil _ _)] at hlast
  have hne : t ≠ [] := by
    rintro rfl
    exact hlast rfl
  refine ⟨hne, fun c hc => ?_, ?_⟩
  · exact h.eq_of_isBreak c (List.mem_append_right _ (List.mem_cons_of_mem _ hc))
  · rwa [List.getLast?_cons_of_ne_nil hne] at hlast

theorem rows_of_not_isBreak (hs : ∀ c ∈ s, isBreak c = false) (hne : s ≠ []) : rows s = [s] := by
  induction s with
  | nil => exact absurd rfl hne
  | cons c s ih =>
      obtain ⟨hc, hs⟩ := List.forall_mem_cons.mp hs
      rw [rows, endsRow, hc]
      cases s with
      | nil => rfl
      | cons d s =>
          rw [ih hs (List.cons_ne_nil d s)]
          rfl

theorem rows_append_cons (hline : ∀ c ∈ line, isBreak c = false) (rest : List Char) :
    rows (line ++ '\n' :: rest) = (line ++ ['\n']) :: rows rest := by
  induction line with
  | nil => rfl
  | cons c line ih =>
      obtain ⟨hc, hline⟩ := List.forall_mem_cons.mp hline
      rw [List.cons_append, rows, endsRow, hc, ih hline]
      rfl

end Text

namespace Report.Row

open Text (lineAfter columnAfter)

variable {pos number start : Nat} {before : List Char} {texts : List (List Char)}
  {row : Row} {rows : List Row}

theorem le_start_of_mem_ofTexts (h : row ∈ ofTexts number start texts) : start ≤ row.start := by
  induction texts generalizing number start with
  | nil => cases h
  | cons text texts ih =>
      rcases List.mem_cons.mp h with rfl | h
      · exact Nat.le_refl _
      · exact Nat.le_of_add_right_le (ih h)

theorem holding?_cons_of_lt (hstart : row.start ≤ pos) (hlt : ∀ other ∈ rows, pos < other.start) :
    holding? (row :: rows) pos = some row := by
  have hnone : rows.filter (·.start ≤ pos) = [] := by
    rw [List.filter_eq_nil_iff]
    intro other hother
    have := hlt other hother
    simp
    omega
  rw [holding?, List.filter_cons_of_pos (by simpa using hstart), hnone]
  rfl

theorem holding?_cons_of_eq_some {other : Row} (h : holding? rows pos = some other) (row : Row) :
    holding? (row :: rows) pos = some other := by
  rw [holding?] at h ⊢
  by_cases hstart : row.start ≤ pos
  · rw [List.filter_cons_of_pos (by simpa using hstart), List.getLast?_cons, h]
    rfl
  · rw [List.filter_cons_of_neg (by simpa using hstart), h]

/-- A place on the first line, which is followed by no other line or has more text. -/
theorem exists_holding?_first (number start : Nat) {text : List Char} (hbefore : '\n' ∉ before)
    (hlt : texts = [] ∨ before.length < text.length) :
    ∃ row, holding? (ofTexts number start (text :: texts)) (start + before.length) = some row ∧
      row.number = number + before.count '\n' ∧
      row.start + columnAfter before = start + before.length + 1 := by
  refine ⟨⟨number, start, text⟩, holding?_cons_of_lt (Nat.le_add_right _ _) ?_, ?_, ?_⟩
  · intro other hother
    rcases hlt with rfl | hlt
    · cases hother
    · exact Nat.lt_of_lt_of_le (Nat.add_lt_add_left hlt start) (le_start_of_mem_ofTexts hother)
  · rw [List.count_eq_zero.mpr hbefore, Nat.add_zero]
  · rw [Text.columnAfter_of_notMem hbefore, ← Nat.add_assoc]

/-- The row that holds a position, when the rows of the text are numbered from `number` and begin
at `start`. -/
theorem exists_holding?_ofTexts (number start : Nat) {before after : List Char}
    (h : Text.IsLined (before ++ after)) :
    ∃ row, holding? (ofTexts number start (Text.rows (before ++ after)))
        (start + before.length) = some row ∧
      row.number = number + before.count '\n' ∧
      row.start + columnAfter before = start + before.length + 1 := by
  by_cases hmem : '\n' ∈ before ++ after
  · obtain ⟨line, rest, hsplit, hline⟩ := List.eq_append_cons_of_mem hmem
    have hplain := h.isBreak_eq_false (hsplit ▸ List.subset_append_left line _) hline
    rw [hsplit, Text.rows_append_cons hplain]
    rw [hsplit] at h
    rcases Text.append_eq_append_cons_cases hsplit with ⟨more, rfl, rfl⟩ | ⟨more, rfl, rfl⟩
    · -- The place is behind the first line, so it is one of the rest.
      obtain ⟨row, hrow, hnumber, hstart⟩ := exists_holding?_ofTexts (number + 1)
        (start + (line ++ ['\n']).length) h.of_append_cons
      have hlength : start + (line ++ '\n' :: more).length =
          start + (line ++ ['\n']).length + more.length := by simp; omega
      refine ⟨row, ?_, ?_, ?_⟩
      · rw [hlength]
        exact holding?_cons_of_eq_some hrow _
      · rw [hnumber, List.count_append, List.count_eq_zero.mpr hline, List.count_cons_self]
        omega
      · rw [Text.columnAfter_append_cons, hstart, hlength]
    · refine exists_holding?_first number start (fun h => hline (List.mem_append_left more h))
        (.inr ?_)
      simp only [List.length_append, List.length_singleton]
      omega
  · rw [Text.rows_of_not_isBreak (h.isBreak_eq_false (List.Subset.refl _) hmem) h.ne_nil]
    exact exists_holding?_first number start (fun h => hmem (List.mem_append_left after h))
      (.inl rfl)
  termination_by before.length

/-- The row that holds the place behind `front`. -/
theorem exists_holding?_all {source front : List Char} (h : Text.IsLined source)
    (hfront : front <+: source) :
    ∃ row, holding? (all source) front.length = some row ∧ row.number = lineAfter front ∧
      front.length - row.start + 1 = columnAfter front := by
  obtain ⟨after, rfl⟩ := hfront
  obtain ⟨row, hrow, hnumber, hstart⟩ := exists_holding?_ofTexts 1 0 h
  rw [Nat.zero_add] at hrow hstart
  refine ⟨row, hrow, ?_, ?_⟩
  · rw [hnumber, lineAfter, Nat.add_comm]
  · rw [columnAfter] at hstart ⊢
    omega

end Report.Row

end Stencil
