import Mathlib.Data.List.DropRight
import Stencil.Text.Lines

/-!
# Laws of trimming and splitting

Trimming takes off what stands in front and behind, and nothing else (`exists_trim`). The
pieces of a text are those of the core library (`pieces_eq_splitOnP`), so that the laws of
`List.splitOnP` hold of them.
-/

namespace Stencil

namespace Text

variable {p : Char → Bool} {s t : List Char} {c : Char}

theorem trimEnd_eq_rdropWhile (s : List Char) : trimEnd s = s.rdropWhile isBlank := rfl

/-- What is left of a text by trimming, between what was taken off. -/
theorem exists_trim (s : List Char) :
    ∃ after, s = s.takeWhile isBlank ++ trim s ++ after := by
  refine ⟨(trimStart s).rtakeWhile isBlank, ?_⟩
  rw [List.append_assoc, trim, trimEnd_eq_rdropWhile, List.rdropWhile_append_rtakeWhile, trimStart,
    List.takeWhile_append_dropWhile]

theorem trim_cons_of_isBlank (hc : isBlank c = true) (s : List Char) : trim (c :: s) = trim s := by
  rw [trim, trim, trimStart, trimStart, List.dropWhile_cons_of_pos hc]

theorem trim_append_of_isBlank (hs : ∀ c ∈ s, isBlank c = true) (t : List Char) :
    trim (s ++ t) = trim t := by
  induction s with
  | nil => rfl
  | cons c s ih =>
      obtain ⟨hc, hs⟩ := List.forall_mem_cons.mp hs
      rw [List.cons_append, trim_cons_of_isBlank hc, ih hs]

theorem trimStart_eq_self_iff :
    trimStart s = s ↔ ∀ c, s.head? = some c → isBlank c = false := by
  rw [trimStart, List.dropWhile_eq_self_iff]
  cases s <;> simp

theorem trimEnd_eq_self_iff : trimEnd s = s ↔ ∀ c, s.getLast? = some c → isBlank c = false := by
  rw [trimEnd_eq_rdropWhile, List.rdropWhile_eq_self_iff]
  constructor
  · intro h c hc
    have hne : s ≠ [] := by
      rintro rfl
      cases hc
    rw [List.getLast?_eq_some_getLast hne] at hc
    simpa [Option.some.inj hc] using h hne
  · intro h hne
    simp [h _ (List.getLast?_eq_some_getLast hne)]

theorem trimEnd_append_of_ne_nil (ht : t ≠ []) (h : trimEnd t = t) (s : List Char) :
    trimEnd (s ++ t) = s ++ t := by
  rw [trimEnd_eq_self_iff] at h ⊢
  intro c hc
  rw [List.getLast?_append_of_ne_nil _ ht] at hc
  exact h c hc

theorem trimEnd_cons_of_not_isBlank (hc : isBlank c = false) (h : trimEnd t = t) :
    trimEnd (c :: t) = c :: t := by
  cases t with
  | nil => simp [trimEnd, hc]
  | cons d t => exact trimEnd_append_of_ne_nil (List.cons_ne_nil d t) h [c]

/-- A text is left as it is just when it neither starts nor ends with a blank. -/
theorem trim_eq_self_iff :
    trim s = s ↔ (∀ c, s.head? = some c → isBlank c = false) ∧
      ∀ c, s.getLast? = some c → isBlank c = false := by
  rw [← trimStart_eq_self_iff, ← trimEnd_eq_self_iff]
  constructor
  · intro h
    have hstart : trimStart s = s := by
      have hinit := List.rdropWhile_prefix isBlank (trimStart s)
      have hsuffix := List.dropWhile_suffix isBlank (l := s)
      refine hsuffix.eq_of_length_le ?_
      have hle := hinit.length_le
      rwa [← trimEnd_eq_rdropWhile, ← trim, h] at hle
    refine ⟨hstart, ?_⟩
    rw [trim, hstart] at h
    exact h
  · rintro ⟨hstart, hend⟩
    rw [trim, hstart, hend]

theorem trim_eq_self_of_trimEnd (hhead : ∀ c, s.head? = some c → isBlank c = false)
    (h : trimEnd s = s) : trim s = s :=
  trim_eq_self_iff.mpr ⟨hhead, trimEnd_eq_self_iff.mp h⟩

theorem trimEnd_eq_self_of_trim (h : trim s = s) : trimEnd s = s :=
  trimEnd_eq_self_iff.mpr (trim_eq_self_iff.mp h).2

/-- Nothing is left of a text just when it is blank. -/
theorem trim_eq_nil_iff : trim s = [] ↔ ∀ c ∈ s, isBlank c = true := by
  rw [trim, trimEnd_eq_rdropWhile, List.rdropWhile_eq_nil_iff, trimStart]
  constructor
  · intro h c hc
    rw [← List.takeWhile_append_dropWhile (p := isBlank) (l := s), List.mem_append] at hc
    rcases hc with hc | hc
    · exact List.mem_takeWhile_imp hc
    · exact h c hc
  · intro h c hc
    exact h c ((List.dropWhile_suffix isBlank).mem hc)

theorem trim_trim (s : List Char) : trim (trim s) = trim s := by
  refine trim_eq_self_of_trimEnd ?_ (List.rdropWhile_idempotent isBlank (trimStart s))
  intro c hc
  have hstart : trimStart (trimStart s) = trimStart s := List.dropWhile_idempotent isBlank s
  obtain ⟨rest, hrest⟩ := List.rdropWhile_prefix isBlank (trimStart s)
  refine trimStart_eq_self_iff.mp hstart c ?_
  rw [← hrest, List.head?_append]
  exact Option.or_eq_some_iff.mpr (.inl hc)

theorem mem_of_mem_trim (h : c ∈ trim s) : c ∈ s := by
  obtain ⟨after, hsplit⟩ := exists_trim s
  rw [hsplit]
  exact List.mem_append_left _ (List.mem_append_right _ h)

theorem trimEnd_eq_self_of_append (h : trimEnd (s ++ t) = s ++ t) : trimEnd t = t := by
  rw [trimEnd_eq_self_iff] at h ⊢
  intro c hc
  refine h c ?_
  rw [List.getLast?_append]
  exact Option.or_eq_some_iff.mpr (.inl hc)

theorem trimEnd_append_of_isBlank (s : List Char) (ht : ∀ c ∈ t, isBlank c = true) :
    trimEnd (s ++ t) = trimEnd s := by
  rw [trimEnd, List.reverse_append, List.dropWhile_append_of_pos, trimEnd]
  simpa using ht

/-- Blanks around a text that is trimmed are taken off. -/
theorem trim_append_append {before after : List Char} (hbefore : ∀ c ∈ before, isBlank c = true)
    (hafter : ∀ c ∈ after, isBlank c = true) (hs : trim s = s) :
    trim (before ++ s ++ after) = s := by
  rw [List.append_assoc, trim_append_of_isBlank hbefore]
  cases s with
  | nil => exact trim_eq_nil_iff.mpr hafter
  | cons c s =>
      obtain ⟨hhead, hlast⟩ := trim_eq_self_iff.mp hs
      have hstart : trimStart (c :: s ++ after) = c :: s ++ after := by
        rw [trimStart_eq_self_iff]
        exact fun d hd => hhead d hd
      rw [trim, hstart, trimEnd_append_of_isBlank _ hafter]
      exact trimEnd_eq_self_iff.mpr hlast

theorem pieces_eq_splitOnP (p : Char → Bool) (s : List Char) : pieces p s = s.splitOnP p := by
  induction s with
  | nil => simp [pieces]
  | cons c s ih =>
      rw [List.splitOnP_cons_eq_if_modifyHead, ← ih, pieces]
      split
      · rfl
      · cases hpieces : pieces p s with
        | nil => simp [ih, List.splitOnP_ne_nil] at hpieces
        | cons piece rest => rfl

theorem pieces_eq_singleton (hs : ∀ d ∈ s, p d = false) : pieces p s = [s] := by
  rw [pieces_eq_splitOnP, List.splitOnP_eq_singleton hs]

theorem pieces_append (hc : p c = true) (s t : List Char) :
    pieces p (s ++ c :: t) = pieces p s ++ pieces p t := by
  rw [pieces_eq_splitOnP, pieces_eq_splitOnP, pieces_eq_splitOnP,
    List.splitOnP_append_cons s t hc]

theorem pieces_append_cons (hs : ∀ d ∈ s, p d = false) (hc : p c = true) (t : List Char) :
    pieces p (s ++ c :: t) = s :: pieces p t := by
  rw [pieces_eq_splitOnP, pieces_eq_splitOnP, List.splitOnP_append_cons_of_forall_mem hs c hc]

theorem pieces_ne_nil (p : Char → Bool) (s : List Char) : pieces p s ≠ [] := by
  rw [pieces_eq_splitOnP]
  exact List.splitOnP_ne_nil p s

theorem eq_false_of_mem_pieces {piece : List Char} (h : piece ∈ pieces p s) :
    ∀ d ∈ piece, p d = false := by
  induction s generalizing piece with
  | nil =>
      obtain rfl := List.mem_singleton.mp h
      exact fun d hd => absurd hd List.not_mem_nil
  | cons c s ih =>
      unfold pieces at h
      split at h
      · rcases List.mem_cons.mp h with rfl | h
        · exact fun d hd => absurd hd List.not_mem_nil
        · exact ih h
      · next hc =>
          split at h
          · next hnil => exact absurd hnil (pieces_ne_nil p s)
          · next first rest hpieces =>
              rw [hpieces, List.forall_mem_cons] at ih
              rcases List.mem_cons.mp h with rfl | h
              · exact List.forall_mem_cons.mpr ⟨eq_false_of_ne_true hc, ih.1⟩
              · exact ih.2 piece h

/-- Lines with a line feed behind each are the lines of that text. -/
theorem lines_flatMap {rows : List (List Char)}
    (h : ∀ row ∈ rows, '\n' ∉ row ∧ row.getLast? ≠ some '\r') :
    lines (rows.flatMap (· ++ ['\n'])) = rows := by
  induction rows with
  | nil => rfl
  | cons row rows ih =>
      obtain ⟨⟨hfeed, hreturn⟩, hrows⟩ := List.forall_mem_cons.mp h
      have hpiece : ∀ d ∈ row, (d == '\n') = false := by
        intro d hd
        exact beq_false_of_ne fun heq => hfeed (heq ▸ hd)
      have hrest := ih hrows
      rw [lines] at hrest
      rw [List.flatMap_cons, List.append_assoc, List.singleton_append, lines,
        pieces_append_cons hpiece rfl]
      obtain ⟨piece, rest, hpieces⟩ := List.exists_cons_of_ne_nil (pieces_ne_nil (· == '\n')
        (rows.flatMap (· ++ ['\n'])))
      rw [hpieces] at hrest ⊢
      rw [linesOfPieces, dropReturn, if_neg hreturn, hrest]
      exact List.cons_ne_nil _ _

theorem intercalate_pieces (c : Char) (s : List Char) :
    [c].intercalate (pieces (· == c) s) = s := by
  rw [pieces_eq_splitOnP]
  exact List.intercalate_splitOn c

end Text

theorem trimmed_ofList_trim (s : List Char) :
    trimmed (String.ofList (Text.trim s)) = String.ofList (Text.trim s) := by
  rw [trimmed, String.toList_ofList, Text.trim_trim]

end Stencil
