import Mathlib.Data.List.Forall2
import Stencil.Proofs.Text.Blank
import Stencil.Snippet.Clause
import Stencil.Text.Span

/-!
# Laws of clauses

The clauses of a section are what is left by trimming of its pieces between semicolons, and the
span of each is where that stands (`forall₂_clauses`). Between two clauses there is a semicolon
(`pairwise_clausesFrom`).
-/

namespace Stencil

namespace Snippet

variable {pos : Nat} {text piece : List Char} {clause : Clause}

theorem exists_intercalate_cons (piece : List Char) (pieces : List (List Char)) :
    ∃ rest, [';'].intercalate (piece :: pieces) = piece ++ rest := by
  cases pieces with
  | nil => exact ⟨[], by simp⟩
  | cons next pieces => exact ⟨_, by rw [List.intercalate_cons_cons, List.append_assoc]⟩

/-- The pieces of a section between semicolons that are not blank. -/
def writtenPieces (text : List Char) : List (List Char) :=
  (text.splitOn ';').filter fun piece => !Text.allBlank piece

/-- The text of the clause in a piece: trimmed, and without line breaks. -/
def clauseText (piece : List Char) : List Char := joinLines (Text.trim piece)

theorem allBlank_eq_isEmpty_trim : Text.allBlank piece = (Text.trim piece).isEmpty := by
  rw [Bool.eq_iff_iff, List.isEmpty_iff, Text.trim_eq_nil_iff, Text.allBlank, List.all_eq_true]

theorem writtenPieces_eq (text : List Char) :
    writtenPieces text =
      (Text.pieces (· == ';') text).filter fun piece => !(Text.trim piece).isEmpty := by
  simp only [writtenPieces, ← allBlank_eq_isEmpty_trim, Text.pieces_eq_splitOnP]
  rfl

/-- The clause is that of the piece, and its span is where the trimmed piece stands in a text
that starts at byte `pos`. -/
structure ClauseOf (pos : Nat) (text piece : List Char) (clause : Clause) : Prop where
  text_eq : clause.text = clauseText piece
  trim_ne_nil : Text.trim piece ≠ []
  place : ∃ before after, text = before ++ Text.trim piece ++ after ∧
    clause.span = .ofText (pos + Text.size before) (Text.trim piece)

theorem ClauseOf.behind (lead : List Char)
    (h : ClauseOf (pos + Text.size lead) text piece clause) :
    ClauseOf pos (lead ++ text) piece clause where
  text_eq := h.text_eq
  trim_ne_nil := h.trim_ne_nil
  place := by
    obtain ⟨before, after, hsplit, hspan⟩ := h.place
    refine ⟨lead ++ before, after, by rw [hsplit]; simp only [List.append_assoc], ?_⟩
    rw [hspan, Text.size_append, Nat.add_assoc]

theorem clauseOf_mk (pos : Nat) (rest : List Char) (hne : Text.trim piece ≠ []) :
    ClauseOf pos (piece ++ rest) piece
      ⟨clauseText piece,
        .ofText (pos + Text.size (piece.takeWhile Text.isBlank)) (Text.trim piece)⟩ where
  text_eq := rfl
  trim_ne_nil := hne
  place := by
    obtain ⟨trail, htrail⟩ := Text.exists_trim piece
    refine ⟨piece.takeWhile Text.isBlank, trail ++ rest, ?_, rfl⟩
    rw [← List.append_assoc, ← htrail]

theorem forall₂_clausesFrom (pos : Nat) (pieces : List (List Char)) :
    List.Forall₂ (ClauseOf pos ([';'].intercalate pieces))
      (pieces.filter fun piece => !(Text.trim piece).isEmpty) (clausesFrom pos pieces) := by
  induction pieces generalizing pos with
  | nil => exact .nil
  | cons piece pieces ih =>
      have hlater : List.Forall₂ (ClauseOf pos ([';'].intercalate (piece :: pieces)))
          (pieces.filter fun piece => !(Text.trim piece).isEmpty)
          (clausesFrom (pos + Text.size piece + Text.size [';']) pieces) := by
        cases pieces with
        | nil => exact .nil
        | cons next pieces =>
            rw [List.intercalate_cons_cons, Nat.add_assoc, ← Text.size_append]
            exact (ih _).imp fun _ _ h => h.behind (piece ++ [';'])
      obtain ⟨rest, hrest⟩ := exists_intercalate_cons piece pieces
      unfold clausesFrom
      by_cases hblank : (Text.trim piece).isEmpty = true
      · rw [List.filter_cons_of_neg (by simp [hblank]), if_pos hblank]
        exact hlater
      · rw [List.filter_cons_of_pos (by simp [hblank]), if_neg hblank]
        refine .cons ?_ hlater
        rw [hrest]
        exact clauseOf_mk pos rest (by simpa using hblank)

/-- The clauses of a section are those of its pieces that are not blank, one for one. -/
theorem forall₂_clauses (pos : Nat) (text : List Char) :
    List.Forall₂ (ClauseOf pos text) (writtenPieces text) (clauses pos text) := by
  have hclauses := forall₂_clausesFrom pos (Text.pieces (· == ';') text)
  rwa [Text.intercalate_pieces, ← writtenPieces_eq] at hclauses

theorem exists_of_mem_of_forall₂ {α β : Type} {R : α → β → Prop} {as : List α} {bs : List β}
    {b : β} (h : List.Forall₂ R as bs) (hb : b ∈ bs) : ∃ a ∈ as, R a b := by
  induction h with
  | nil => exact absurd hb List.not_mem_nil
  | cons hfirst _ ih =>
      rcases List.mem_cons.mp hb with rfl | hb
      · exact ⟨_, List.mem_cons_self, hfirst⟩
      · obtain ⟨a, ha, hrest⟩ := ih hb
        exact ⟨a, List.mem_cons_of_mem _ ha, hrest⟩

/-- A clause stands in its section at its span. -/
theorem exists_of_mem_clauses (h : clause ∈ clauses pos text) :
    ∃ piece ∈ writtenPieces text, ClauseOf pos text piece clause :=
  exists_of_mem_of_forall₂ (forall₂_clauses pos text) h

theorem ClauseOf.inside (h : ClauseOf pos text piece clause) :
    pos ≤ clause.span.start ∧ clause.span.start < clause.span.stop ∧
      clause.span.stop ≤ pos + Text.size text := by
  obtain ⟨before, after, rfl, hspan⟩ := h.place
  have hpos := Text.size_pos h.trim_ne_nil
  rw [hspan, Text.size_append, Text.size_append]
  simp only [Span.ofText]
  omega

theorem span_of_mem_clauses (h : clause ∈ clauses pos text) :
    pos ≤ clause.span.start ∧ clause.span.start < clause.span.stop ∧
      clause.span.stop ≤ pos + Text.size text := by
  obtain ⟨piece, -, hclause⟩ := exists_of_mem_clauses h
  exact hclause.inside

theorem size_margin_add_size_trim_le (piece : List Char) :
    Text.size (piece.takeWhile Text.isBlank) + Text.size (Text.trim piece) ≤ Text.size piece := by
  obtain ⟨trail, htrail⟩ := Text.exists_trim piece
  have hsize := congrArg Text.size htrail
  rw [Text.size_append, Text.size_append] at hsize
  omega

theorem pairwise_clausesFrom (pos : Nat) (pieces : List (List Char)) :
    (clausesFrom pos pieces).Pairwise fun a b => a.span.stop < b.span.start := by
  induction pieces generalizing pos with
  | nil => exact .nil
  | cons piece pieces ih =>
      unfold clausesFrom
      simp only
      split
      · exact ih _
      · refine .cons (fun clause hmem => ?_) (ih _)
        have hle := size_margin_add_size_trim_le piece
        obtain ⟨_, -, hclause⟩ := exists_of_mem_of_forall₂ (forall₂_clausesFrom _ _) hmem
        have hstart := hclause.inside.1
        have hsemicolon : 0 < Text.size [';'] := Text.size_pos (List.cons_ne_nil _ _)
        simp only [Span.ofText]
        omega

/-! ### The texts of clauses -/

theorem map_text_clausesFrom (pos : Nat) (pieces : List (List Char)) :
    (clausesFrom pos pieces).map (·.text) =
      ((pieces.map Text.trim).filter (!·.isEmpty)).map joinLines := by
  induction pieces generalizing pos with
  | nil => rfl
  | cons piece pieces ih =>
      unfold clausesFrom
      by_cases hblank : (Text.trim piece).isEmpty = true <;> simp [hblank, ih]

/-- A text that is read as one clause when a semicolon is put behind it. -/
structure IsClauseText (s : List Char) : Prop where
  ne_nil : s ≠ []
  trim : Text.trim s = s
  inline : ∀ c ∈ s, c ∉ [';', '\n', '\r']

theorem IsClauseText.joinLines {s : List Char} (h : IsClauseText s) : joinLines s = s := by
  rw [Snippet.joinLines, List.filter_eq_self]
  intro c hc
  have := h.inline c hc
  simp_all

theorem IsClauseText.isPiece {s : List Char} (h : IsClauseText s) :
    ∀ c ∈ s, (c == ';') = false := by
  intro c hc
  have := h.inline c hc
  simp_all

/-- Blanks in front of the first text and behind the last semicolon do not matter. -/
theorem trim_pieces_written {lead : List Char} {sources : List (List Char)}
    (hlead : ∀ c ∈ lead, c = ' ') (h : ∀ s ∈ sources, IsClauseText s) :
    ((Text.pieces (· == ';') (lead ++ (sources.flatMap (· ++ [';']) ++ [' ']))).map
      Text.trim).filter (!·.isEmpty) = sources := by
  have hpiece : ∀ c ∈ lead, (c == ';') = false := by
    intro c hc
    rw [hlead c hc]
    rfl
  have hblank : ∀ c ∈ lead, Text.isBlank c = true := by
    intro c hc
    rw [hlead c hc]
    rfl
  induction sources generalizing lead with
  | nil =>
      have htail : ∀ c ∈ lead ++ [' '], (c == ';') = false := by
        rw [List.forall_mem_append]
        exact ⟨hpiece, by simp⟩
      rw [List.flatMap_nil, List.nil_append, Text.pieces_eq_singleton htail, List.map_singleton,
        Text.trim_append_of_isBlank hblank]
      rfl
  | cons s sources ih =>
      obtain ⟨hs, hsources⟩ := List.forall_mem_cons.mp h
      have hfirst : ∀ c ∈ lead ++ s, (c == ';') = false := by
        rw [List.forall_mem_append]
        exact ⟨hpiece, hs.isPiece⟩
      have hrest := @ih [] (by simp) hsources (by simp) (by simp)
      have hsplit : lead ++ ((s :: sources).flatMap (· ++ [';']) ++ [' ']) =
          (lead ++ s) ++ ';' :: ([] ++ (sources.flatMap (· ++ [';']) ++ [' '])) := by simp
      rw [hsplit, Text.pieces_append_cons hfirst rfl, List.map_cons,
        Text.trim_append_of_isBlank hblank, hs.trim, List.filter_cons_of_pos, hrest]
      simpa using hs.ne_nil

/-- Clauses are read as they are written, one behind the other with semicolons. -/
theorem map_text_clauses_written {sources : List (List Char)}
    (h : ∀ s ∈ sources, IsClauseText s) (pos : Nat) :
    (clauses pos (' ' :: (sources.flatMap (· ++ [';']) ++ [' ']))).map (·.text) = sources := by
  have htrim := @trim_pieces_written [' '] sources (by simp) h
  rw [List.singleton_append] at htrim
  calc
    _ = sources.map joinLines := by rw [clauses, map_text_clausesFrom, htrim]
    _ = sources.map id := List.map_congr_left fun s hs => (h s hs).joinLines
    _ = sources := List.map_id sources

end Snippet

end Stencil
