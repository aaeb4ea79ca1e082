import Stencil.Proofs.Header.Munch
import Stencil.Proofs.Snippet.Error
import Stencil.Proofs.Snippet.Split

/-!
# The text at which an error stands

A span that runs forward is that of a text of the block, so it never divides a character. A token
stands in its header where it was read (`Munches.standsIn`), a clause in its section, and what is
missing at an end: that of the header, or of the block (`Snippet.standsIn_of_parse_eq_error`).
-/

namespace Stencil

/-- The span is that of a text in `s`, which starts at byte `pos`. -/
def Span.StandsIn (span : Span) (pos : Nat) (s : List Char) : Prop :=
  ∃ before text after, s = before ++ text ++ after ∧ span = .ofText (pos + Text.size before) text

namespace Span.StandsIn

variable {span : Span} {pos : Nat} {s : List Char}

theorem head (pos : Nat) (s t : List Char) : (ofText pos s).StandsIn pos (s ++ t) :=
  ⟨[], s, t, rfl, rfl⟩

theorem last (pos : Nat) (s : List Char) :
    (⟨pos + Text.size s, pos + Text.size s⟩ : Span).StandsIn pos s :=
  ⟨s, [], [], by simp, rfl⟩

theorem behind (lead : List Char) (h : span.StandsIn (pos + Text.size lead) s) :
    span.StandsIn pos (lead ++ s) := by
  obtain ⟨before, text, after, rfl, rfl⟩ := h
  refine ⟨lead ++ before, text, after, by simp only [List.append_assoc], ?_⟩
  rw [Text.size_append, Nat.add_assoc]

theorem append (h : span.StandsIn pos s) (t : List Char) : span.StandsIn pos (s ++ t) := by
  obtain ⟨before, text, after, rfl, rfl⟩ := h
  exact ⟨before, text, after ++ t, by simp only [List.append_assoc], rfl⟩

end Span.StandsIn

namespace Header

variable {pos : Nat} {s : List Char} {found : List Lexeme} {l : Lexeme}

/-- A token stands where it was read. -/
theorem Munches.standsIn (h : Munches pos s found) (hl : l ∈ found) : l.span.StandsIn pos s := by
  induction h with
  | nil => cases hl
  | @skip pos rule run rest found _ _ _ ih => exact (ih hl).behind run
  | @token pos rule run rest token found _ _ _ ih =>
      rcases List.mem_cons.mp hl with rfl | hl
      · exact .head pos run rest
      · exact (ih hl).behind run
  | @stray pos c rest found _ _ ih =>
      rcases List.mem_cons.mp hl with rfl | hl
      · exact .head pos [c] rest
      · exact (ih hl).behind [c]

/-- A failure whose span runs forward is at a token, or at the end of the header. -/
theorem standsIn_of_parse_eq_error {f : Failure} (h : parse s = .error f)
    (hle : f.span.start ≤ f.span.stop) : f.span.StandsIn 0 s := by
  have hf := failure_of_parse_eq_error h
  by_cases hbegins : Begins ((lex s).map (·.token))
  · rw [failure_of_begins hbegins] at hf
    subst hf
    have hstop : (endSpan (Text.size s) (lex s)).stop = Text.size s :=
      Nat.le_antisymm (endSpan_stop s).1 hle
    have hspan : endSpan (Text.size s) (lex s) = ⟨0 + Text.size s, 0 + Text.size s⟩ := by
      rw [Nat.zero_add]
      exact congrArg (Span.mk (Text.size s)) hstop
    change (endSpan (Text.size s) (lex s)).StandsIn 0 s
    rw [hspan]
    exact .last 0 s
  · obtain ⟨before, lexeme, after, hlex, -, -, hfailure⟩ :=
      failure_of_not_begins hbegins (Text.size s)
    have hmem : lexeme ∈ lexFrom 0 s := by
      rw [← lex, hlex]
      exact List.mem_append_right _ List.mem_cons_self
    rw [← hf, hfailure]
    exact (munches_lexFrom 0 s).standsIn hmem

end Header

namespace Snippet

/-- A clause stands in its section. -/
theorem standsIn_of_mem_clauses {pos : Nat} {text : List Char} {clause : Clause}
    (h : clause ∈ clauses pos text) : clause.span.StandsIn pos text := by
  obtain ⟨piece, -, hclause⟩ := exists_of_mem_clauses h
  obtain ⟨before, after, hsplit, hspan⟩ := hclause.place
  exact ⟨before, _, after, hsplit, hspan⟩

/-- An error whose span runs forward stands at a text of its block. -/
theorem standsIn_of_parse_eq_error {block : String} {found : List Error} {e : Error}
    (h : parse block = .error found) (he : e ∈ found) (hle : e.span.start ≤ e.span.stop) :
    e.span.StandsIn 0 block.toList := by
  rcases parse_eq_error h with ⟨marker, -, rfl⟩ | ⟨s, hs, hfound⟩
  · obtain rfl := List.mem_singleton.mp he
    have hend := Span.StandsIn.last 0 block.toList
    rwa [Nat.zero_add] at hend
  · have hsplit := Sections.isSplitOf_of_ofBlock hs
    have hsection {lead text : List Char} {pos : Nat} {span : Span}
        (hblock : ∃ trail, block.toList = lead ++ text ++ trail) (hpos : pos = Text.size lead)
        (hspan : span.StandsIn pos text) : span.StandsIn 0 block.toList := by
      obtain ⟨trail, hblock⟩ := hblock
      rw [hpos, ← Nat.zero_add (Text.size lead)] at hspan
      rw [hblock]
      exact (hspan.behind lead).append trail
    rcases mem_ofSections hfound he with hheader | ⟨-, clause, hspan, hmem | hmem⟩
    · obtain ⟨failure, hfailure, rfl⟩ := mapError_eq_error.mp hheader
      exact hsection (Sections.eq_around_header hsplit) rfl
        (Header.standsIn_of_parse_eq_error hfailure hle)
    · rw [hspan]
      exact hsection (Sections.eq_around_attributes hsplit) s.attributesStart_eq
        (standsIn_of_mem_clauses hmem)
    · rw [hspan]
      exact hsection (Sections.eq_around_patterns hsplit) s.patternsStart_eq
        (standsIn_of_mem_clauses hmem)

end Snippet

end Stencil
