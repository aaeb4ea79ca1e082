import Stencil.Header.Parser
import Stencil.Proofs.Header.Grammar
import Stencil.Proofs.Header.Lexer

/-!
# Where reading a header fails

A header that cannot be read fails at the first token with which its tokens no longer
begin any header, or at its end if they begin one throughout. At a token the failure lies
within the text. At the end its span runs from the length of the text to the end of the
last token: backwards, when blanks stand in between. `BreaksOff` is that case.
-/

namespace Stencil

namespace Header

variable {past read : List Token} {lexemes : List Lexeme} {text : List Char}

theorem stuckAt_eq_none (hpast : Begins past) (h : stuckAt past lexemes = (read, none)) :
    read = past ++ lexemes.map (·.token) ∧ Begins read := by
  induction lexemes generalizing past with
  | nil =>
      cases h
      exact ⟨by simp, hpast⟩
  | cons lexeme lexemes ih =>
      unfold stuckAt at h
      split at h
      · cases h
      · next hrests =>
          have hnext : Begins (past ++ [lexeme.token]) := by
            rw [begins_iff_rests_ne_nil]
            simpa using hrests
          simpa using ih hnext h

/-- What is reported is the first token that the tokens before it cannot go on with. -/
theorem stuckAt_eq_some {lexeme : Lexeme} (hpast : Begins past)
    (h : stuckAt past lexemes = (read, some lexeme)) :
    ∃ before after, lexemes = before ++ lexeme :: after ∧
      read = past ++ before.map (·.token) ∧ Begins read ∧ ¬ Begins (read ++ [lexeme.token]) := by
  induction lexemes generalizing past with
  | nil => cases h
  | cons first lexemes ih =>
      unfold stuckAt at h
      split at h
      · next hrests =>
          cases h
          refine ⟨[], lexemes, rfl, by simp, hpast, ?_⟩
          rw [begins_iff_rests_ne_nil]
          simpa using hrests
      · next hrests =>
          have hnext : Begins (past ++ [first.token]) := by
            rw [begins_iff_rests_ne_nil]
            simpa using hrests
          obtain ⟨before, after, rfl, rfl, hbegins, hstuck⟩ := ih hnext h
          exact ⟨first :: before, after, rfl, by simp, hbegins, hstuck⟩

theorem failure_of_begins (h : Begins (lexemes.map (·.token))) (size : Nat) :
    failure size lexemes =
      ⟨none, endSpan size lexemes, expectations (Form.rests (lexemes.map (·.token)))⟩ := by
  unfold failure
  split
  · next past lexeme hstuck =>
      obtain ⟨before, after, rfl, rfl, -, hnot⟩ := stuckAt_eq_some begins_nil hstuck
      have hinit : [] ++ before.map (·.token) ++ [lexeme.token] ++ after.map (·.token) =
          (before ++ lexeme :: after).map (·.token) := by simp
      exact absurd (Begins.of_append (hinit ▸ h)) hnot
  · next past hstuck =>
      obtain ⟨rfl, -⟩ := stuckAt_eq_none begins_nil hstuck
      rfl

theorem failure_of_not_begins (h : ¬ Begins (lexemes.map (·.token))) (size : Nat) :
    ∃ before lexeme after, lexemes = before ++ lexeme :: after ∧
      Begins (before.map (·.token)) ∧ ¬ Begins (before.map (·.token) ++ [lexeme.token]) ∧
      failure size lexemes =
        ⟨some lexeme.token, lexeme.span, expectations (Form.rests (before.map (·.token)))⟩ := by
  unfold failure
  split
  · next past lexeme hstuck =>
      obtain ⟨before, after, rfl, rfl, hbegins, hnot⟩ := stuckAt_eq_some begins_nil hstuck
      exact ⟨before, lexeme, after, rfl, hbegins, hnot, rfl⟩
  · next past hstuck =>
      obtain ⟨rfl, hbegins⟩ := stuckAt_eq_none begins_nil hstuck
      exact absurd hbegins h

theorem exists_getLast?_lex {c : Char} (hlast : text.getLast? = some c) (hc : isGap c = false) :
    ∃ l, (lex text).getLast? = some l ∧ l.span.stop = Text.size text := by
  simpa [lex] using getLast?_lexFrom hlast hc 0

theorem endSpan_stop (text : List Char) :
    (endSpan (Text.size text) (lex text)).stop ≤ Text.size text ∧
      ((endSpan (Text.size text) (lex text)).stop < Text.size text ↔
        lex text ≠ [] ∧ ∃ c, text.getLast? = some c ∧ isGap c = true) := by
  cases hlast : text.getLast? with
  | none =>
      obtain rfl := List.getLast?_eq_none_iff.mp hlast
      simp [lex, endSpan]
  | some c =>
      cases hc : isGap c with
      | false =>
          obtain ⟨l, hl, hstop⟩ := exists_getLast?_lex hlast hc
          simp [endSpan, hl, hstop, hc]
      | true =>
          obtain ⟨front, rfl⟩ := List.getLast?_eq_some_iff.mp hlast
          have hlex : lex (front ++ [c]) = lex front := lexFrom_append_gap hc 0 front
          rw [hlex, endSpan]
          cases hl : (lex front).getLast? with
          | none => simp [List.getLast?_eq_none_iff.mp hl]
          | some l =>
              have hmem := List.mem_of_getLast? hl
              obtain ⟨-, -, hle⟩ := span_of_mem_lexFrom hmem
              have hpos := c.utf8Size_pos
              simp [hc, List.ne_nil_of_mem hmem]
              omega

/-- The text of a header that begins like a header and ends, in blanks, before it is one. -/
structure BreaksOff (text : List Char) : Prop where
  written : lex text ≠ []
  begins : Begins (tokens text)
  unfinished : ∀ header, ¬ Spells (tokens text) header
  gap : ∃ c, text.getLast? = some c ∧ isGap c = true

theorem parse_eq_ok {header : Header} :
    parse text = .ok header ↔ Spells (tokens text) header := by
  rw [← ofTokens?_eq_some_iff, parse, ← tokens]
  cases hfound : ofTokens? (tokens text) <;> simp

instance (text : List Char) : Decidable (BreaksOff text) :=
  decidable_of_iff
    (lex text ≠ [] ∧ Begins (tokens text) ∧
      ofTokens? (tokens text) = none ∧ text.getLast?.any isGap = true) <| by
    simp only [Option.eq_none_iff_forall_ne_some, ne_eq, ofTokens?_eq_some_iff, Option.any_eq_true]
    exact ⟨fun ⟨hwritten, hbegins, hunfinished, hgap⟩ => ⟨hwritten, hbegins, hunfinished, hgap⟩,
      fun ⟨hwritten, hbegins, hunfinished, hgap⟩ => ⟨hwritten, hbegins, hunfinished, hgap⟩⟩

theorem failure_of_parse_eq_error {f : Failure} (h : parse text = .error f) :
    failure (Text.size text) (lex text) = f := by
  rw [parse] at h
  split at h
  · cases h
  · exact Except.error.inj h

/-- A failure lies within the text, in bytes. Its span runs backwards just when the text
breaks off. -/
theorem span_of_parse_eq_error {f : Failure} (h : parse text = .error f) :
    f.span.start ≤ Text.size text ∧ f.span.stop ≤ Text.size text ∧
      (f.span.stop < f.span.start ↔ BreaksOff text) := by
  have hunfinished : ∀ header, ¬ Spells (tokens text) header := by
    intro header hspells
    rw [parse_eq_ok.mpr hspells] at h
    cases h
  have hf := failure_of_parse_eq_error h
  by_cases hbegins : Begins (tokens text)
  · obtain ⟨hle, hlt⟩ := endSpan_stop text
    rw [failure_of_begins hbegins] at hf
    subst hf
    refine ⟨Nat.le_refl _, hle, hlt.trans ⟨?_, ?_⟩⟩
    · rintro ⟨hwritten, hgap⟩
      exact ⟨hwritten, hbegins, hunfinished, hgap⟩
    · intro hbreaks
      exact ⟨hbreaks.written, hbreaks.gap⟩
  · obtain ⟨before, lexeme, after, hlex, -, -, hfailure⟩ :=
      failure_of_not_begins hbegins (Text.size text)
    have hmem : lexeme ∈ lexFrom 0 text := by
      rw [← lex, hlex]
      exact List.mem_append_right _ List.mem_cons_self
    obtain ⟨-, hlt, hle⟩ := span_of_mem_lexFrom hmem
    have hspan : f.span = lexeme.span := by rw [← hf, hfailure]
    rw [hspan]
    refine ⟨by omega, by omega, iff_of_false (by omega) ?_⟩
    intro hbreaks
    exact hbegins hbreaks.begins

end Header

end Stencil
