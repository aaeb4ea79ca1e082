import Mathlib.Data.List.TakeWhile
import Stencil.Header.Lexer
import Stencil.Proofs.Header.Token

/-!
# Laws of the header lexer

One equation for each way in which the lexer goes on: a gap, a colon, a mark, a run
(`lexFrom_run`). A blank at the end gives no token (`lexFrom_append_gap`), and when there is
none the last token reaches to the end of the text (`getLast?_lexFrom`).
-/

namespace Stencil

namespace Header

variable {pos : Nat} {c : Char} {cs s run rest : List Char} {l : Lexeme}

@[simp] theorem lexFrom_nil (pos : Nat) : lexFrom pos [] = [] := by rw [lexFrom]

theorem lexFrom_gap (hc : isGap c = true) (pos : Nat) (cs : List Char) :
    lexFrom pos (c :: cs) = lexFrom (pos + c.utf8Size) cs := by
  rw [lexFrom, if_pos hc]

theorem lexFrom_bang (pos : Nat) (cs : List Char) :
    lexFrom pos ('!' :: cs) =
      ⟨.bang, .ofText pos ['!']⟩ :: lexFrom (pos + Text.size ['!']) cs := by
  rw [lexFrom, if_neg (by decide), if_neg (by decide), if_pos rfl]
  rfl

theorem lexFrom_colon (pos : Nat) (cs : List Char) :
    lexFrom pos (':' :: cs) =
      ⟨.invalid ":", .ofText pos [':']⟩ :: lexFrom (pos + Text.size [':']) cs := by
  rw [lexFrom, if_neg (by decide), if_pos rfl]
  rfl

/-- A text that makes up one token, neither a colon nor a mark. -/
structure IsRun (run : List Char) : Prop where
  ne_nil : run ≠ []
  isRunChar : ∀ c ∈ run, isRunChar c = true
  head : run.head? ≠ some '!'

instance (run : List Char) : Decidable (IsRun run) :=
  decidable_of_iff
    (run ≠ [] ∧ run.all isRunChar = true ∧ run.head? ≠ some '!') <| by
    rw [List.all_eq_true]
    exact ⟨fun ⟨hne, hchars, hhead⟩ => ⟨hne, hchars, hhead⟩,
      fun ⟨hne, hchars, hhead⟩ => ⟨hne, hchars, hhead⟩⟩

theorem lexFrom_run (hrun : IsRun run) (hrest : ∀ c ∈ rest.head?, isRunChar c = false)
    (pos : Nat) :
    lexFrom pos (run ++ rest) =
      ⟨.ofRun run, .ofText pos run⟩ :: lexFrom (pos + Text.size run) rest := by
  obtain ⟨hne, hchars, hhead⟩ := hrun
  cases run with
  | nil => exact absurd rfl hne
  | cons c cs =>
      obtain ⟨hc, hcs⟩ := List.forall_mem_cons.mp hchars
      have hgap : ¬ isGap c = true := by
        intro h
        simp [isRunChar, h] at hc
      have hcolon : c ≠ ':' := by
        rintro rfl
        exact absurd hc (by decide)
      have hbang : c ≠ '!' := by
        rintro rfl
        exact hhead rfl
      have htake : (cs ++ rest).takeWhile isRunChar = cs := by
        cases rest with
        | nil => simpa using hcs
        | cons d ds => rw [List.takeWhile_append_of_pos hcs]; simp [hrest d rfl]
      have hdrop : (cs ++ rest).dropWhile isRunChar = rest := by
        cases rest with
        | nil => simpa using hcs
        | cons d ds => rw [List.dropWhile_append_of_pos hcs]; simp [hrest d rfl]
      rw [List.cons_append, lexFrom, if_neg hgap, if_neg hcolon, if_neg hbang, htake, hdrop]

theorem isRun_cons_takeWhile (hgap : ¬ isGap c = true) (hcolon : c ≠ ':') (hbang : c ≠ '!')
    (cs : List Char) : IsRun (c :: cs.takeWhile isRunChar) where
  ne_nil := List.cons_ne_nil _ _
  isRunChar := by
    intro d hd
    rcases List.mem_cons.mp hd with rfl | hd
    · simp [isRunChar, hgap, hcolon]
    · exact List.mem_takeWhile_imp hd
  head := by
    intro h
    exact hbang (Option.some.inj h)

theorem IsNumeral.isRun {text : List Char} (h : IsNumeral text) : IsRun text := by
  obtain ⟨digits, hne, hdigits, htext⟩ := h
  have hnot : ∀ c ∈ [' ', '\t', '\n', '\r', ':', '!'], c.isDigit = false := by simp [Char.isDigit]
  have hchars : ∀ c ∈ digits, c ∉ [' ', '\t', '\n', '\r', ':', '!'] := by
    intro c hc hmem
    have := hnot c hmem
    rw [hdigits c hc] at this
    cases this
  have hrun : ∀ c ∈ digits, isRunChar c = true := by
    intro c hc
    have := hchars c hc
    simp_all [isRunChar, isGap]
  rcases htext with rfl | rfl
  · refine ⟨hne, hrun, ?_⟩
    intro hhead
    exact hchars '!' (List.mem_of_head? hhead) (by decide)
  · refine ⟨List.cons_ne_nil _ _, ?_, by simp⟩
    exact List.forall_mem_cons.mpr ⟨by decide, hrun⟩

/-- A token covers at least one byte of the text. -/
theorem span_of_mem_lexFrom (h : l ∈ lexFrom pos s) :
    pos ≤ l.span.start ∧ l.span.start < l.span.stop ∧ l.span.stop ≤ pos + Text.size s := by
  fun_induction lexFrom pos s with
  | case1 pos => exact absurd h List.not_mem_nil
  | case2 pos c cs hgap ih =>
      have := ih h
      rw [Text.size_cons]
      omega
  | case3 pos cs hgap ih =>
      have := Char.utf8Size_pos ':'
      rw [Text.size_cons]
      rcases List.mem_cons.mp h with rfl | h
      · simp [Span.ofText]
        omega
      · have := ih h
        omega
  | case4 pos cs hgap hcolon ih =>
      have := Char.utf8Size_pos '!'
      rw [Text.size_cons]
      rcases List.mem_cons.mp h with rfl | h
      · simp [Span.ofText]
        omega
      · have := ih h
        omega
  | case5 pos c cs hgap hcolon hbang run ih =>
      have hsize : Text.size run + Text.size (cs.dropWhile isRunChar) = Text.size (c :: cs) := by
        rw [Text.size_cons, Text.size_cons, Nat.add_assoc,
          Text.size_takeWhile_add_size_dropWhile]
      have hpos : 0 < Text.size run := Text.size_pos (List.cons_ne_nil _ _)
      rcases List.mem_cons.mp h with rfl | h
      · simp only [Span.ofText]
        omega
      · have := ih h
        omega

theorem lexFrom_append_gap (hc : isGap c = true) (pos : Nat) (s : List Char) :
    lexFrom pos (s ++ [c]) = lexFrom pos s := by
  fun_induction lexFrom pos s with
  | case1 pos => rw [List.nil_append, lexFrom_gap hc, lexFrom_nil]
  | case2 pos d cs hgap ih => rw [List.cons_append, lexFrom_gap hgap, ih]
  | case3 pos cs hgap ih => rw [List.cons_append, lexFrom_colon, ← ih]; rfl
  | case4 pos cs hgap hcolon ih => rw [List.cons_append, lexFrom_bang, ← ih]; rfl
  | case5 pos d cs hgap hcolon hbang run ih =>
      have hrest : ∀ e ∈ (cs.dropWhile isRunChar ++ [c]).head?, isRunChar e = false := by
        cases hdrop : cs.dropWhile isRunChar with
        | nil => simp [isRunChar, hc]
        | cons e es =>
            have := List.head?_dropWhile_not isRunChar cs
            simpa [hdrop] using this
      have hsplit : d :: cs ++ [c] = run ++ (cs.dropWhile isRunChar ++ [c]) := by
        simp [run, List.cons_append]
        rw [← List.append_assoc, List.takeWhile_append_dropWhile]
      rw [hsplit, lexFrom_run (isRun_cons_takeWhile hgap hcolon hbang cs) hrest, ih]

/-- One step of `getLast?_lexFrom`: a token that covers `front`, then those of `rest`. -/
theorem getLast?_cons_lexFrom (front : List Char) {token : Token}
    (hs : (front ++ rest).getLast? = some c)
    (ih : rest.getLast? = some c → ∃ l,
      (lexFrom (pos + Text.size front) rest).getLast? = some l ∧
        l.span.stop = pos + Text.size front + Text.size rest) :
    ∃ l, (⟨token, .ofText pos front⟩ :: lexFrom (pos + Text.size front) rest).getLast? = some l ∧
      l.span.stop = pos + Text.size (front ++ rest) := by
  cases rest with
  | nil => exact ⟨⟨token, .ofText pos front⟩, by simp, by simp [Span.ofText]⟩
  | cons d ds =>
      obtain ⟨l, hl, hstop⟩ := ih (by simpa using hs)
      refine ⟨l, ?_, ?_⟩
      · rw [List.getLast?_cons, hl, Option.getD_some]
      · rw [hstop, Text.size_append, Nat.add_assoc]

/-- When a text does not end with a gap, its last token ends where the text does. -/
theorem getLast?_lexFrom (hs : s.getLast? = some c) (hc : isGap c = false) (pos : Nat) :
    ∃ l, (lexFrom pos s).getLast? = some l ∧ l.span.stop = pos + Text.size s := by
  -- The induction is along the lexer. A gap cannot be the last character, by `hc`.
  fun_induction lexFrom pos s with
  | case1 pos => cases hs
  | case2 pos d cs hgap ih =>
      cases cs with
      | nil =>
          obtain rfl : d = c := Option.some.inj hs
          exact absurd hgap (by simp [hc])
      | cons e es =>
          obtain ⟨l, hl, hstop⟩ := ih (by simpa using hs)
          exact ⟨l, hl, by rw [hstop, Text.size_cons d, Nat.add_assoc]⟩
  | case3 pos cs hgap ih => exact getLast?_cons_lexFrom [':'] hs ih
  | case4 pos cs hgap hcolon ih => exact getLast?_cons_lexFrom ['!'] hs ih
  | case5 pos d cs hgap hcolon hbang run ih =>
      have hsplit : d :: cs = run ++ cs.dropWhile isRunChar := by
        rw [List.cons_append, List.takeWhile_append_dropWhile]
      rw [hsplit] at hs ⊢
      exact getLast?_cons_lexFrom run hs ih

/-! ### Tokens without their places -/

/-- The tokens of a text, without their places. -/
def tokens (text : List Char) : List Token := (lex text).map (·.token)

theorem map_token_lexFrom (pos : Nat) (s : List Char) :
    (lexFrom pos s).map (·.token) = tokens s := by
  suffices ∀ pos', (lexFrom pos s).map (·.token) = (lexFrom pos' s).map (·.token) from this 0
  fun_induction lexFrom pos s with
  | case1 pos => simp
  | case2 pos c cs hgap ih =>
      intro pos'
      rw [lexFrom_gap hgap]
      exact ih _
  | case3 pos cs hgap ih =>
      intro pos'
      rw [lexFrom_colon]
      exact congrArg (_ :: ·) (ih _)
  | case4 pos cs hgap hcolon ih =>
      intro pos'
      rw [lexFrom_bang]
      exact congrArg (_ :: ·) (ih _)
  | case5 pos c cs hgap hcolon hbang run ih =>
      intro pos'
      rw [lexFrom, if_neg hgap, if_neg hcolon, if_neg hbang]
      exact congrArg (_ :: ·) (ih _)

theorem tokens_nil : tokens [] = [] := by
  rw [tokens, lex, lexFrom_nil, List.map_nil]

theorem tokens_gap (hc : isGap c = true) (cs : List Char) : tokens (c :: cs) = tokens cs := by
  rw [tokens, lex, lexFrom_gap hc, map_token_lexFrom]

theorem tokens_bang (cs : List Char) : tokens ('!' :: cs) = .bang :: tokens cs := by
  rw [tokens, lex, lexFrom_bang, List.map_cons, map_token_lexFrom]

/-- A run with a gap behind it. -/
theorem tokens_run (hrun : IsRun run) (hc : isGap c = true) (rest : List Char) :
    tokens (run ++ c :: rest) = .ofRun run :: tokens rest := by
  have hend : ∀ d ∈ (c :: rest).head?, isRunChar d = false := by simp [isRunChar, hc]
  rw [tokens, lex, lexFrom_run hrun hend, List.map_cons, map_token_lexFrom, tokens_gap hc]

end Header

end Stencil
