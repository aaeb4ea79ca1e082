import Stencil.Proofs.Header.Munch
import Stencil.Proofs.Text.Word

/-!
# Maximal runs

Between gaps and colons a text is made of maximal runs. The lexer works on each of them alone: it
reads the text before a boundary, then what is behind it (`lexFrom_append`). A maximal run gives
one mark for each exclamation mark at its head and one token for all the rest, and what gives no
token is a gap.
-/

namespace Stencil

namespace Header

/-- The part `run` of the text `before ++ run ++ after` is made of characters that are neither
gaps nor colons, and goes on neither in front nor behind. -/
structure IsMaximalRun (before run after : List Char) : Prop where
  ne_nil : run ≠ []
  isRunChar : ∀ c ∈ run, isRunChar c = true
  front : ∀ c ∈ before.getLast?, Header.isRunChar c = false
  back : ∀ c ∈ after.head?, Header.isRunChar c = false

instance (before run after : List Char) : Decidable (IsMaximalRun before run after) :=
  decidable_of_iff
    (run ≠ [] ∧ run.all isRunChar = true ∧ before.getLast?.any isRunChar = false ∧
      after.head?.any isRunChar = false) <| by
    rw [List.all_eq_true, ← Text.forall_mem_eq_false_iff, ← Text.forall_mem_eq_false_iff]
    exact ⟨fun ⟨hne, hrun, hfront, hback⟩ => ⟨hne, hrun, hfront, hback⟩,
      fun ⟨hne, hrun, hfront, hback⟩ => ⟨hne, hrun, hfront, hback⟩⟩

/-- The lexemes of so many marks, the first of which is at byte `pos`. -/
def markLexemes (pos count : Nat) : List Lexeme :=
  (List.range' pos count).map fun start => ⟨.bang, ⟨start, start + 1⟩⟩

/-- The lexemes of a maximal run at byte `pos`: one for each exclamation mark at its head, and one
for all the rest, if there is a rest. -/
inductive RunReads (pos : Nat) : List Char → List Lexeme → Prop where
  | marks (count : Nat) : RunReads pos (List.replicate count '!') (markLexemes pos count)
  | word {count : Nat} {word : List Char} {token : Token} :
      word ≠ [] → word.head? ≠ some '!' → Spelling word token →
      RunReads pos (List.replicate count '!' ++ word)
        (markLexemes pos count ++ [⟨token, .ofText (pos + count) word⟩])

/-- The byte is in one of the lexemes. -/
def Covers (found : List Lexeme) (byte : Nat) : Prop :=
  ∃ l ∈ found, l.span.start ≤ byte ∧ byte < l.span.stop

variable {pos count : Nat} {c : Char} {s t run word front before after rest : List Char}

/-! ### A text in two parts -/

/-- The lexer reads a text in two parts, unless a run goes on from the one to the other. -/
theorem lexFrom_append
    (h : ∀ c ∈ s.getLast?, isRunChar c = true → ∀ d ∈ t.head?, isRunChar d = false)
    (pos : Nat) : lexFrom pos (s ++ t) = lexFrom pos s ++ lexFrom (pos + Text.size s) t := by
  have hcons : ∀ {c : Char} {cs : List Char},
      (∀ e ∈ (c :: cs).getLast?, isRunChar e = true → ∀ d ∈ t.head?, isRunChar d = false) →
      ∀ e ∈ cs.getLast?, isRunChar e = true → ∀ d ∈ t.head?, isRunChar d = false := by
    intro c cs h e he
    exact h e (by rw [List.getLast?_cons, he]; rfl)
  -- The induction is along the lexer on the first part.
  fun_induction lexFrom pos s with
  | case1 pos => rfl
  | case2 pos c cs hgap ih =>
      rw [List.cons_append, lexFrom_gap hgap, ih (hcons h), Text.size_cons, Nat.add_assoc]
  | case3 pos cs hgap ih =>
      rw [List.cons_append, lexFrom_colon, Text.size_cons ':' cs, ← Nat.add_assoc]
      exact congrArg (_ :: ·) (ih (hcons h))
  | case4 pos cs hgap hcolon ih =>
      rw [List.cons_append, lexFrom_bang, Text.size_cons '!' cs, ← Nat.add_assoc]
      exact congrArg (_ :: ·) (ih (hcons h))
  | case5 pos c cs hgap hcolon hbang run ih =>
      have hrun : IsRun run := isRun_cons_takeWhile hgap hcolon hbang cs
      have hsplit : c :: cs = run ++ cs.dropWhile isRunChar := by
        rw [List.cons_append, List.takeWhile_append_dropWhile]
      rw [hsplit] at h ⊢
      have hrest : ∀ d ∈ (cs.dropWhile isRunChar ++ t).head?, isRunChar d = false := by
        cases hdrop : cs.dropWhile isRunChar with
        | nil =>
            -- The first part ends with the run, so the second does not go on with it.
            rw [hdrop, List.append_nil] at h
            exact h _ (List.getLast?_eq_some_getLast hrun.ne_nil)
              (hrun.isRunChar _ (List.getLast_mem hrun.ne_nil))
        | cons e es =>
            rw [← hdrop, List.head?_append, Option.or_of_isSome (by simp [hdrop])]
            exact eq_false_of_mem_head?_dropWhile
      have hlast : ∀ e ∈ (cs.dropWhile isRunChar).getLast?, isRunChar e = true →
          ∀ d ∈ t.head?, isRunChar d = false := by
        intro e he
        exact h e (by rw [List.getLast?_append, he]; rfl)
      rw [List.append_assoc, lexFrom_run hrun hrest, ih hlast, Text.size_append, Nat.add_assoc]
      rfl

theorem lexFrom_marks (pos count : Nat) (s : List Char) :
    lexFrom pos (List.replicate count '!' ++ s) =
      markLexemes pos count ++ lexFrom (pos + count) s := by
  induction count generalizing pos with
  | zero => rfl
  | succ count ih =>
      rw [List.replicate_succ, List.cons_append, lexFrom_bang, markLexemes, List.range'_succ,
        List.map_cons, List.cons_append]
      have hsize : pos + Text.size ['!'] = pos + 1 := rfl
      rw [hsize, ih, Nat.add_assoc, Nat.add_comm 1]
      rfl

/-- Marks and what is behind them. -/
theorem exists_marks (run : List Char) :
    ∃ count word, run = List.replicate count '!' ++ word ∧ word.head? ≠ some '!' := by
  induction run with
  | nil => exact ⟨0, [], rfl, by simp⟩
  | cons c cs ih =>
      by_cases hc : c = '!'
      · obtain ⟨count, word, rfl, hword⟩ := ih
        exact ⟨count + 1, word, by rw [hc, List.replicate_succ, List.cons_append], hword⟩
      · exact ⟨0, c :: cs, rfl, by simpa using hc⟩

theorem size_marks (count : Nat) : Text.size (List.replicate count '!') = count := by
  induction count with
  | zero => rfl
  | succ count ih =>
      rw [List.replicate_succ, Text.size_cons, ih, Nat.add_comm]
      rfl

theorem exists_runReads (hrun : ∀ c ∈ run, isRunChar c = true)
    (hafter : ∀ c ∈ after.head?, isRunChar c = false) (pos : Nat) :
    ∃ found, RunReads pos run found ∧
      lexFrom pos (run ++ after) = found ++ lexFrom (pos + Text.size run) after := by
  obtain ⟨count, word, rfl, hhead⟩ := exists_marks run
  cases hword : word with
  | nil =>
      refine ⟨markLexemes pos count, ?_, ?_⟩
      · rw [List.append_nil]
        exact .marks count
      · rw [List.append_nil, lexFrom_marks, size_marks]
  | cons c cs =>
      rw [← hword]
      have hne : word ≠ [] := by simp [hword]
      have hisRun : IsRun word := ⟨hne, fun c hc => hrun c (List.mem_append_right _ hc), hhead⟩
      refine ⟨_, .word hne hhead (spelling_ofRun word), ?_⟩
      rw [List.append_assoc, lexFrom_marks, lexFrom_run hisRun hafter, Text.size_append, size_marks,
        ← Nat.add_assoc, List.append_assoc, List.singleton_append]

/-! ### What the tokens cover -/

theorem covers_cons {token : Token} {found : List Lexeme} {byte : Nat} :
    Covers (⟨token, .ofText pos front⟩ :: found) byte ↔
      (pos ≤ byte ∧ byte < pos + Text.size front) ∨ Covers found byte := by
  simp [Covers, Span.ofText]

/-- One step of `covers_lexFrom_iff`: a token that covers `front`, then those of `rest`. -/
theorem covers_cons_lexFrom_iff {token : Token} (front : List Char)
    (hfront : ∀ c ∈ front, isGap c = false)
    (ih : ∀ more, rest = more ++ c :: after →
      (Covers (lexFrom (pos + Text.size front) rest) (pos + Text.size front + Text.size more) ↔
        isGap c = false))
    (hs : front ++ rest = before ++ c :: after) :
    Covers (⟨token, .ofText pos front⟩ :: lexFrom (pos + Text.size front) rest)
      (pos + Text.size before) ↔ isGap c = false := by
  rw [covers_cons]
  rcases Text.append_eq_append_cons_cases hs with ⟨more, rfl, -⟩ | ⟨more, rfl, hrest⟩
  · refine iff_of_true (.inl ?_) (hfront c (by simp))
    have hsize := c.utf8Size_pos
    simp only [Text.size_append, Text.size_cons]
    omega
  · rw [Text.size_append, ← Nat.add_assoc, ih more hrest]
    refine or_iff_right ?_
    omega

/-- The characters that the tokens of a text cover are those that are no gaps. -/
theorem covers_lexFrom_iff (c : Char) (after : List Char) (pos : Nat) (s : List Char) :
    ∀ before, s = before ++ c :: after →
      (Covers (lexFrom pos s) (pos + Text.size before) ↔ isGap c = false) := by
  fun_induction lexFrom pos s with
  | case1 pos =>
      intro before hs
      simp at hs
  | case2 pos d cs hgap ih =>
      intro before hs
      cases before with
      | nil =>
          obtain ⟨rfl, rfl⟩ := List.cons_eq_cons.mp hs
          refine iff_of_false ?_ (by simp [hgap])
          rintro ⟨l, hl, hstart, -⟩
          have hle := (span_of_mem_lexFrom hl).1
          have hpos := d.utf8Size_pos
          rw [Text.size_nil] at hstart
          omega
      | cons e before =>
          obtain ⟨rfl, hcs⟩ := List.cons_eq_cons.mp hs
          rw [Text.size_cons, ← Nat.add_assoc]
          exact ih before hcs
  | case3 pos cs hgap ih =>
      intro before hs
      exact covers_cons_lexFrom_iff [':'] (List.forall_mem_singleton.mpr rfl) ih hs
  | case4 pos cs hgap hcolon ih =>
      intro before hs
      exact covers_cons_lexFrom_iff ['!'] (List.forall_mem_singleton.mpr rfl) ih hs
  | case5 pos d cs hgap hcolon hbang run ih =>
      intro before hs
      have hrun : IsRun run := isRun_cons_takeWhile hgap hcolon hbang cs
      have hsplit : d :: cs = run ++ cs.dropWhile isRunChar := by
        rw [List.cons_append, List.takeWhile_append_dropWhile]
      refine covers_cons_lexFrom_iff run ?_ ih (hsplit ▸ hs)
      intro e he
      have hchar := hrun.isRunChar e he
      simp only [isRunChar, Bool.and_eq_true, Bool.not_eq_true'] at hchar
      exact hchar.1

theorem pairwise_lexFrom (pos : Nat) (s : List Char) :
    (lexFrom pos s).Pairwise fun l l' => l.span.stop ≤ l'.span.start := by
  fun_induction lexFrom pos s with
  | case1 pos => exact .nil
  | case2 pos c cs hgap ih => exact ih
  | case3 pos cs hgap ih => exact .cons (fun l hl => (span_of_mem_lexFrom hl).1) ih
  | case4 pos cs hgap hcolon ih => exact .cons (fun l hl => (span_of_mem_lexFrom hl).1) ih
  | case5 pos c cs hgap hcolon hbang run ih =>
      exact .cons (fun l hl => (span_of_mem_lexFrom hl).1) ih

/-- The tokens of a text are those that the rules make. They cover nonempty parts of it, one behind
the other, and all that is no gap; a maximal run is read as its marks and one token for the rest,
and a colon as an invalid token, whatever is around them. -/
theorem lex_by_maximal_runs (text : List Char) :
    (∀ found, Munches 0 text found ↔ lex text = found) ∧
      (∀ l ∈ lex text, l.span.start < l.span.stop ∧ l.span.stop ≤ Text.size text) ∧
      (lex text).Pairwise (fun l l' => l.span.stop ≤ l'.span.start) ∧
      (∀ before c after, text = before ++ c :: after →
        (Covers (lex text) (Text.size before) ↔ isGap c = false)) ∧
      (∀ before run after, text = before ++ run ++ after → IsMaximalRun before run after →
        ∃ found, RunReads (Text.size before) run found ∧
          lex text = lex before ++ found ++ lexFrom (Text.size before + Text.size run) after) ∧
      ∀ before after, text = before ++ ':' :: after →
        lex text = lex before ++ ⟨.invalid ":", .ofText (Text.size before) [':']⟩ ::
          lexFrom (Text.size before + 1) after := by
  refine ⟨fun found => munches_iff, ?_, pairwise_lexFrom 0 text, ?_, ?_, ?_⟩
  · intro l hl
    obtain ⟨-, hspan, hstop⟩ := span_of_mem_lexFrom hl
    exact ⟨hspan, by rwa [Nat.zero_add] at hstop⟩
  · intro before c after htext
    have hcovers := covers_lexFrom_iff c after 0 text before htext
    rwa [Nat.zero_add] at hcovers
  · rintro before run after rfl hmax
    obtain ⟨found, hreads, hlex⟩ := exists_runReads hmax.isRunChar hmax.back (Text.size before)
    have hbefore : ∀ c ∈ before.getLast?, isRunChar c = true →
        ∀ d ∈ (run ++ after).head?, isRunChar d = false := by
      intro c hc hchar
      rw [hmax.front c hc] at hchar
      cases hchar
    refine ⟨found, hreads, ?_⟩
    rw [lex, List.append_assoc, lexFrom_append hbefore, Nat.zero_add, hlex, ← List.append_assoc]
    rfl
  · rintro before after rfl
    have hcolon : ∀ c ∈ before.getLast?, isRunChar c = true →
        ∀ d ∈ (':' :: after).head?, isRunChar d = false := by
      rintro - - - d hd
      obtain rfl := Option.some.inj hd
      decide
    rw [lex, lexFrom_append hcolon, Nat.zero_add, lexFrom_colon]
    rfl

/-- A maximal run with two marks at its head and a colon behind it. -/
theorem lex_by_maximal_runs_marked :
    IsMaximalRun "é\t".toList "!!-7".toList ":x!".toList ∧
      (∃ found, RunReads 3 "!!-7".toList found ∧
        lex "é\t!!-7:x!".toList = lex "é\t".toList ++ found ++ lexFrom 7 ":x!".toList) ∧
      lex "é\t!!-7:x!".toList =
        [⟨.word "é", ⟨0, 2⟩⟩, ⟨.bang, ⟨3, 4⟩⟩, ⟨.bang, ⟨4, 5⟩⟩, ⟨.integer (-7), ⟨5, 7⟩⟩,
          ⟨.invalid ":", ⟨7, 8⟩⟩, ⟨.word "x!", ⟨8, 10⟩⟩] := by
  have hmax : IsMaximalRun "é\t".toList "!!-7".toList ":x!".toList := by decide
  obtain ⟨-, -, -, -, hruns, -⟩ := lex_by_maximal_runs "é\t!!-7:x!".toList
  exact ⟨hmax, hruns _ _ _ rfl hmax, by decide +kernel⟩

end Header

end Stencil
