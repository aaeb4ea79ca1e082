import Stencil.Proofs.Header.Lexer

/-!
# The rules of header tokens

Five rules say what can stand at the head of a text. Of all their matches the longest one wins,
and of the rules that match the same text the one of highest priority. What has won is skipped or
becomes a token, and reading goes on behind it; a character at which nothing matches is an invalid
token of its own. `munches_iff` says that the lexer, which knows no rules and goes from run to
run, reads the tokens that the rules make, and that they make no others.
-/

namespace Stencil

namespace Header

/-- A number within 32 bits, if the text is spelled like one. -/
def int32? (text : List Char) : Option Int32 :=
  (integerValue? text).bind fun n =>
    if Int32.minValue.toInt ≤ n ∧ n ≤ Int32.maxValue.toInt then some (Int32.ofInt n) else none

/-- The rules by which a text is cut into tokens. -/
inductive Rule where
  | gap
  | mark
  | keyword
  | number
  | word
  deriving DecidableEq, Repr

namespace Rule

/-- The texts that a rule matches. -/
def Matches : Rule → List Char → Prop
  | gap, text => text ≠ [] ∧ ∀ c ∈ text, isGap c = true
  | mark, text => text = ['!']
  | keyword, text => text = "relation".toList
  | number, text => IsNumeral text
  | word, text => IsRun text

/-- The rule of higher priority has a text that two rules match. -/
def priority : Rule → Nat
  | gap => 2
  | mark => 2
  | keyword => 16
  | number => 3
  | word => 1

/-- The token that a rule makes of a text that it matches. Gaps make none, and a number out of
range makes an invalid one. -/
def token? : Rule → List Char → Option Token
  | gap, _ => none
  | mark, _ => some .bang
  | keyword, _ => some .relation
  | number, text => some (((int32? text).map .integer).getD (.invalid (String.ofList text)))
  | word, text => some (.word (String.ofList text))

/-- At the head of `run ++ rest` the rule wins with `run`. -/
structure Wins (rule : Rule) (run rest : List Char) : Prop where
  isMatch : rule.Matches run
  /-- No rule matches more. -/
  longest : ∀ (other : Rule) (longer : List Char),
    longer <+: run ++ rest → other.Matches longer → longer.length ≤ run.length
  /-- No rule of higher priority matches the same. -/
  first : ∀ other : Rule, other.Matches run → other.priority ≤ rule.priority

end Rule

/-- The rules cut the text, which starts at byte `pos`, into the lexemes. -/
inductive Munches : Nat → List Char → List Lexeme → Prop where
  | nil (pos : Nat) : Munches pos [] []
  | skip {pos : Nat} {rule : Rule} {run rest : List Char} {found : List Lexeme} :
      rule.Wins run rest → rule.token? run = none → Munches (pos + Text.size run) rest found →
      Munches pos (run ++ rest) found
  | token {pos : Nat} {rule : Rule} {run rest : List Char} {token : Token}
      {found : List Lexeme} :
      rule.Wins run rest → rule.token? run = some token →
      Munches (pos + Text.size run) rest found →
      Munches pos (run ++ rest) (⟨token, .ofText pos run⟩ :: found)
  /-- No rule matches anything here. -/
  | stray {pos : Nat} {c : Char} {rest : List Char} {found : List Lexeme} :
      (∀ (rule : Rule) (run : List Char), run <+: c :: rest → ¬ rule.Matches run) →
      Munches (pos + Text.size [c]) rest found →
      Munches pos (c :: rest) (⟨.invalid (String.ofList [c]), .ofText pos [c]⟩ :: found)

variable {pos : Nat} {c : Char} {s run rest longer : List Char} {rule : Rule}
  {found : List Lexeme}

/-! ### What the rules match -/

theorem isRun_singleton (hc : isRunChar c = true) (hbang : c ≠ '!') : IsRun [c] :=
  ⟨List.cons_ne_nil _ _, List.forall_mem_singleton.mpr hc, by simpa using hbang⟩

theorem isRunChar_eq_false_of_isGap (h : isGap c = true) : isRunChar c = false := by
  simp [isRunChar, h]

/-- What a rule matches is made of gaps, is a mark, or is a run. -/
theorem Rule.Matches.cases (h : rule.Matches run) :
    (rule = .gap ∧ run ≠ [] ∧ ∀ c ∈ run, isGap c = true) ∨ (rule = .mark ∧ run = ['!']) ∨
      IsRun run := by
  cases rule with
  | gap => exact .inl ⟨rfl, h⟩
  | mark => exact .inr (.inl ⟨rfl, h⟩)
  | keyword =>
      obtain rfl : run = "relation".toList := h
      exact .inr (.inr (by decide))
  | number => exact .inr (.inr (IsNumeral.isRun h))
  | word => exact .inr (.inr h)

theorem Rule.Matches.ne_nil (h : rule.Matches run) : run ≠ [] := by
  rcases h.cases with ⟨-, hne, -⟩ | ⟨-, rfl⟩ | hrun
  · exact hne
  · exact List.cons_ne_nil _ _
  · exact hrun.ne_nil

theorem Rule.Matches.eq_gap (h : rule.Matches (c :: s)) (hc : isGap c = true) :
    rule = .gap ∧ ∀ d ∈ c :: s, isGap d = true := by
  rcases h.cases with ⟨hrule, -, hall⟩ | ⟨-, hmark⟩ | hrun
  · exact ⟨hrule, hall⟩
  · obtain ⟨rfl, -⟩ := List.cons_eq_cons.mp hmark
    exact absurd hc (by decide)
  · have hchar := hrun.isRunChar c List.mem_cons_self
    rw [isRunChar_eq_false_of_isGap hc] at hchar
    cases hchar

theorem Rule.Matches.eq_mark (h : rule.Matches ('!' :: s)) : rule = .mark ∧ s = [] := by
  rcases h.cases with ⟨-, -, hall⟩ | ⟨hrule, hmark⟩ | hrun
  · exact absurd (hall '!' List.mem_cons_self) (by decide)
  · exact ⟨hrule, (List.cons_eq_cons.mp hmark).2⟩
  · exact absurd rfl hrun.head

theorem Rule.Matches.isRun (h : rule.Matches (c :: s)) (hc : isRunChar c = true)
    (hbang : c ≠ '!') : IsRun (c :: s) := by
  rcases h.cases with ⟨-, -, hall⟩ | ⟨-, hmark⟩ | hrun
  · rw [isRunChar_eq_false_of_isGap (hall c List.mem_cons_self)] at hc
    cases hc
  · exact absurd (List.cons_eq_cons.mp hmark).1 hbang
  · exact hrun

/-- The rules that match a run. -/
theorem Rule.Matches.cases_of_isRun (h : rule.Matches run) (hrun : IsRun run) :
    (rule = .keyword ∧ run = "relation".toList) ∨ (rule = .number ∧ IsNumeral run) ∨
      rule = .word := by
  cases rule with
  | gap =>
      obtain ⟨c, cs, rfl⟩ := List.exists_cons_of_ne_nil hrun.ne_nil
      have hc := hrun.isRunChar c List.mem_cons_self
      rw [isRunChar_eq_false_of_isGap (h.2 c List.mem_cons_self)] at hc
      cases hc
  | mark =>
      obtain rfl : run = ['!'] := h
      exact absurd rfl hrun.head
  | keyword => exact .inl ⟨rfl, h⟩
  | number => exact .inr (.inl ⟨rfl, h⟩)
  | word => exact .inr (.inr rfl)

/-- A prefix of which all characters satisfy `p` does not go on behind `run` if they do not. -/
theorem length_le_of_isPrefix {p : Char → Bool} (hrest : ∀ c ∈ rest.head?, p c = false)
    (hhead : longer <+: run ++ rest) (hall : ∀ c ∈ longer, p c = true) :
    longer.length ≤ run.length := by
  obtain ⟨tail, htail⟩ := hhead
  rcases List.append_eq_append_iff.mp htail with ⟨more, rfl, -⟩ | ⟨more, rfl, rfl⟩
  · simp
  · cases more with
    | nil => simp
    | cons d more =>
        have hfalse : p d = false := hrest d rfl
        rw [hall d (List.mem_append_right _ List.mem_cons_self)] at hfalse
        cases hfalse

/-! ### Which rule wins -/

namespace Rule

theorem wins_gap (hne : run ≠ []) (hrun : ∀ c ∈ run, isGap c = true)
    (hrest : ∀ c ∈ rest.head?, isGap c = false) : gap.Wins run rest := by
  obtain ⟨c, cs, rfl⟩ := List.exists_cons_of_ne_nil hne
  have hc : isGap c = true := hrun c List.mem_cons_self
  refine ⟨⟨hne, hrun⟩, ?_, ?_⟩
  · intro other longer hhead hother
    obtain ⟨d, ds, rfl⟩ := List.exists_cons_of_ne_nil hother.ne_nil
    obtain rfl : d = c := (List.cons_prefix_cons.mp hhead).1
    exact length_le_of_isPrefix hrest hhead (hother.eq_gap hc).2
  · intro other hother
    rw [(hother.eq_gap hc).1]

theorem wins_mark (rest : List Char) : mark.Wins ['!'] rest := by
  refine ⟨rfl, ?_, ?_⟩
  · intro other longer hhead hother
    obtain ⟨d, ds, rfl⟩ := List.exists_cons_of_ne_nil hother.ne_nil
    obtain rfl : d = '!' := (List.cons_prefix_cons.mp hhead).1
    obtain ⟨-, rfl⟩ := hother.eq_mark
    exact Nat.le_refl _
  · intro other hother
    rw [hother.eq_mark.1]

theorem not_isNumeral_keyword : ¬ IsNumeral "relation".toList := by decide

/-- One of the three rules for runs wins with a whole run. -/
theorem exists_wins (hrun : IsRun run) (hrest : ∀ c ∈ rest.head?, isRunChar c = false) :
    ∃ rule : Rule, rule.Wins run rest := by
  have hlongest : ∀ (other : Rule) (longer : List Char),
      longer <+: run ++ rest → other.Matches longer → longer.length ≤ run.length := by
    intro other longer hhead hother
    obtain ⟨c, cs, rfl⟩ := List.exists_cons_of_ne_nil hrun.ne_nil
    obtain ⟨d, ds, rfl⟩ := List.exists_cons_of_ne_nil hother.ne_nil
    obtain rfl : d = c := (List.cons_prefix_cons.mp hhead).1
    have hd : isRunChar d = true := hrun.isRunChar d List.mem_cons_self
    have hbang : d ≠ '!' := fun h => hrun.head (congrArg some h)
    exact length_le_of_isPrefix hrest hhead (hother.isRun hd hbang).isRunChar
  by_cases hkeyword : run = "relation".toList
  · refine ⟨keyword, hkeyword, hlongest, fun other hother => ?_⟩
    rcases hother.cases_of_isRun hrun with ⟨rfl, -⟩ | ⟨rfl, -⟩ | rfl <;> decide
  by_cases hnumeral : IsNumeral run
  · refine ⟨number, hnumeral, hlongest, fun other hother => ?_⟩
    rcases hother.cases_of_isRun hrun with ⟨rfl, h⟩ | ⟨rfl, -⟩ | rfl
    · exact absurd h hkeyword
    · decide
    · decide
  · refine ⟨word, hrun, hlongest, fun other hother => ?_⟩
    rcases hother.cases_of_isRun hrun with ⟨rfl, h⟩ | ⟨rfl, h⟩ | rfl
    · exact absurd h hkeyword
    · exact absurd h hnumeral
    · decide

/-- A number is a token as it is read. -/
theorem token?_number (hnumeral : IsNumeral run) :
    number.token? run = some (Token.ofRun run) := by
  have hkeyword : run ≠ "relation".toList := by
    rintro rfl
    exact not_isNumeral_keyword hnumeral
  obtain ⟨n, hn⟩ := Option.isSome_iff_exists.mp (isNumeral_iff.mp hnumeral)
  rw [Token.ofRun, if_neg hkeyword, hn]
  simp only [token?, int32?, hn, Option.bind_some]
  split <;> rfl

/-- The rule that wins with a run makes the token of the run. -/
theorem Wins.token?_eq (h : rule.Wins run rest) (hrun : IsRun run) :
    rule.token? run = some (Token.ofRun run) := by
  rcases h.isMatch.cases_of_isRun hrun with ⟨rfl, rfl⟩ | ⟨rfl, hnumeral⟩ | rfl
  · rfl
  · exact token?_number hnumeral
  · -- Neither of the rules of higher priority matches.
    have hkeyword : run ≠ "relation".toList := fun hrun => absurd (h.first keyword hrun) (by decide)
    have hnumeral : ¬ IsNumeral run := fun hrun => absurd (h.first number hrun) (by decide)
    rw [isNumeral_iff, Bool.not_eq_true, Option.isSome_eq_false_iff, Option.isNone_iff_eq_none]
      at hnumeral
    rw [Token.ofRun, if_neg hkeyword, hnumeral]
    rfl

end Rule

/-! ### The lexer goes by the rules -/

theorem lexFrom_gaps (hrun : ∀ c ∈ run, isGap c = true) (pos : Nat) (rest : List Char) :
    lexFrom pos (run ++ rest) = lexFrom (pos + Text.size run) rest := by
  induction run generalizing pos with
  | nil => rfl
  | cons c cs ih =>
      obtain ⟨hc, hcs⟩ := List.forall_mem_cons.mp hrun
      rw [List.cons_append, lexFrom_gap hc, ih hcs, Text.size_cons, Nat.add_assoc]

/-- No rule matches at a colon. -/
theorem not_matches_of_colon (hhead : run <+: ':' :: rest) : ¬ rule.Matches run := by
  intro h
  obtain ⟨c, cs, rfl⟩ := List.exists_cons_of_ne_nil h.ne_nil
  obtain rfl : c = ':' := (List.cons_prefix_cons.mp hhead).1
  rcases h.cases with ⟨-, -, hall⟩ | ⟨-, hmark⟩ | hrun
  · exact absurd (hall ':' List.mem_cons_self) (by decide)
  · exact absurd (List.cons_eq_cons.mp hmark).1 (by decide)
  · exact absurd (hrun.isRunChar ':' List.mem_cons_self) (by decide)

/-- Behind what a rule for runs has won with, no run goes on. -/
theorem Rule.Wins.not_isRunChar (h : rule.Wins run rest) (hrun : IsRun run) :
    ∀ c ∈ rest.head?, isRunChar c = false := by
  intro c hc
  obtain ⟨cs, rfl⟩ := List.head?_eq_some_iff.mp hc
  by_contra hchar
  rw [Bool.not_eq_false] at hchar
  have hlonger : IsRun (run ++ [c]) := by
    refine ⟨by simp, ?_, ?_⟩
    · rw [List.forall_mem_append, List.forall_mem_singleton]
      exact ⟨hrun.isRunChar, hchar⟩
    · rw [List.head?_append, Option.or_of_isSome (by simpa using hrun.ne_nil)]
      exact hrun.head
  have hlength := h.longest .word (run ++ [c]) (by simp) hlonger
  rw [List.length_append, List.length_singleton] at hlength
  omega

theorem eq_false_of_mem_head?_dropWhile {p : Char → Bool} {cs : List Char} :
    ∀ d ∈ (cs.dropWhile p).head?, p d = false := by
  intro d hd
  have hnot := List.head?_dropWhile_not p cs
  rw [hd] at hnot
  exact hnot

/-- A text starts with all the characters up to the first at which `p` does not hold. -/
theorem exists_cons_append {p : Char → Bool} (hc : p c = true) (cs : List Char) :
    ∃ run rest, c :: cs = c :: run ++ rest ∧ rest.length ≤ cs.length ∧
      (∀ d ∈ c :: run, p d = true) ∧ ∀ d ∈ rest.head?, p d = false := by
  refine ⟨cs.takeWhile p, cs.dropWhile p, ?_, (List.dropWhile_sublist p).length_le, ?_,
    eq_false_of_mem_head?_dropWhile⟩
  · rw [List.cons_append, List.takeWhile_append_dropWhile]
  · exact List.forall_mem_cons.mpr ⟨hc, fun d hd => List.mem_takeWhile_imp hd⟩

theorem munches_lexFrom (pos : Nat) (s : List Char) : Munches pos s (lexFrom pos s) := by
  -- The rule for gaps takes several steps of the lexer at once, so the induction is on the length.
  induction hlength : s.length using Nat.strong_induction_on generalizing pos s with
  | _ n ih =>
      subst hlength
      cases s with
      | nil =>
          rw [lexFrom_nil]
          exact .nil pos
      | cons c cs =>
          by_cases hgap : isGap c = true
          · obtain ⟨run, rest, hsplit, hlength, hrun, hrest⟩ := exists_cons_append hgap cs
            rw [hsplit, lexFrom_gaps hrun]
            exact .skip (Rule.wins_gap (by simp) hrun hrest) rfl
              (ih _ (Nat.lt_succ_of_le hlength) _ _ rfl)
          by_cases hcolon : c = ':'
          · subst hcolon
            rw [lexFrom_colon]
            exact .stray (fun _ _ => not_matches_of_colon) (ih _ (by simp) _ _ rfl)
          by_cases hbang : c = '!'
          · subst hbang
            rw [lexFrom_bang]
            exact .token (Rule.wins_mark cs) rfl (ih _ (by simp) _ _ rfl)
          · have hchar : isRunChar c = true := by simp [isRunChar, hgap, hcolon]
            obtain ⟨run, rest, hsplit, hlength, hall, hrest⟩ := exists_cons_append hchar cs
            have hrun : IsRun (c :: run) :=
              ⟨List.cons_ne_nil _ _, hall, fun h => hbang (Option.some.inj h)⟩
            obtain ⟨rule, hwins⟩ := Rule.exists_wins hrun hrest
            rw [hsplit, lexFrom_run hrun hrest]
            exact .token hwins (hwins.token?_eq hrun)
              (ih _ (Nat.lt_succ_of_le hlength) _ _ rfl)

/-- The lexer reads what the rules make of a text, and the rules make nothing else of it. -/
theorem munches_iff : Munches pos s found ↔ lexFrom pos s = found := by
  constructor
  · intro h
    induction h with
    | nil pos => exact lexFrom_nil pos
    | @skip pos rule run rest found hwins htoken _ ih =>
        rcases hwins.isMatch.cases with ⟨-, -, hgaps⟩ | ⟨rfl, -⟩ | hrun
        · rw [lexFrom_gaps hgaps, ih]
        · cases htoken
        · rw [hwins.token?_eq hrun] at htoken
          cases htoken
    | @token pos rule run rest token found hwins htoken _ ih =>
        rcases hwins.isMatch.cases with ⟨rfl, -, -⟩ | ⟨rfl, rfl⟩ | hrun
        · cases htoken
        · obtain rfl := Option.some.inj htoken
          rw [List.singleton_append, lexFrom_bang, ih]
        · obtain rfl := Option.some.inj ((hwins.token?_eq hrun).symm.trans htoken)
          rw [lexFrom_run hrun (hwins.not_isRunChar hrun), ih]
    | @stray pos c rest found hstray _ ih =>
        have hgap : ¬ isGap c = true := fun h =>
          hstray .gap [c] (by simp) ⟨List.cons_ne_nil _ _, List.forall_mem_singleton.mpr h⟩
        have hbang : c ≠ '!' := by
          rintro rfl
          exact hstray .mark ['!'] (by simp) rfl
        have hcolon : c = ':' := by
          by_contra hcolon
          exact hstray .word [c] (by simp)
            (isRun_singleton (by simp [isRunChar, hgap, hcolon]) hbang)
        subst hcolon
        rw [lexFrom_colon, ih]
  · rintro rfl
    exact munches_lexFrom pos s

end Header

end Stencil
