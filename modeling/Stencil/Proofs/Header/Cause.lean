import Mathlib.Order.Bounds.Defs
import Stencil.Proofs.Header.Failure
import Stencil.Proofs.Header.Plan
import Stencil.Proofs.Header.Reading
import Stencil.Snippet.Parser

/-!
# A failure names its cause

The tokens of a header that cannot be read begin some header up to a point. The failure is
about the token at this point, and what it lists as expected is what the tokens in front could
be gone on with (`failure_names_cause`). The readings by choices come to the same, however they
are ordered, if the furthest of their stops is reported.
-/

namespace Stencil

namespace Header

variable {tokens past : List Token} {lexemes : List Lexeme} {rests : List (List Place)}
  {e : Expectation}

/-- The tokens can be gone on with as expected: by a token, or by the colon that ends a
header. -/
def Expectation.Continues (past : List Token) : Expectation → Prop
  | bang => Begins (past ++ [.bang])
  | relation => Begins (past ++ [.relation])
  | colon => ∃ header, Spells past header

theorem holds_iff_exists : e.holds rests = true ↔ ∃ places ∈ rests, e.holds [places] = true := by
  cases e <;> simp [Expectation.holds]

theorem holds_rests_iff : e.holds (Form.rests past) = true ↔ e.Continues past := by
  have hhead (place : Place) :
      ((Form.rests past).any (·.head? == some place) = true) ↔
        ∃ more, place :: more ∈ Form.rests past := by
    simp only [List.any_eq_true, beq_iff_eq, List.head?_eq_some_iff]
    constructor
    · rintro ⟨_, hmem, more, rfl⟩
      exact ⟨more, hmem⟩
    · rintro ⟨more, hmem⟩
      exact ⟨_, hmem, more, rfl⟩
  cases e with
  | bang =>
      rw [Expectation.holds, hhead, Expectation.Continues, begins_append_singleton_iff]
      intro other
      cases other <;> simp [Place.accepts]
  | relation =>
      rw [Expectation.holds, hhead, Expectation.Continues, begins_append_singleton_iff]
      intro other
      cases other <;> simp [Place.accepts]
  | colon =>
      rw [Expectation.Continues, ← nil_mem_rests_iff]
      simp [Expectation.holds]

theorem mem_expectations_iff : e ∈ expectations rests ↔ e.holds rests = true := by
  cases e <;> simp [expectations]

/-- The failure is at the end of the tokens that begin some header together, or at the token
behind them. -/
theorem failure_eq (size : Nat) (lexemes : List Lexeme) :
    ∃ before after, lexemes = before ++ after ∧ Begins (before.map (·.token)) ∧
      (∀ l ∈ after.head?, ¬ Begins (before.map (·.token) ++ [l.token])) ∧
      failure size lexemes =
        ⟨after.head?.map (·.token), (after.head?.map (·.span)).getD (endSpan size lexemes),
          expectations (Form.rests (before.map (·.token)))⟩ := by
  by_cases hbegins : Begins (lexemes.map (·.token))
  · exact ⟨lexemes, [], by simp, hbegins, by simp, failure_of_begins hbegins size⟩
  · obtain ⟨before, lexeme, after, rfl, hbefore, hstuck, hfailure⟩ :=
      failure_of_not_begins hbegins size
    refine ⟨before, lexeme :: after, rfl, hbefore, fun l hl => ?_, hfailure⟩
    obtain rfl := Option.some.inj hl
    exact hstuck

/-- What is listed as expected, in its wording. -/
theorem mem_describe_expectations_iff {wording : String} :
    wording ∈ (expectations (Form.rests past)).map Expectation.describe ↔
      wording = "'!'" ∧ Begins (past ++ [.bang]) ∨
        wording = "keyword 'relation'" ∧ Begins (past ++ [.relation]) ∨
        wording = "':'" ∧ ∃ header, Spells past header := by
  simp only [List.mem_map, mem_expectations_iff, holds_rests_iff]
  constructor
  · rintro ⟨e, he, rfl⟩
    cases e with
    | bang => exact .inl ⟨rfl, he⟩
    | relation => exact .inr (.inl ⟨rfl, he⟩)
    | colon => exact .inr (.inr ⟨rfl, he⟩)
  · rintro (⟨rfl, h⟩ | ⟨rfl, h⟩ | ⟨rfl, h⟩)
    · exact ⟨.bang, h, rfl⟩
    · exact ⟨.relation, h, rfl⟩
    · exact ⟨.colon, h, rfl⟩

theorem isGreatest_begins {rest : List Token} (hbegins : Begins past)
    (hstuck : ∀ token ∈ rest.head?, ¬ Begins (past ++ [token])) :
    IsGreatest {n | n ≤ (past ++ rest).length ∧ Begins ((past ++ rest).take n)} past.length := by
  refine ⟨⟨by simp, by rwa [List.take_left]⟩, ?_⟩
  rintro n ⟨hn, htake⟩
  by_contra hlt
  cases rest with
  | nil =>
      rw [List.append_nil] at hn
      exact hlt hn
  | cons token rest =>
      obtain ⟨k, rfl⟩ := Nat.exists_eq_add_of_lt (Nat.not_le.mp hlt)
      have hsplit : (past ++ token :: rest).take (past.length + k + 1) =
          past ++ [token] ++ rest.take k := by
        rw [Nat.add_assoc, List.take_length_add_append, List.take_succ_cons, List.append_assoc]
        rfl
      rw [hsplit] at htake
      exact hstuck token rfl htake.of_append

/-- A reading by choices goes by its plan. -/
theorem accepts_header (a b : Bool) (tokens : List Token) :
    (Plan.header a b).accepts tokens = ((Descent.header a b).run' tokens).isSome := by
  rw [run'_descent, Bool.eq_iff_iff, Plan.accepts_iff (Plan.marksShow_header a b),
    Plan.leaves_header_iff, nil_mem_rests_iff, Option.isSome_iff_exists]
  simp only [ofTokens?_eq_some_iff]

/-- The readings by choices stop furthest on where no header can be gone on with, and ask there
for what is expected. -/
theorem furthest_stops_header {rest : List Token} (hbegins : Begins past)
    (hstuck : ∀ token ∈ rest.head?, ¬ Begins (past ++ [token]))
    (h : ofTokens? (past ++ rest) = none) (a b : Bool) :
    (Plan.header a b).accepts (past ++ rest) = false ∧
      ∃ stop, furthest ((Plan.header a b).stops 0 (past ++ rest)) = some stop ∧
        stop.pos = past.length ∧
        ∀ e, e ∈ stop.asked ↔ e ∈ expectations (Form.rests past) := by
  have hmarks := Plan.marksShow_header a b
  have hfails : (Plan.header a b).accepts (past ++ rest) = false := by
    rw [accepts_header, run'_descent, h]
    rfl
  obtain ⟨places, hplaces⟩ := List.exists_mem_of_ne_nil _ (begins_iff_rests_ne_nil.mp hbegins)
  have hleaves := (Plan.leaves_header_iff a b).mpr hplaces
  have hplan : (Plan.header a b).Stuck past rest := by
    intro token htoken places hplaces
    refine hstuck token htoken (begins_iff_rests_ne_nil.mpr ?_)
    exact List.ne_nil_of_mem ((Plan.leaves_header_iff a b).mp hplaces)
  obtain ⟨stop, hstop, hpos, hasked⟩ := Plan.furthest_stops hmarks hfails hleaves hplan
  refine ⟨hfails, stop, hstop, hpos, fun e => ?_⟩
  rw [hasked, mem_expectations_iff, holds_iff_exists]
  simp only [Plan.leaves_header_iff]

theorem readHeader_of_none {text : List Char}
    (h : ofTokens? ((lex text).map (·.token)) = none) :
    Snippet.readHeader text =
      .error (.badHeader (failure (Text.size text) (lex text)).span
        (failure (Text.size text) (lex text)).message
        ((failure (Text.size text) (lex text)).expected.map (·.describe))) := by
  rw [Snippet.readHeader, parse, h]
  rfl

/-- Tokens that are no header have one failure. It is about the token behind the longest part
of them that begins a header, or about the end if they all do, and expects a mark, the keyword
or the end just where this part can be gone on with so. The furthest stop of the readings by
choices is the same. -/
theorem failure_names_cause (size : Nat) {lexemes : List Lexeme}
    (h : ofTokens? (lexemes.map (·.token)) = none) :
    ∃ p, IsGreatest {n | n ≤ (lexemes.map (·.token)).length ∧
        Begins ((lexemes.map (·.token)).take n)} p ∧
      (failure size lexemes).found = lexemes[p]?.map (·.token) ∧
      (failure size lexemes).span = (lexemes[p]?.map (·.span)).getD (endSpan size lexemes) ∧
      (∀ wording, wording ∈ (failure size lexemes).expected.map (·.describe) ↔
        wording = "'!'" ∧ Begins ((lexemes.map (·.token)).take p ++ [.bang]) ∨
          wording = "keyword 'relation'" ∧
            Begins ((lexemes.map (·.token)).take p ++ [.relation]) ∨
          wording = "':'" ∧ ∃ header, Spells ((lexemes.map (·.token)).take p) header) ∧
      (∀ a b, (Plan.header a b).accepts (lexemes.map (·.token)) = false ∧
        ∃ stop, furthest ((Plan.header a b).stops 0 (lexemes.map (·.token))) = some stop ∧
          stop.pos = p ∧ ∀ e, e ∈ stop.asked ↔ e ∈ (failure size lexemes).expected) ∧
      ∀ text, lex text = lexemes → Text.size text = size →
        Snippet.readHeader text =
          .error (.badHeader (failure size lexemes).span (failure size lexemes).message
            ((failure size lexemes).expected.map (·.describe))) := by
  obtain ⟨before, after, rfl, hbegins, hstuck, hfailure⟩ := failure_eq size lexemes
  have hhead : ∀ token ∈ (after.map (·.token)).head?,
      ¬ Begins (before.map (·.token) ++ [token]) := by
    intro token htoken
    rw [List.head?_map, Option.mem_def, Option.map_eq_some_iff] at htoken
    obtain ⟨l, hl, rfl⟩ := htoken
    exact hstuck l hl
  have hlength : (before.map (·.token)).length = before.length := List.length_map _
  have htake : ((before ++ after).map (·.token)).take before.length = before.map (·.token) := by
    rw [List.map_append, ← hlength, List.take_left]
  have hat : (before ++ after)[before.length]? = after.head? := by
    rw [List.getElem?_append_right (Nat.le_refl _), Nat.sub_self, List.head?_eq_getElem?]
  refine ⟨before.length, ?_, ?_, ?_, ?_, ?_, ?_⟩
  · have hgreatest := isGreatest_begins hbegins hhead
    rwa [← List.map_append, hlength] at hgreatest
  · rw [hfailure, hat]
  · rw [hfailure, hat]
  · intro wording
    rw [hfailure, htake]
    exact mem_describe_expectations_iff
  · intro a b
    have hplan := furthest_stops_header hbegins hhead (List.map_append ▸ h) a b
    rw [← List.map_append, hlength] at hplan
    rw [hfailure]
    exact hplan
  · rintro text htext rfl
    rw [← htext] at h ⊢
    exact readHeader_of_none h

/-- The header of a relation with the keyword in the place of its target. -/
def misplacedKeyword : List Char := "!relation Link node node relation 0".toList

/-- Its last end may still have a mark, if `Link` is a spare word. -/
theorem failure_names_cause_misplacedKeyword :
    ofTokens? ((lex misplacedKeyword).map (·.token)) = none ∧
      (∃ p, IsGreatest {n | n ≤ 7 ∧ Begins (((lex misplacedKeyword).map (·.token)).take n)} p ∧
        ((lex misplacedKeyword)[p]?.map (·.token)) = some .relation ∧
        Begins (((lex misplacedKeyword).map (·.token)).take p ++ [.bang])) ∧
      Snippet.readHeader misplacedKeyword =
        .error (.badHeader ⟨25, 33⟩ "Unexpected keyword 'relation'" ["'!'"]) := by
  have hnone : ofTokens? ((lex misplacedKeyword).map (·.token)) = none := by decide +kernel
  have hfailure : failure 35 (lex misplacedKeyword) = ⟨some .relation, ⟨25, 33⟩, [.bang]⟩ := by
    decide +kernel
  obtain ⟨p, hgreatest, hfound, -, hexpected, -, hread⟩ := failure_names_cause 35 hnone
  rw [hfailure] at hfound hexpected hread
  have hlength : ((lex misplacedKeyword).map (·.token)).length = 7 := by decide +kernel
  rw [hlength] at hgreatest
  refine ⟨hnone, ⟨p, hgreatest, hfound.symm, ?_⟩, hread _ rfl (by decide)⟩
  have hbang := (hexpected "'!'").mp (by decide)
  simpa using hbang

end Header

end Stencil
