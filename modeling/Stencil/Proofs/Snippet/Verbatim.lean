import Stencil.Proofs.Header.Printer
import Stencil.Proofs.Snippet.Error
import Stencil.Proofs.Snippet.Section
import Stencil.Text.Blank

/-!
# Words that are kept

A word of a header is free text, but one that is spelled like a number is read as the number and
written out again. So a header is read word for word if each such word is the decimal text of a
number within 32 bits (`word_for_word_iff`): `007` becomes `7`, and `2147483648` is not read at
all.
-/

namespace Stencil

namespace Header

variable {word name : String} {tokens : List Token} {header header' : Header}

/-- A word as users are told to choose it: free of blanks and of the marks of a header. -/
structure IsLabel (word : String) : Prop where
  ne_empty : word ≠ ""
  not_isBlank : ∀ c ∈ word.toList, Text.isBlank c = false
  colon_notMem : ':' ∉ word.toList
  head : word.toList.head? ≠ some '!'
  ne_keyword : word ≠ "relation"

/-- The word with a number written out in decimal digits. -/
def decimal (word : String) : String := ((integerValue? word.toList).map toString).getD word

/-- A number that the word spells is one within 32 bits. -/
def InRange (word : String) : Prop :=
  ∀ n, integerValue? word.toList = some n → ∃ m : Int32, m.toInt = n

/-- The block that has the header and nothing else. -/
def bareBlock (header : Header) : String := header.source ++ " : begin end"

theorem isBlank_of_isGap {c : Char} (h : isGap c = true) : Text.isBlank c = true := by
  simp only [isGap, Bool.or_eq_true, beq_iff_eq] at h
  rcases h with ((rfl | rfl) | rfl) | rfl <;> decide

theorem IsLabel.isRun (h : IsLabel word) : IsRun word.toList where
  ne_nil := by simpa using h.ne_empty
  isRunChar := by
    intro c hc
    have hgap : isGap c = false := by
      rw [← Bool.not_eq_true]
      intro hgap
      exact Bool.false_ne_true ((h.not_isBlank c hc).symm.trans (isBlank_of_isGap hgap))
    have hcolon : c ≠ ':' := by
      rintro rfl
      exact h.colon_notMem hc
    simp [isRunChar, hgap, hcolon]
  head := h.head

/-- A label names its decimal form, unless it is a number out of range. -/
theorem names_ofRun_label_iff (hkeyword : word ≠ "relation") :
    Names (.ofRun word.toList) name ↔ InRange word ∧ name = decimal word := by
  have hspelling := spelling_ofRun word.toList
  generalize Token.ofRun word.toList = token at hspelling
  cases hspelling with
  | keyword h => exact absurd (String.toList_inj.mp h) hkeyword
  | number m hvalue =>
      rw [InRange, decimal, hvalue]
      constructor
      · intro hname
        obtain rfl := Option.some.inj hname
        exact ⟨fun n hn => ⟨m, Option.some.inj hn⟩, rfl⟩
      · rintro ⟨-, rfl⟩
        rfl
  | outOfRange n hvalue hrange =>
      constructor
      · intro hname
        cases hname
      · intro h
        obtain ⟨m, hm⟩ := h.1 n hvalue
        exact absurd hm (hrange m)
  | word _ hnumeral =>
      have hvalue : integerValue? word.toList = none := by
        rwa [isNumeral_iff, Bool.not_eq_true, Option.isSome_eq_false_iff,
          Option.isNone_iff_eq_none] at hnumeral
      rw [InRange, decimal, hvalue, String.ofList_toList]
      constructor
      · intro hname
        exact ⟨fun n hn => absurd hn.symm (Option.some_ne_none n), (Option.some.inj hname).symm⟩
      · rintro ⟨-, rfl⟩
        rfl

/-- Only a number out of range spells no token. -/
theorem inRange_of_ofRun_ne_invalid (h : ∀ text, Token.ofRun word.toList ≠ .invalid text) :
    InRange word := by
  intro n hn
  have hspelling := spelling_ofRun word.toList
  generalize Token.ofRun word.toList = token at h hspelling
  cases hspelling with
  | keyword hkeyword =>
      rw [hkeyword, integerValue?_keyword] at hn
      cases hn
  | number m hvalue => exact ⟨m, Option.some.inj (hvalue.symm.trans hn)⟩
  | outOfRange _ _ _ => exact absurd rfl (h _)
  | word _ hnumeral => exact absurd (isNumeral_of_integerValue? hn) hnumeral

/-- A word is kept if it is no number, or the decimal text of one in range. -/
theorem inRange_and_decimal_eq_iff :
    InRange word ∧ decimal word = word ↔
      (IsNumeral word.toList → ∃ n : Int32, word = toString n.toInt) := by
  rw [isNumeral_iff, InRange, decimal]
  cases hvalue : integerValue? word.toList with
  | none => simp
  | some value =>
      constructor
      · rintro ⟨hrange, hword⟩ -
        obtain ⟨m, rfl⟩ := hrange value rfl
        exact ⟨m, hword.symm⟩
      · intro h
        obtain ⟨m, rfl⟩ := h rfl
        rw [integerValue?_toString] at hvalue
        obtain rfl := Option.some.inj hvalue
        exact ⟨fun n hn => ⟨m, Option.some.inj hn⟩, rfl⟩

theorem mapWords_eq_self_iff {f : String → String} :
    header.mapWords f = header ↔ ∀ word ∈ header.words, f word = word := by
  obtain ⟨name, unique, kind⟩ := header
  cases kind with
  | entity category icon => simp [mapWords, words]
  | relation source target style =>
      obtain ⟨sourceCategory, sourceUnique⟩ := source
      obtain ⟨targetCategory, targetUnique⟩ := target
      simp [mapWords, words]

theorem ofRun_mem_writtenTokens (h : word ∈ header.words) :
    .ofRun word.toList ∈ header.writtenTokens := by
  obtain ⟨name, unique, kind⟩ := header
  cases kind with
  | entity category icon =>
      simp only [words, List.mem_cons, List.not_mem_nil, or_false] at h
      rcases h with rfl | rfl <;> simp [writtenTokens]
  | relation source target style =>
      simp only [words, List.mem_cons, List.not_mem_nil, or_false] at h
      rcases h with rfl | rfl | rfl <;> simp [writtenTokens]

theorem invalid_notMem_of_spells (h : Spells tokens header) (text : String) :
    .invalid text ∉ tokens := by
  have hnames {token : Token} {name : String} (h : Names token name) :
      Token.invalid text ≠ token := by
    rintro rfl
    cases h
  have hmark (written : Bool) : .invalid text ∉ markTokens written := by
    cases written <;> simp [markTokens]
  have hspares {spare : List Token} (h : Spare spare) : .invalid text ∉ spare := by
    rcases h with rfl | ⟨token, name, rfl, hname⟩
    · exact List.not_mem_nil
    · simpa using hnames hname
  cases h with
  | entity hkind hspare hname hcategory =>
      simp [hmark, hspares hspare, hnames hkind, hnames hname, hnames hcategory]
  | relation hspare hname hsource htarget =>
      simp [hmark, hspares hspare, hnames hname, hnames hsource, hnames htarget]

/-- What is written for a header with these words is read if the numbers among them are in range,
and then as the header with the numbers written out. -/
theorem parse_source_of_labels (hlabels : ∀ word ∈ header.words, IsLabel word) :
    parse (header.source.toList ++ [' ']) = .ok header' ↔
      (∀ word ∈ header.words, InRange word) ∧ header' = header.mapWords decimal := by
  have hread (header' : Header) :
      parse (header.source.toList ++ [' ']) = .ok header' ↔
        Spells header.writtenTokens header' := by
    rw [parse_eq_ok, tokens_source fun word hword => (hlabels word hword).isRun]
  have hdecimal (hrange : ∀ word ∈ header.words, InRange word) :
      parse (header.source.toList ++ [' ']) = .ok (header.mapWords decimal) :=
    (hread _).mpr (spells_writtenTokens fun word hword =>
      (names_ofRun_label_iff (hlabels word hword).ne_keyword).mpr ⟨hrange word hword, rfl⟩)
  constructor
  · intro h
    -- No header is spelled with an invalid token, and that is what a number out of range becomes.
    have hrange : ∀ word ∈ header.words, InRange word := by
      intro word hword
      refine inRange_of_ofRun_ne_invalid fun text htext => ?_
      exact invalid_notMem_of_spells ((hread _).mp h) text (htext ▸ ofRun_mem_writtenTokens hword)
    exact ⟨hrange, Except.ok.inj (h.symm.trans (hdecimal hrange))⟩
  · rintro ⟨hrange, rfl⟩
    exact hdecimal hrange

end Header

namespace Snippet

open Header

variable {header : Header} {s : Snippet}

theorem ofBlock_bareBlock (hcolon : ':' ∉ header.source.toList ++ [' ']) :
    Sections.ofBlock header.bareBlock.toList =
      .ok ⟨header.source.toList ++ [' '], [' '], [' '], []⟩ := by
  have hblock : header.bareBlock.toList =
      (header.source.toList ++ [' ']) ++ ':' :: " begin end".toList := by
    simp [bareBlock]
  have hbegin : Text.cutFirst? "begin".toList (some ':') " begin end".toList =
      some ([' '], " end".toList) := by decide
  have hend : Text.cutLast? "end".toList (some 'n') " end".toList = some ([' '], []) := by decide
  rw [hblock, Sections.ofBlock, Text.cutAt?_append_cons hcolon]
  simp only [hbegin, hend]

/-- A block that has a header and nothing else is read as its header is. -/
theorem parse_bareBlock_iff (hcolon : ':' ∉ header.source.toList ++ [' ']) :
    parse header.bareBlock = .ok s ↔
      Header.parse (header.source.toList ++ [' ']) = .ok s.toHeader ∧
        s.attributes = [] ∧ s.patterns = [] := by
  have hclauses (pos : Nat) : clauses pos [' '] = [] := rfl
  rw [parse_eq_ofSections (ofBlock_bareBlock hcolon), ofSections]
  simp only [hclauses, readHeader]
  obtain ⟨⟨name, unique, kind⟩, attributes, patterns⟩ := s
  cases Header.parse (header.source.toList ++ [' ']) with
  | error failure => simp [Except.mapError, errors]
  | ok read =>
      obtain ⟨name', unique', kind'⟩ := read
      simp [Except.mapError, errors, results]

/-- A header is read word for word exactly if each word that is spelled like a number is the decimal
text of one within 32 bits. Otherwise it is refused, if one of these numbers is out of range, or
read with the numbers written out. -/
theorem word_for_word_iff (hlabels : ∀ word ∈ header.words, IsLabel word) :
    (parse header.bareBlock = .ok ⟨header, [], []⟩ ↔
        ∀ word ∈ header.words, IsNumeral word.toList → ∃ n : Int32, word = toString n.toInt) ∧
      ((∃ s, parse header.bareBlock = .ok s) ↔ ∀ word ∈ header.words, InRange word) ∧
      ∀ s, parse header.bareBlock = .ok s → s = ⟨header.mapWords decimal, [], []⟩ := by
  have hcolon := colon_notMem_source_of_isRun fun word hword => (hlabels word hword).isRun
  have hread (s : Snippet) : parse header.bareBlock = .ok s ↔
      (∀ word ∈ header.words, InRange word) ∧ s = ⟨header.mapWords decimal, [], []⟩ := by
    rw [parse_bareBlock_iff hcolon, parse_source_of_labels hlabels, and_assoc]
    obtain ⟨header', attributes, patterns⟩ := s
    simp
  refine ⟨?_, ?_, fun s h => ((hread s).mp h).2⟩
  · have hsame : (⟨header, [], []⟩ : Snippet) = ⟨header.mapWords decimal, [], []⟩ ↔
        ∀ word ∈ header.words, decimal word = word := by
      rw [← mapWords_eq_self_iff, Snippet.mk.injEq, eq_self, eq_self, and_true, and_true, eq_comm]
    simp only [hread, hsame, ← inRange_and_decimal_eq_iff, ← forall_and]
  · constructor
    · rintro ⟨s, hs⟩
      exact ((hread s).mp hs).1
    · intro hrange
      exact ⟨_, (hread _).mpr ⟨hrange, rfl⟩⟩

/-- A relation whose words are numbers with a zero too many, and one that is no number. -/
def padded : Header := ⟨"007", false, .relation ⟨"-0", true⟩ ⟨"802.11", false⟩ ⟨0, 0, 1, 0⟩⟩

theorem isLabel_words_padded : ∀ word ∈ padded.words, IsLabel word := by
  have hname : IsLabel "007" :=
    ⟨by decide, by simp [Text.isBlank], by decide, by decide, by decide⟩
  have hsource : IsLabel "-0" :=
    ⟨by decide, by simp [Text.isBlank], by decide, by decide, by decide⟩
  have htarget : IsLabel "802.11" :=
    ⟨by decide, by simp [Text.isBlank], by decide, by decide, by decide⟩
  intro word hword
  simp only [words, padded, List.mem_cons, List.not_mem_nil, or_false] at hword
  rcases hword with rfl | rfl | rfl
  · exact hname
  · exact hsource
  · exact htarget

/-- All its numbers are in range, so it is read, but under other words. -/
theorem padded_read_under_other_words :
    (∀ word ∈ padded.words, IsLabel word) ∧
      padded.bareBlock = "relation 007 !-0 802.11 0 0 1 0 : begin end" ∧
      parse padded.bareBlock ≠ .ok ⟨padded, [], []⟩ ∧
      parse padded.bareBlock =
        .ok ⟨⟨"7", false, .relation ⟨"0", true⟩ ⟨"802.11", false⟩ ⟨0, 0, 1, 0⟩⟩, [], []⟩ := by
  obtain ⟨hkept, hread, heq⟩ := word_for_word_iff isLabel_words_padded
  have hrange : ∀ word ∈ padded.words, InRange word := by
    intro word hword n hn
    simp only [words, padded, List.mem_cons, List.not_mem_nil, or_false] at hword
    rcases hword with rfl | rfl | rfl
    · exact ⟨7, Option.some.inj hn⟩
    · exact ⟨0, Option.some.inj hn⟩
    · cases hn
  refine ⟨isLabel_words_padded, by decide +kernel, ?_, ?_⟩
  · intro h
    obtain ⟨n, hn⟩ := hkept.mp h "007" List.mem_cons_self (by decide)
    have hvalue : integerValue? "007".toList = some 7 := by decide
    rw [hn, integerValue?_toString] at hvalue
    rw [Option.some.inj hvalue] at hn
    exact absurd hn (by decide)
  · obtain ⟨s, hs⟩ := hread.mpr hrange
    rw [hs, heq s hs]
    rfl

/-- Not each entity with such words has them as its name and its category: leading zeros are
lost. -/
theorem not_forall_word_for_word :
    ¬ ∀ (name category : String) (icon : Int32), IsLabel name → IsLabel category →
      ∃ s, parse (bareBlock ⟨name, false, .entity category icon⟩) = .ok s ∧ s.name = name ∧
        s.category? = some category := by
  intro h
  have hname : IsLabel "007" :=
    ⟨by decide, by simp [Text.isBlank], by decide, by decide, by decide⟩
  have hcategory : IsLabel "node" :=
    ⟨by decide, by simp [Text.isBlank], by decide, by decide, by decide⟩
  obtain ⟨s, hs, hsname, -⟩ := h "007" "node" 0 hname hcategory
  have hblock : bareBlock ⟨"007", false, .entity "node" 0⟩ = "entity 007 node 0 : begin end" := by
    decide +kernel
  have hread : parse "entity 007 node 0 : begin end" =
      .ok ⟨⟨"7", false, .entity "node" 0⟩, [], []⟩ := by decide +kernel
  rw [hblock, hread] at hs
  obtain rfl := Except.ok.inj hs
  exact absurd hsname (by decide)

end Snippet

end Stencil
