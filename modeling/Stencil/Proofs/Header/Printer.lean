import Stencil.Proofs.Header.Failure
import Stencil.Snippet.Printer

/-!
# Headers are read as they are written

A header is written as words with one blank between them. Words that the lexer does not
take apart (`IsWord`) are read back one by one.
-/

namespace Stencil

namespace Header

variable {word : String}

/-- A word that a header can hold: it is one run and serves as its own name. -/
structure IsWord (word : String) : Prop where
  ne_empty : word ≠ ""
  chars : ∀ c ∈ word.toList, c ∉ [' ', '\t', '\n', '\r', ':']
  head : word.toList.head? ≠ some '!'
  ne_keyword : word ≠ "relation"
  /-- If it is spelled like a number, it is the decimal text of one within 32 bits. -/
  numeral : IsNumeral word.toList → ∃ n : Int32, word = toString n.toInt

/-- The words of a header that are not fixed and are no numbers. -/
def words (header : Header) : List String :=
  header.name ::
    match header.kind with
    | .entity category _ => [category]
    | .relation source target _ => [source.category, target.category]

theorem IsWord.isRun (h : IsWord word) : IsRun word.toList where
  ne_nil := by simpa using h.ne_empty
  isRunChar := by
    intro c hc
    simpa [Header.isRunChar, isGap, and_assoc] using h.chars c hc
  head := h.head

theorem IsWord.names (h : IsWord word) : Names (.ofRun word.toList) word := by
  have hkeyword : word.toList ≠ "relation".toList :=
    fun heq => h.ne_keyword (String.toList_inj.mp heq)
  cases hvalue : integerValue? word.toList with
  | none =>
      rw [Token.ofRun, if_neg hkeyword, hvalue, String.ofList_toList]
      rfl
  | some value =>
      obtain ⟨n, rfl⟩ := h.numeral (isNumeral_of_integerValue? hvalue)
      rw [ofRun_toString]
      rfl

theorem isRun_numberSource (n : Int32) : IsRun (numberSource n).toList :=
  (isNumeral_of_integerValue? (integerValue?_toString n.toInt)).isRun

theorem tokens_markSource (written : Bool) (rest : List Char) :
    tokens ((markSource written).toList ++ rest) = markTokens written ++ tokens rest := by
  cases written with
  | false => rfl
  | true => exact tokens_bang rest

theorem tokens_numberSource (n : Int32) (rest : List Char) :
    tokens ((numberSource n).toList ++ ' ' :: rest) = .integer n :: tokens rest := by
  rw [tokens_run (isRun_numberSource n) rfl, numberSource, ofRun_toString]

theorem tokens_entity (rest : List Char) :
    tokens ("entity".toList ++ ' ' :: rest) = .word "entity" :: tokens rest :=
  tokens_run (by decide) rfl rest

theorem tokens_relation (rest : List Char) :
    tokens ("relation".toList ++ ' ' :: rest) = .relation :: tokens rest :=
  tokens_run (by decide) rfl rest

theorem toList_source_entity (name : String) (unique : Bool) (category : String) (icon : Int32) :
    (source ⟨name, unique, .entity category icon⟩).toList ++ [' '] =
      (markSource unique).toList ++ ("entity".toList ++ ' ' :: (name.toList ++ ' ' ::
        (category.toList ++ ' ' :: ((numberSource icon).toList ++ [' '])))) := by
  simp only [source, String.toList_append, String.toList_intercalate, List.map_cons, List.map_nil,
    List.intercalate_cons_cons, List.intercalate_singleton, List.append_assoc]
  rfl

theorem toList_source_relation (name : String) (unique : Bool) (source target : Endpoint)
    (style : LineStyle) :
    (Header.source ⟨name, unique, .relation source target style⟩).toList ++ [' '] =
      (markSource unique).toList ++ ("relation".toList ++ ' ' :: (name.toList ++ ' ' ::
        ((markSource source.unique).toList ++ (source.category.toList ++ ' ' ::
        ((markSource target.unique).toList ++ (target.category.toList ++ ' ' ::
        ((numberSource style.base).toList ++ ' ' :: ((numberSource style.line).toList ++ ' ' ::
        ((numberSource style.width).toList ++ ' ' ::
        ((numberSource style.tip).toList ++ [' ']))))))))))  := by
  simp only [Header.source, Endpoint.source, LineStyle.source, String.toList_append,
    String.toList_intercalate, List.map_cons, List.map_nil,
    List.intercalate_cons_cons, List.intercalate_singleton, List.append_assoc]
  rfl

/-- The header with other words. -/
def mapWords (f : String → String) (header : Header) : Header where
  name := f header.name
  unique := header.unique
  kind :=
    match header.kind with
    | .entity category icon => .entity (f category) icon
    | .relation source target style =>
        .relation { source with category := f source.category }
          { target with category := f target.category } style

theorem mapWords_id (header : Header) : header.mapWords id = header := by
  obtain ⟨name, unique, kind⟩ := header
  cases kind <;> rfl

/-- The tokens of a header that is written, whatever its words spell. -/
def writtenTokens (header : Header) : List Token :=
  markTokens header.unique ++
    match header.kind with
    | .entity category icon =>
        [.word "entity", .ofRun header.name.toList, .ofRun category.toList, .integer icon]
    | .relation source target style =>
        .relation :: .ofRun header.name.toList :: (markTokens source.unique ++
          .ofRun source.category.toList :: (markTokens target.unique ++
            [.ofRun target.category.toList, .integer style.base, .integer style.line,
              .integer style.width, .integer style.tip]))

variable {header : Header}

/-- What is written for a header is taken apart at its blanks. -/
theorem tokens_source (hwords : ∀ word ∈ header.words, IsRun word.toList) :
    tokens (header.source.toList ++ [' ']) = header.writtenTokens := by
  obtain ⟨name, unique, kind⟩ := header
  cases kind with
  | entity category icon =>
      simp only [words, List.forall_mem_cons] at hwords
      obtain ⟨hname, hcategory, -⟩ := hwords
      rw [toList_source_entity, tokens_markSource, tokens_entity, tokens_run hname rfl,
        tokens_run hcategory rfl, tokens_numberSource, tokens_nil]
      rfl
  | relation source target style =>
      simp only [words, List.forall_mem_cons] at hwords
      obtain ⟨hname, hsource, htarget, -⟩ := hwords
      rw [toList_source_relation, tokens_markSource, tokens_relation, tokens_run hname rfl,
        tokens_markSource, tokens_run hsource rfl, tokens_markSource, tokens_run htarget rfl,
        tokens_numberSource, tokens_numberSource, tokens_numberSource, tokens_numberSource,
        tokens_nil]
      rfl

/-- The tokens spell the header that their words say. -/
theorem spells_writtenTokens {f : String → String}
    (hwords : ∀ word ∈ header.words, Names (.ofRun word.toList) (f word)) :
    Spells header.writtenTokens (header.mapWords f) := by
  obtain ⟨name, unique, kind⟩ := header
  cases kind with
  | entity category icon =>
      simp only [words, List.forall_mem_cons] at hwords
      obtain ⟨hname, hcategory, -⟩ := hwords
      have hspells := @Spells.entity unique (.word "entity") _ _ [] "entity" _ _ icon rfl (.inl rfl)
        hname hcategory
      simpa [writtenTokens, mapWords] using hspells
  | relation source target style =>
      simp only [words, List.forall_mem_cons] at hwords
      obtain ⟨hname, hsource, htarget, -⟩ := hwords
      have hspells := @Spells.relation unique source.unique target.unique _ _ _ [] _ _ _
        style.base style.line style.width style.tip (.inl rfl) hname hsource htarget
      simpa [writtenTokens, mapWords] using hspells

/-- What is written for a header is read as the header. -/
theorem parse_source (hwords : ∀ word ∈ header.words, IsWord word) :
    parse (header.source.toList ++ [' ']) = .ok header := by
  have hspells : Spells header.writtenTokens (header.mapWords id) :=
    spells_writtenTokens fun word hword => (hwords word hword).names
  rw [mapWords_id] at hspells
  rwa [parse_eq_ok, tokens_source fun word hword => (hwords word hword).isRun]

theorem IsRun.colon_notMem {run : List Char} (h : IsRun run) : ':' ∉ run :=
  fun hmem => absurd (h.isRunChar ':' hmem) (by decide)

theorem colon_notMem_markSource (written : Bool) : ':' ∉ (markSource written).toList := by
  cases written <;> decide

theorem colon_notMem_source_of_isRun (hwords : ∀ word ∈ header.words, IsRun word.toList) :
    ':' ∉ header.source.toList ++ [' '] := by
  obtain ⟨name, unique, kind⟩ := header
  have hnumber (n : Int32) := (isRun_numberSource n).colon_notMem
  cases kind with
  | entity category icon =>
      simp only [words, List.forall_mem_cons] at hwords
      obtain ⟨hname, hcategory, -⟩ := hwords
      rw [toList_source_entity]
      simp [colon_notMem_markSource, hname.colon_notMem, hcategory.colon_notMem, hnumber]
  | relation source target style =>
      simp only [words, List.forall_mem_cons] at hwords
      obtain ⟨hname, hsource, htarget, -⟩ := hwords
      rw [toList_source_relation]
      simp [colon_notMem_markSource, hname.colon_notMem, hsource.colon_notMem,
        htarget.colon_notMem, hnumber]

/-- A header holds no colon, so the one behind it is the first. -/
theorem colon_notMem_source (hwords : ∀ word ∈ header.words, IsWord word) :
    ':' ∉ header.source.toList ++ [' '] :=
  colon_notMem_source_of_isRun fun word hword => (hwords word hword).isRun

end Header

end Stencil
