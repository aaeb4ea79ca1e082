import Stencil.Proofs.Header.Printer
import Stencil.Proofs.Snippet.Error
import Stencil.Snippet.Printer

/-!
# Snippets are read as they are written

`Snippet.Writable` lists what the texts of a definition must satisfy for its block to mean
what was written: no text runs into the mark that ends it, and none starts or ends with a
blank that trimming takes off. Patterns may hold `begin`, `end` and colons. Such a
definition is read back as it is (`parse_source_eq_ok`).
-/

namespace Stencil

/-- A text that can stand in a clause: no semicolon ends it, no line break is dropped. -/
def IsInline (s : String) : Prop := ∀ c ∈ s.toList, c ∉ [';', '\n', '\r']

instance (s : String) : Decidable (IsInline s) :=
  decidable_of_iff (s.toList.all (fun c => decide (c ∉ [';', '\n', '\r'])) = true) <| by
    simp only [IsInline, List.all_eq_true, decide_eq_true_eq]

/-- An attribute that is read as it is written. -/
structure Attribute.Writable (a : Attribute) : Prop where
  name_ne_empty : a.name ≠ ""
  name_chars : ∀ c ∈ a.name.toList, Text.isBlank c = false ∧ c ∉ ['=', ':', ';']
  default : ∀ d, a.default? = some d → trimmed d = d ∧ ':' ∉ d.toList ∧ IsInline d
  options : ∀ o, a.options? = some o → Text.trimEnd o.toList = o.toList ∧ IsInline o

/-- A pattern that is read as it is written. -/
inductive Pattern.Writable : Pattern → Prop where
  | literal {template : String} (ne_empty : template ≠ "") (trim : trimmed template = template)
      (head : template.toList.head? ≠ some '?') (inline : IsInline template) :
      Writable (.literal template)
  | conditional {guard value main alternative : String} (guard_ne_empty : guard ≠ "")
      (guard_trim : trimmed guard = guard) (guard_chars : '=' ∉ guard.toList)
      (value_trim : trimmed value = value) (value_chars : ':' ∉ value.toList)
      (main_chars : ':' ∉ main.toList)
      (alternative_trim : Text.trimEnd alternative.toList = alternative.toList)
      (inline : ∀ s ∈ [guard, value, main, alternative], IsInline s) :
      Writable (.conditional guard value main alternative)

namespace Snippet

theorem trim_toList {s : String} (h : trimmed s = s) : Text.trim s.toList = s.toList := by
  have htrim := congrArg String.toList h
  rwa [trimmed, String.toList_ofList] at htrim

/-! ### Attributes -/

/-- A part that may be left out, with the character in front of it. -/
def optionalPart (sep : Char) (part : Option String) : List Char :=
  (part.map fun text => sep :: text.toList).getD []

section OptionalPart

variable {sep : Char} {s : List Char} {part : Option String}

theorem cutOff_append_optionalPart (hs : sep ∉ s) (part : Option String) :
    cutOff sep (s ++ optionalPart sep part) = (s, part.map String.toList) := by
  cases part with
  | none =>
      rw [optionalPart, Option.map_none, Option.getD_none, List.append_nil, cutOff,
        Text.cutAt?_eq_none hs]
      rfl
  | some text =>
      rw [optionalPart, Option.map_some, Option.getD_some, cutOff, Text.cutAt?_append_cons hs]
      rfl

theorem trimEnd_append_optionalPart (hsep : Text.isBlank sep = false) (hs : Text.trimEnd s = s)
    (hpart : ∀ text, part = some text → Text.trimEnd text.toList = text.toList) :
    Text.trimEnd (s ++ optionalPart sep part) = s ++ optionalPart sep part := by
  cases part with
  | none => simpa [optionalPart] using hs
  | some text =>
      have htext := Text.trimEnd_cons_of_not_isBlank hsep (hpart text rfl)
      exact Text.trimEnd_append_of_ne_nil (List.cons_ne_nil sep _) htext s

theorem forall_mem_optionalPart {P : Char → Prop} (hsep : P sep)
    (hpart : ∀ text, part = some text → ∀ c ∈ text.toList, P c) :
    ∀ c ∈ optionalPart sep part, P c := by
  cases part with
  | none => exact fun c hc => absurd hc List.not_mem_nil
  | some text => exact List.forall_mem_cons.mpr ⟨hsep, hpart text rfl⟩

end OptionalPart

variable {a : Attribute} {p : Pattern}

theorem toList_source_attribute (a : Attribute) :
    a.source.toList =
      a.name.toList ++ optionalPart '=' a.default? ++ optionalPart ':' a.options? := by
  rw [Attribute.source, String.toList_append, String.toList_append]
  cases a.default? <;> cases a.options? <;> simp [optionalPart]

theorem trim_name (h : a.Writable) : Text.trim a.name.toList = a.name.toList := by
  rw [Text.trim_eq_self_iff]
  constructor
  · intro c hc
    exact (h.name_chars c (List.mem_of_head? hc)).1
  · intro c hc
    exact (h.name_chars c (List.mem_of_getLast? hc)).1

theorem inline_name (h : a.Writable) : IsInline a.name := by
  intro c hc hmem
  obtain ⟨hblank, hmarks⟩ := h.name_chars c hc
  simp only [List.mem_cons, List.not_mem_nil, or_false] at hmem
  rcases hmem with rfl | rfl | rfl
  · exact hmarks (by decide)
  · exact absurd hblank (by decide)
  · exact absurd hblank (by decide)

theorem isClauseText_attribute (h : a.Writable) : IsClauseText a.source.toList := by
  have hname : a.name.toList ≠ [] := by simpa using h.name_ne_empty
  rw [toList_source_attribute]
  constructor
  · simp [hname]
  · refine Text.trim_eq_self_of_trimEnd ?_ ?_
    · intro c hc
      rw [List.append_assoc, List.head?_append_of_ne_nil _ hname] at hc
      exact (h.name_chars c (List.mem_of_head? hc)).1
    · have hdefault : Text.trimEnd (a.name.toList ++ optionalPart '=' a.default?) =
          a.name.toList ++ optionalPart '=' a.default? :=
        trimEnd_append_optionalPart (by decide) (Text.trimEnd_eq_self_of_trim (trim_name h))
          fun d hd => Text.trimEnd_eq_self_of_trim (trim_toList (h.default d hd).1)
      exact trimEnd_append_optionalPart (by decide) hdefault fun o ho => (h.options o ho).1
  · rw [List.forall_mem_append, List.forall_mem_append]
    refine ⟨⟨inline_name h, ?_⟩, ?_⟩
    · exact forall_mem_optionalPart (by decide) fun d hd => (h.default d hd).2.2
    · exact forall_mem_optionalPart (by decide) fun o ho => (h.options o ho).2

theorem parseAttribute_source (h : a.Writable) : parseAttribute a.source.toList = .ok a := by
  have hequals : '=' ∉ a.name.toList := fun hmem => (h.name_chars _ hmem).2 (by decide)
  have hcolon : ':' ∉ a.name.toList ++ optionalPart '=' a.default? := by
    have hchars : ∀ c ∈ a.name.toList ++ optionalPart '=' a.default?, c ≠ ':' := by
      rw [List.forall_mem_append]
      refine ⟨?_, forall_mem_optionalPart (by decide) ?_⟩
      · rintro c hc rfl
        exact (h.name_chars _ hc).2 (by decide)
      · rintro d hd c hc rfl
        exact (h.default d hd).2.1 hc
    exact fun hmem => hchars _ hmem rfl
  have hname : a.name.toList.isEmpty = false := by simpa using h.name_ne_empty
  have hblank : a.name.toList.any Text.isBlank = false := by
    rw [List.any_eq_false]
    intro c hc
    simp [(h.name_chars c hc).1]
  have hdefault : (a.default?.map String.toList).map (String.ofList ∘ Text.trim) = a.default? := by
    cases hd : a.default? with
    | none => rfl
    | some d => exact congrArg some (h.default d hd).1
  have hoptions : (a.options?.map String.toList).map String.ofList = a.options? := by
    cases a.options? <;> simp
  rw [toList_source_attribute, parseAttribute, cutOff_append_optionalPart hcolon]
  simp only [cutOff_append_optionalPart hequals, trim_name h, hname, hblank, hdefault, hoptions,
    String.ofList_toList, Bool.false_eq_true, if_false]

/-! ### Patterns -/

theorem toList_source_conditional (guard value main alternative : String) :
    (Pattern.conditional guard value main alternative).source.toList =
      '?' :: (guard.toList ++ '=' :: (value.toList ++ ':' :: (main.toList ++
        ':' :: alternative.toList))) := by
  simp [Pattern.source]

theorem isClauseText_pattern (h : p.Writable) : IsClauseText p.source.toList := by
  cases h with
  | literal hne htrim _ hinline =>
      exact ⟨by simpa [Pattern.source] using hne, trim_toList htrim, hinline⟩
  | @conditional guard value main alternative _ _ _ _ _ _ halternative hinline =>
      rw [toList_source_conditional]
      refine ⟨List.cons_ne_nil _ _, Text.trim_eq_self_of_trimEnd ?_ ?_, ?_⟩
      · intro c hc
        obtain rfl := Option.some.inj hc
        decide
      · have hend : Text.trimEnd (':' :: alternative.toList) = ':' :: alternative.toList :=
          Text.trimEnd_cons_of_not_isBlank (by decide) halternative
        have htrim := Text.trimEnd_append_of_ne_nil (List.cons_ne_nil _ _) hend
          ('?' :: (guard.toList ++ '=' :: (value.toList ++ ':' :: main.toList)))
        simpa using htrim
      · simp only [List.forall_mem_cons, List.forall_mem_append]
        simp only [List.forall_mem_cons] at hinline
        obtain ⟨hguard, hvalue, hmain, halternative, -⟩ := hinline
        exact ⟨by decide, hguard, by decide, hvalue, by decide, hmain, by decide, halternative⟩

theorem parsePattern_source (h : p.Writable) : parsePattern p.source.toList = .ok p := by
  cases h with
  | literal _ _ hhead _ =>
      unfold parsePattern
      split
      · next choice hchoice =>
          rw [Pattern.source] at hchoice
          rw [hchoice] at hhead
          exact absurd rfl hhead
      · rw [Pattern.source, String.ofList_toList]
  | @conditional guard value main alternative hne htrim hchars hvalue hvaluechars hmain _ _ =>
      have hguard : guard.toList.isEmpty = false := by simpa using hne
      rw [toList_source_conditional]
      simp only [parsePattern, Text.cutAt?_append_cons hchars, Text.cutAt?_append_cons hvaluechars,
        Text.cutAt?_append_cons hmain, trim_toList htrim, trim_toList hvalue, hguard,
        String.ofList_toList, Bool.false_eq_true, if_false]

/-! ### Blocks -/

/-- A definition that is read as it is written. -/
structure Writable (s : Snippet) : Prop where
  words : ∀ word ∈ s.toHeader.words, Header.IsWord word
  attributes : ∀ a ∈ s.attributes, a.Writable
  patterns : ∀ p ∈ s.patterns, p.Writable
  /-- The attributes do not hold the word that ends them. As a part of a longer word they may. -/
  no_begin : ¬ Text.HasWord "begin".toList none
    (clausesSource (s.attributes.map (·.source))).toList

theorem toList_clausesSource (sources : List String) :
    (clausesSource sources).toList = (sources.map String.toList).flatMap (· ++ [';']) := by
  induction sources with
  | nil => simp [clausesSource]
  | cons source sources ih =>
      rw [clausesSource, String.toList_join] at ih ⊢
      rw [List.map_cons, List.flatMap_cons, ih, List.map_cons, List.flatMap_cons,
        String.toList_append]
      rfl

section Read

variable {α : Type} {items : List α} {read : Clause → Except Error α} {source : α → String}

/-- Clauses with the texts of these items are read as the items. -/
theorem map_read_of_map_text {clauses : List Clause}
    (htexts : clauses.map (·.text) = items.map fun a => (source a).toList)
    (hread : ∀ a ∈ items, ∀ clause : Clause, clause.text = (source a).toList →
      read clause = .ok a) :
    clauses.map read = items.map .ok := by
  induction items generalizing clauses with
  | nil =>
      obtain rfl := List.map_eq_nil_iff.mp htexts
      rfl
  | cons a items ih =>
      cases clauses with
      | nil => cases htexts
      | cons clause clauses =>
          obtain ⟨htext, htexts⟩ := List.cons_eq_cons.mp htexts
          obtain ⟨ha, hitems⟩ := List.forall_mem_cons.mp hread
          rw [List.map_cons, List.map_cons, ha clause htext, ih htexts hitems]

/-- A section is read as the items whose clauses are written in it. -/
theorem map_read_written (hclause : ∀ a ∈ items, IsClauseText (source a).toList)
    (hread : ∀ a ∈ items, ∀ clause : Clause, clause.text = (source a).toList →
      read clause = .ok a) (pos : Nat) :
    (clauses pos (' ' :: (clausesSource (items.map source)).toList ++ [' '])).map read =
      items.map .ok := by
  have hall : ∀ s ∈ items.map fun a => (source a).toList, IsClauseText s :=
    List.forall_mem_map.mpr hclause
  refine map_read_of_map_text ?_ hread
  rw [toList_clausesSource, List.map_map]
  exact map_text_clauses_written hall pos

theorem results_map_ok (items : List α) :
    results (items.map (Except.ok : α → Except Error α)) = items := by
  rw [results, List.filterMap_map]
  exact List.filterMap_some

theorem errors_map_ok (items : List α) :
    errors (items.map (Except.ok : α → Except Error α)) = [] := by
  rw [errors, List.filterMap_map, List.filterMap_eq_nil_iff]
  exact fun a _ => rfl

end Read

variable {s : Snippet}

theorem toList_source (s : Snippet) :
    s.source.toList = (s.toHeader.source.toList ++ [' ']) ++ ':' ::
      (' ' :: (clausesSource (s.attributes.map (·.source))).toList ++ ' ' :: ("begin".toList ++
        (' ' :: (clausesSource (s.patterns.map (·.source))).toList ++ ' ' :: "end".toList))) := by
  simp [source]

theorem readAttribute_of_text (h : a.Writable) {clause : Clause}
    (htext : clause.text = a.source.toList) : readAttribute clause = .ok a := by
  rw [readAttribute, htext, parseAttribute_source h]
  rfl

theorem readPattern_of_text (h : p.Writable) {clause : Clause}
    (htext : clause.text = p.source.toList) : readPattern clause = .ok p := by
  rw [readPattern, htext, parsePattern_source h]
  rfl

/-- A definition is read back from the block that is written for it. -/
theorem parse_source_eq_ok (h : s.Writable) : parse s.source = .ok s := by
  have hsections := Sections.ofBlock_written (Header.colon_notMem_source h.words) h.no_begin
    (clausesSource (s.patterns.map (·.source))).toList
  rw [← toList_source] at hsections
  have hheader : readHeader (s.toHeader.source.toList ++ [' ']) = .ok s.toHeader := by
    rw [readHeader, Header.parse_source h.words]
    rfl
  have hattributes := map_read_written
    (fun a ha => isClauseText_attribute (h.attributes a ha))
    (fun a ha _ => readAttribute_of_text (h.attributes a ha))
  have hpatterns := map_read_written
    (fun p hp => isClauseText_pattern (h.patterns p hp))
    (fun p hp _ => readPattern_of_text (h.patterns p hp))
  rw [parse_eq_ofSections hsections, ofSections]
  simp only [hheader, hattributes, hpatterns, results_map_ok, errors_map_ok]
  rfl

/-! ### A relation with markers in its texts -/

/-- A relation whose texts hold markers and the characters that end other texts. -/
def handover : Snippet where
  name := "-12"
  unique := true
  kind := .relation ⟨"node!", true⟩ ⟨"42", false⟩ ⟨0, -1, 3, 2147483647⟩
  attributes :=
    [⟨"begins", some "a = b", some " red  ?blue: ="⟩, ⟨"note", some "", none⟩,
      ⟨"kind", none, some ""⟩]
  patterns :=
    [.literal "begin #a# : end", .conditional "mode" "end = 1" " begin = " " : ?end"]

theorem isWord_words_handover : ∀ word ∈ handover.toHeader.words, Header.IsWord word := by
  have hname : Header.IsWord "-12" :=
    ⟨by decide, by simp, by decide, by decide, fun _ => ⟨-12, by decide⟩⟩
  have hsource : Header.IsWord "node!" :=
    ⟨by decide, by simp, by decide, by decide, fun h => absurd h (by decide)⟩
  have htarget : Header.IsWord "42" :=
    ⟨by decide, by simp, by decide, by decide, fun _ => ⟨42, by decide⟩⟩
  intro word hword
  simp only [Header.words, handover, List.mem_cons, List.not_mem_nil, or_false] at hword
  rcases hword with rfl | rfl | rfl
  · exact hname
  · exact hsource
  · exact htarget

theorem writable_attributes_handover : ∀ a ∈ handover.attributes, a.Writable := by
  simp only [handover, List.forall_mem_cons]
  refine ⟨⟨by decide, by simp [Text.isBlank], ?_, ?_⟩, ⟨by decide, by simp [Text.isBlank], ?_, ?_⟩,
    ⟨by decide, by simp [Text.isBlank], ?_, ?_⟩, fun _ h => absurd h List.not_mem_nil⟩
  all_goals
    intro text htext
    cases htext
  all_goals decide

theorem writable_patterns_handover : ∀ p ∈ handover.patterns, p.Writable := by
  simp only [handover, List.forall_mem_cons]
  refine ⟨.literal ?_ ?_ ?_ ?_, .conditional ?_ ?_ ?_ ?_ ?_ ?_ ?_ ?_,
    fun _ h => absurd h List.not_mem_nil⟩
  case refine_12 => simp +decide
  all_goals decide

theorem writable_handover : handover.Writable where
  words := isWord_words_handover
  attributes := writable_attributes_handover
  patterns := writable_patterns_handover
  no_begin := by
    rw [← Text.cutFirst?_eq_none_iff (by decide)]
    decide

theorem parse_source_handover :
    handover.source =
        "!relation -12 !node! 42 0 -1 3 2147483647 : " ++
          "begins=a = b: red  ?blue: =;note=;kind:; begin " ++
          "begin #a# : end;?mode=end = 1: begin = : : ?end; end" ∧
      parse handover.source = .ok handover :=
  ⟨by decide +kernel, parse_source_eq_ok writable_handover⟩

end Snippet

end Stencil
