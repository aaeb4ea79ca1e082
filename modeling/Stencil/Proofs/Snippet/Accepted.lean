import Stencil.Proofs.Header.Words
import Stencil.Proofs.Snippet.Account
import Stencil.Proofs.Snippet.Printer

/-!
# What is accepted is well formed

The text of a clause is not empty, is trimmed and holds no semicolon and no line break
(`isClauseText_of_mem_clauses`): a line break that is dropped stands between characters that stay.
From such a text only attributes and patterns are read that can be written
(`writable_of_parseAttribute`, `writable_of_parsePattern`), and from a header only words. So a
definition that was read is read back from what is written for it, unless a line break was dropped
inside a `begin` (`parse_source_of_parse`).
-/

namespace Stencil

namespace Snippet

variable {pos : Nat} {text clause : List Char}

/-! ### Clauses -/

theorem joinLines_append (s t : List Char) :
    joinLines (s ++ t) = joinLines s ++ joinLines t := List.filter_append s t

theorem joinLines_singleton {c : Char} (h : Text.isBlank c = false) : joinLines [c] = [c] := by
  refine List.filter_cons_of_pos ?_
  simp only [Bool.and_eq_true, bne_iff_ne]
  constructor
  · rintro rfl
    exact absurd h (by decide)
  · rintro rfl
    exact absurd h (by decide)

/-- The line breaks of a trimmed text stand inside, so that it stays trimmed without them. -/
theorem trim_joinLines {s : List Char} (h : Text.trim s = s) :
    Text.trim (joinLines s) = joinLines s := by
  obtain ⟨hhead, hlast⟩ := Text.trim_eq_self_iff.mp h
  rw [Text.trim_eq_self_iff]
  constructor
  · intro c hc
    cases s with
    | nil => cases hc
    | cons d s =>
        have hd := hhead d rfl
        rw [← List.singleton_append, joinLines_append, joinLines_singleton hd] at hc
        rwa [← Option.some.inj hc]
  · intro c hc
    rcases List.eq_nil_or_concat s with rfl | ⟨s, d, rfl⟩
    · cases hc
    · rw [List.concat_eq_append] at hlast hc
      have hd := hlast d List.getLast?_concat
      rw [joinLines_append, joinLines_singleton hd, List.getLast?_concat] at hc
      rwa [← Option.some.inj hc]

theorem joinLines_ne_nil {s : List Char} (hne : s ≠ []) (h : Text.trim s = s) :
    joinLines s ≠ [] := by
  obtain ⟨c, s, rfl⟩ := List.exists_cons_of_ne_nil hne
  have hc := (Text.trim_eq_self_iff.mp h).1 c rfl
  rw [← List.singleton_append, joinLines_append, joinLines_singleton hc]
  exact List.cons_ne_nil _ _

theorem isClauseText_clauseText {piece : List Char} (hne : Text.trim piece ≠ [])
    (hpiece : ';' ∉ piece) : IsClauseText (clauseText piece) where
  ne_nil := joinLines_ne_nil hne (Text.trim_trim piece)
  trim := trim_joinLines (Text.trim_trim piece)
  inline := by
    intro c hc
    obtain ⟨hmem, hkeep⟩ := List.mem_filter.mp hc
    rw [Bool.and_eq_true, bne_iff_ne, bne_iff_ne] at hkeep
    have hsemicolon : c ≠ ';' := by
      rintro rfl
      exact hpiece (Text.mem_of_mem_trim hmem)
    simp [hsemicolon, hkeep]

theorem isClauseText_of_mem_clauses {c : Clause} (h : c ∈ clauses pos text) :
    IsClauseText c.text := by
  obtain ⟨piece, hmem, hclause⟩ := exists_of_mem_clauses h
  rw [writtenPieces_eq] at hmem
  have hpiece := (List.mem_filter.mp hmem).1
  rw [hclause.text_eq]
  refine isClauseText_clauseText hclause.trim_ne_nil fun hsemicolon => ?_
  exact absurd (Text.eq_false_of_mem_pieces hpiece _ hsemicolon) (by decide)

/-! ### Attributes -/

theorem exists_cutOff (sep : Char) (s : List Char) :
    ∃ front part?, cutOff sep s = (front, part?.map String.toList) ∧ sep ∉ front ∧
      s = front ++ optionalPart sep part? := by
  unfold cutOff
  cases hcut : Text.cutAt? sep s with
  | none => exact ⟨s, none, rfl, Text.cutAt?_eq_none_iff.mp hcut, (List.append_nil s).symm⟩
  | some cut =>
      obtain ⟨front, back⟩ := cut
      obtain ⟨hsplit, hfront⟩ := Text.cutAt?_eq_some_iff.mp hcut
      refine ⟨front, some (String.ofList back), ?_, hfront, ?_⟩
      · rw [Option.map_some, String.toList_ofList]
      · rw [hsplit, optionalPart, Option.map_some, Option.getD_some, String.toList_ofList]

theorem mem_optionalPart {sep c : Char} {part? : Option String} {part : String}
    (hpart : part? = some part) (hc : c ∈ part.toList) : c ∈ optionalPart sep part? := by
  rw [hpart]
  exact List.mem_cons_of_mem _ hc

theorem trimEnd_of_optionalPart {sep : Char} {s : List Char} {part? : Option String}
    {part : String} (h : Text.trimEnd (s ++ optionalPart sep part?) = s ++ optionalPart sep part?)
    (hpart : part? = some part) : Text.trimEnd part.toList = part.toList := by
  have hsplit : s ++ optionalPart sep part? = s ++ [sep] ++ part.toList := by
    rw [hpart, List.append_assoc]
    rfl
  rw [hsplit] at h
  exact Text.trimEnd_eq_self_of_append h

theorem isInline_ofList {s : List Char} (h : ∀ c ∈ s, c ∉ [';', '\n', '\r']) :
    IsInline (String.ofList s) := by
  rwa [IsInline, String.toList_ofList]

theorem isInline_ofList_trim {s : List Char} (h : ∀ c ∈ s, c ∉ [';', '\n', '\r']) :
    IsInline (String.ofList (Text.trim s)) :=
  isInline_ofList fun c hc => h c (Text.mem_of_mem_trim hc)

/-- What is read of a clause: a name in front of an equals sign and a colon, either of which may
be missing. -/
theorem exists_of_parseAttribute {a : Attribute} (h : parseAttribute clause = .ok a) :
    ∃ name initial?, '=' ∉ name ∧ ':' ∉ name ++ optionalPart '=' initial? ∧
      clause = name ++ optionalPart '=' initial? ++ optionalPart ':' a.options? ∧
      Text.trim name ≠ [] ∧ (∀ c ∈ Text.trim name, Text.isBlank c = false) ∧
      a.name = String.ofList (Text.trim name) ∧ a.default? = initial?.map trimmed := by
  obtain ⟨declared, options?, hcolonCut, hcolon, hclause⟩ := exists_cutOff ':' clause
  obtain ⟨name, initial?, hequalsCut, hequals, hdeclared⟩ := exists_cutOff '=' declared
  unfold parseAttribute at h
  simp only [hcolonCut, hequalsCut] at h
  split at h
  · cases h
  · next hempty =>
      split at h
      · cases h
      · next hblank =>
          obtain rfl := Except.ok.inj h
          have hoptions : (options?.map String.toList).map String.ofList = options? := by
            cases options? <;> simp
          refine ⟨name, initial?, hequals, hdeclared ▸ hcolon, ?_, by simpa using hempty,
            by simpa using hblank, rfl, Option.map_map _ _ _⟩
          rw [hclause, hdeclared, hoptions]

theorem writable_of_parseAttribute {a : Attribute} (hclause : IsClauseText clause)
    (h : parseAttribute clause = .ok a) : a.Writable := by
  obtain ⟨name, initial?, hequals, hcolon, rfl, hne, hblank, hname, hdefault⟩ :=
    exists_of_parseAttribute h
  have hinline := hclause.inline
  rw [List.forall_mem_append, List.forall_mem_append] at hinline
  rw [List.mem_append, not_or] at hcolon
  constructor
  · rw [hname]
    simpa using hne
  · intro c hc
    rw [hname, String.toList_ofList] at hc
    have hmem := Text.mem_of_mem_trim hc
    refine ⟨hblank c hc, ?_⟩
    have hsemicolon := hinline.1.1 c hmem
    simp only [List.mem_cons, List.not_mem_nil, or_false, not_or] at hsemicolon ⊢
    exact ⟨ne_of_mem_of_not_mem hmem hequals, ne_of_mem_of_not_mem hmem hcolon.1, hsemicolon.1⟩
  · intro d hd
    rw [hdefault] at hd
    obtain ⟨initial, hinitial, rfl⟩ := Option.map_eq_some_iff.mp hd
    refine ⟨trimmed_ofList_trim _, fun hmem => ?_, isInline_ofList_trim fun c hc => ?_⟩
    · rw [trimmed, String.toList_ofList] at hmem
      exact hcolon.2 (mem_optionalPart hinitial (Text.mem_of_mem_trim hmem))
    · exact hinline.1.2 c (mem_optionalPart hinitial hc)
  · intro o ho
    refine ⟨?_, fun c hc => hinline.2 c (mem_optionalPart ho hc)⟩
    exact trimEnd_of_optionalPart (Text.trimEnd_eq_self_of_trim hclause.trim) ho

/-! ### Patterns -/

theorem writable_conditional {guard value main alternative : List Char}
    (hclause : IsClauseText
      ('?' :: (guard ++ '=' :: (value ++ ':' :: (main ++ ':' :: alternative)))))
    (hguard : '=' ∉ guard) (hvalue : ':' ∉ value) (hmain : ':' ∉ main)
    (hne : Text.trim guard ≠ []) :
    (Pattern.conditional (String.ofList (Text.trim guard)) (String.ofList (Text.trim value))
      (String.ofList main) (String.ofList alternative)).Writable := by
  have hinline := hclause.inline
  simp only [List.forall_mem_cons, List.forall_mem_append] at hinline
  obtain ⟨-, hguardInline, -, hvalueInline, -, hmainInline, -, halternativeInline⟩ := hinline
  refine .conditional ?_ (trimmed_ofList_trim guard) ?_ (trimmed_ofList_trim value) ?_ ?_ ?_ ?_
  case refine_1 => simpa using hne
  case refine_2 =>
    rw [String.toList_ofList]
    exact fun hmem => hguard (Text.mem_of_mem_trim hmem)
  case refine_3 =>
    rw [String.toList_ofList]
    exact fun hmem => hvalue (Text.mem_of_mem_trim hmem)
  case refine_4 => rwa [String.toList_ofList]
  case refine_5 =>
    have htrim := Text.trimEnd_eq_self_of_trim hclause.trim
    have hsplit : '?' :: (guard ++ '=' :: (value ++ ':' :: (main ++ ':' :: alternative))) =
        '?' :: (guard ++ '=' :: (value ++ ':' :: (main ++ [':']))) ++ alternative := by simp
    rw [hsplit] at htrim
    rw [String.toList_ofList]
    exact Text.trimEnd_eq_self_of_append htrim
  case refine_6 =>
    simp only [List.forall_mem_cons]
    exact ⟨isInline_ofList_trim hguardInline, isInline_ofList_trim hvalueInline,
      isInline_ofList hmainInline, isInline_ofList halternativeInline,
      fun _ h => absurd h List.not_mem_nil⟩

/-- What is read of a clause: the clause itself, or what stands between a question mark, an equals
sign and two colons. -/
theorem exists_of_parsePattern {p : Pattern} (h : parsePattern clause = .ok p) :
    (clause.head? ≠ some '?' ∧ p = .literal (String.ofList clause)) ∨
      ∃ guard value main alternative, '=' ∉ guard ∧ ':' ∉ value ∧ ':' ∉ main ∧
        Text.trim guard ≠ [] ∧
        clause = '?' :: (guard ++ '=' :: (value ++ ':' :: (main ++ ':' :: alternative))) ∧
        p = .conditional (String.ofList (Text.trim guard)) (String.ofList (Text.trim value))
          (String.ofList main) (String.ofList alternative) := by
  unfold parsePattern at h
  split at h
  · next choice =>
      split at h
      · cases h
      · next guard rest hequals =>
          split at h
          · cases h
          · next value templates hcolon =>
              split at h
              · cases h
              · next main alternative hcolon' =>
                  simp only at h
                  split at h
                  · cases h
                  · next hempty =>
                      obtain ⟨rfl, hguard⟩ := Text.cutAt?_eq_some_iff.mp hequals
                      obtain ⟨rfl, hvalue⟩ := Text.cutAt?_eq_some_iff.mp hcolon
                      obtain ⟨rfl, hmain⟩ := Text.cutAt?_eq_some_iff.mp hcolon'
                      exact .inr ⟨guard, value, main, alternative, hguard, hvalue, hmain,
                        by simpa using hempty, rfl, (Except.ok.inj h).symm⟩
  · next hquestion =>
      refine .inl ⟨fun hhead => ?_, (Except.ok.inj h).symm⟩
      obtain ⟨choice, hchoice⟩ := List.head?_eq_some_iff.mp hhead
      exact hquestion choice hchoice

theorem writable_of_parsePattern {p : Pattern} (hclause : IsClauseText clause)
    (h : parsePattern clause = .ok p) : p.Writable := by
  rcases exists_of_parsePattern h with
    ⟨hhead, rfl⟩ | ⟨guard, value, main, alternative, hguard, hvalue, hmain, hne, rfl, rfl⟩
  · constructor
    · simpa using hclause.ne_nil
    · rw [trimmed, String.toList_ofList, hclause.trim]
    · rwa [String.toList_ofList]
    · exact isInline_ofList hclause.inline
  · exact writable_conditional hclause hguard hvalue hmain hne

/-! ### Definitions -/

section Definition

variable {block : String} {sections : Sections} {s : Snippet}

/-- What is among the results of a section was read from the text of a clause. -/
theorem exists_of_mem_results {φ α : Type} {read : List Char → Except φ α}
    (error : Span → φ → Error) {a : α}
    (h : a ∈ results ((clauses pos text).map (readClause read error))) :
    ∃ clause, IsClauseText clause ∧ read clause = .ok a := by
  obtain ⟨c, hc, hread⟩ := List.mem_map.mp (mem_results.mp h)
  exact ⟨c.text, isClauseText_of_mem_clauses hc, mapError_eq_ok.mp hread⟩

theorem exists_ofSections_of_parse (h : parse block = .ok s) :
    ∃ sections, ofSections sections = .ok s := by
  unfold parse at h
  split at h
  · next sections _ => exact ⟨sections, h⟩
  · cases h

theorem isWord_of_ofSections (h : ofSections sections = .ok s) :
    ∀ word ∈ s.toHeader.words, Header.IsWord word :=
  Header.isWord_of_parse (mapError_eq_ok.mp (ofSections_eq_ok_iff.mp h).1)

theorem writable_attributes_of_ofSections (h : ofSections sections = .ok s) :
    ∀ a ∈ s.attributes, a.Writable := by
  intro a ha
  rw [← (ofSections_eq_ok_iff.mp h).2.1.2] at ha
  obtain ⟨clause, hclause, hread⟩ := exists_of_mem_results attributeError ha
  exact writable_of_parseAttribute hclause hread

theorem writable_patterns_of_ofSections (h : ofSections sections = .ok s) :
    ∀ p ∈ s.patterns, p.Writable := by
  intro p hp
  rw [← (ofSections_eq_ok_iff.mp h).2.2.2] at hp
  obtain ⟨clause, hclause, hread⟩ := exists_of_mem_results patternError hp
  exact writable_of_parsePattern hclause hread

/-- A definition that was read is read back from the block that is written for it. A `begin` may
have come into its attributes when a line break was dropped. -/
theorem parse_source_of_parse (h : parse block = .ok s)
    (hbegin : ¬ Text.HasWord "begin".toList none
      (clausesSource (s.attributes.map (·.source))).toList) :
    parse s.source = .ok s := by
  obtain ⟨sections, hsections⟩ := exists_ofSections_of_parse h
  exact parse_source_eq_ok ⟨isWord_of_ofSections hsections,
    writable_attributes_of_ofSections hsections, writable_patterns_of_ofSections hsections, hbegin⟩

example : ∃ s, parse "entity a b 0:x=be\ngin;begin end" = .ok s ∧ parse s.source ≠ .ok s :=
  ⟨⟨⟨"a", false, .entity "b" 0⟩, [⟨"x", some "begin", none⟩], []⟩, by decide +kernel,
    by decide +kernel⟩

/-- Whatever is accepted is well formed, in its header, its attributes and its patterns. -/
theorem wellFormed_of_parse (h : parse block = .ok s) :
    (∀ word ∈ s.toHeader.words, Header.IsWord word) ∧ (∀ a ∈ s.attributes, a.Writable) ∧
      ∀ p ∈ s.patterns, p.Writable := by
  obtain ⟨sections, hsections⟩ := exists_ofSections_of_parse h
  exact ⟨isWord_of_ofSections hsections, writable_attributes_of_ofSections hsections,
    writable_patterns_of_ofSections hsections⟩

end Definition

/-- A block with blanks of several kinds and with line breaks around every part. -/
def wrappedBlock : String :=
  "relation 007 !node! + 0 0 0 0 :\n \u00a0k\u2003=\r\n a\n b : c = \n d \u3000;; ü\n; begin\n" ++
    "\n? k\n =\n a b :\r\n : ? x :;\u2003[ \n? ] end end"

/-- What is read from it. -/
def wrapped : Snippet where
  name := "7"
  unique := false
  kind := .relation ⟨"node!", true⟩ ⟨"+", false⟩ ⟨0, 0, 0, 0⟩
  attributes := [⟨"k", some "a b", some " c =  d"⟩, ⟨"ü", none, none⟩]
  patterns := [.conditional "k" "a b" " " " ? x :", .literal "[ ? ] end"]

theorem wellFormed_wrapped :
    parse wrappedBlock = .ok wrapped ∧
      (∀ word ∈ wrapped.toHeader.words, Header.IsWord word) ∧
      (∀ a ∈ wrapped.attributes, a.Writable) ∧ ∀ p ∈ wrapped.patterns, p.Writable := by
  have h : parse wrappedBlock = .ok wrapped := by decide +kernel
  exact ⟨h, wellFormed_of_parse h⟩

end Snippet

end Stencil
