import Stencil.Proofs.Snippet.Split

/-!
# Every clause is accounted for

The pieces of a section between semicolons, blank ones left out, are its clauses, and each is
found at its place in the block (`Placed`). If all of them can be read and the header can, they
make up the definition in their order; if not, there is one error for each that cannot, at its
place and in its order (`Faults`), and none besides (`every_clause_accounted_for`).
-/

namespace Stencil

namespace Snippet

variable {pos : Nat} {block text piece : List Char} {pieces : List (List Char)}

/-! ### Faults -/

section Read

variable {φ α : Type} {read : List Char → Except φ α} {error : Span → φ → Error}
  {spans : List Span} {found : List Error} {cs : List Clause}

/-- The errors of pieces that are found at these spans: one for each that cannot be read, in
their order. -/
inductive Faults (read : List Char → Except φ α) (error : Span → φ → Error) :
    List (List Char) → List Span → List Error → Prop where
  | nil : Faults read error [] [] []
  | good {piece : List Char} {pieces : List (List Char)} {span : Span} {spans : List Span}
      {found : List Error} {a : α} :
      read (clauseText piece) = .ok a → Faults read error pieces spans found →
        Faults read error (piece :: pieces) (span :: spans) found
  | bad {piece : List Char} {pieces : List (List Char)} {span : Span} {spans : List Span}
      {found : List Error} {fault : φ} :
      read (clauseText piece) = .error fault → Faults read error pieces spans found →
        Faults read error (piece :: pieces) (span :: spans) (error span fault :: found)

/-- A clause as it is read, with the fault told at its span. -/
def readClause (read : List Char → Except φ α) (error : Span → φ → Error) (clause : Clause) :
    Except Error α :=
  (read clause.text).mapError (error clause.span)

theorem faults_errors (read : List Char → Except φ α) (error : Span → φ → Error)
    (h : List.Forall₂ (ClauseOf pos text) pieces cs) :
    Faults read error pieces (cs.map (·.span))
      (errors (cs.map (readClause read error))) := by
  induction h with
  | nil => exact .nil
  | @cons piece clause pieces cs hclause _ ih =>
      rw [List.map_cons, List.map_cons, readClause, hclause.text_eq]
      cases hread : read (clauseText piece) with
      | ok a => exact .good hread ih
      | error fault => exact .bad hread ih

/-- There is no error just when all pieces can be read. -/
theorem Faults.eq_nil_iff (h : Faults read error pieces spans found) :
    found = [] ↔ ∀ piece ∈ pieces, ∃ a, read (clauseText piece) = .ok a := by
  induction h with
  | nil => simp
  | good hread _ ih => rw [ih, List.forall_mem_cons, and_iff_right ⟨_, hread⟩]
  | bad hread _ _ => simp [hread]

/-- The pieces are read as these items, one for one. -/
def ReadAs (read : List Char → Except φ α) (pieces : List (List Char)) (items : List α) : Prop :=
  List.Forall₂ (fun piece a => read (clauseText piece) = .ok a) pieces items

/-- All pieces are read as these items just when the clauses have these results and no error. -/
theorem readAs_iff (error : Span → φ → Error) (h : List.Forall₂ (ClauseOf pos text) pieces cs)
    {items : List α} :
    ReadAs read pieces items ↔
      errors (cs.map (readClause read error)) = [] ∧
        results (cs.map (readClause read error)) = items := by
  unfold ReadAs
  induction h generalizing items with
  | nil =>
      rw [List.forall₂_nil_left_iff]
      exact ⟨fun hitems => ⟨rfl, hitems.symm⟩, fun hnone => hnone.2.symm⟩
  | @cons piece clause pieces cs hclause _ ih =>
      rw [List.forall₂_cons_left_iff, List.map_cons, readClause, hclause.text_eq]
      cases hread : read (clauseText piece) with
      | ok a =>
          constructor
          · rintro ⟨_, items, heq, hitems, rfl⟩
            obtain rfl := Except.ok.inj heq
            obtain ⟨hnone, rfl⟩ := ih.mp hitems
            exact ⟨hnone, rfl⟩
          · rintro ⟨hnone, rfl⟩
            exact ⟨a, _, rfl, ih.mpr ⟨hnone, rfl⟩, rfl⟩
      | error fault =>
          refine iff_of_false ?_ fun hnone => List.cons_ne_nil _ _ hnone.1
          rintro ⟨_, _, heq, -⟩
          cases heq

end Read

/-! ### Blocks with all three markers -/

variable {s : Sections} {definition : Snippet}

theorem ofSections_eq_ok_iff :
    ofSections s = .ok definition ↔
      readHeader s.header = .ok definition.toHeader ∧
        (errors ((clauses s.attributesStart s.attributes).map readAttribute) = [] ∧
          results ((clauses s.attributesStart s.attributes).map readAttribute) =
            definition.attributes) ∧
        errors ((clauses s.patternsStart s.patterns).map readPattern) = [] ∧
          results ((clauses s.patternsStart s.patterns).map readPattern) =
            definition.patterns := by
  obtain ⟨header, attributes, patterns⟩ := definition
  simp only [ofSections]
  constructor
  · intro h
    split at h
    · next hheader hnone =>
        obtain ⟨hleft, hpatterns⟩ := List.append_eq_nil_iff.mp hnone
        obtain ⟨-, hattributes⟩ := List.append_eq_nil_iff.mp hleft
        cases h
        exact ⟨hheader, ⟨hattributes, rfl⟩, hpatterns, rfl⟩
    · cases h
  · rintro ⟨hheader, ⟨hattributes, rfl⟩, hpatterns, rfl⟩
    rw [hheader, hattributes, hpatterns]
    rfl

theorem exists_ofSections_eq_ok_iff :
    (∃ definition, ofSections s = .ok definition) ↔
      (∃ header, readHeader s.header = .ok header) ∧
        errors ((clauses s.attributesStart s.attributes).map readAttribute) = [] ∧
        errors ((clauses s.patternsStart s.patterns).map readPattern) = [] := by
  constructor
  · rintro ⟨definition, h⟩
    obtain ⟨hheader, ⟨hattributes, -⟩, hpatterns, -⟩ := ofSections_eq_ok_iff.mp h
    exact ⟨⟨_, hheader⟩, hattributes, hpatterns⟩
  · rintro ⟨⟨header, hheader⟩, hattributes, hpatterns⟩
    exact ⟨{ header with attributes := _, patterns := _ },
      ofSections_eq_ok_iff.mpr ⟨hheader, ⟨hattributes, rfl⟩, hpatterns, rfl⟩⟩

/-- The spans lie in the section, and in each stands the piece of the same place, trimmed. -/
structure Placed (block : List Char) (within : Span) (pieces : List (List Char))
    (spans : List Span) : Prop where
  texts : List.Forall₂ (fun piece span => Text.slice block span = Text.bytes (Text.trim piece))
    pieces spans
  inside : ∀ span ∈ spans,
    within.start ≤ span.start ∧ span.start < span.stop ∧ span.stop ≤ within.stop

theorem slice_of_clauseOf {before after : List Char} {clause : Clause}
    (hblock : block = before ++ text ++ after)
    (h : ClauseOf (Text.size before) text piece clause) :
    Text.slice block clause.span = Text.bytes (Text.trim piece) := by
  obtain ⟨lead, trail, rfl, hspan⟩ := h.place
  have hslice := Text.slice_append (before ++ lead) (Text.trim piece) (trail ++ after)
  rw [Text.size_append, ← hspan] at hslice
  rw [hblock, ← hslice]
  simp only [List.append_assoc]

theorem placed_clauses {before after : List Char} (hblock : block = before ++ text ++ after) :
    Placed block (.ofText (Text.size before) text) (writtenPieces text)
      ((clauses (Text.size before) text).map (·.span)) where
  texts := by
    rw [List.forall₂_map_right_iff]
    exact (forall₂_clauses _ text).imp fun _ _ hclause => slice_of_clauseOf hblock hclause
  inside := by
    rw [List.forall_mem_map]
    exact fun clause hmem => span_of_mem_clauses hmem

theorem pairwise_spans (s : Sections) :
    ((clauses s.attributesStart s.attributes).map (·.span) ++
      (clauses s.patternsStart s.patterns).map (·.span)).Pairwise
        fun a b => a.stop < b.start := by
  rw [List.pairwise_append, List.pairwise_map, List.pairwise_map]
  refine ⟨pairwise_clausesFrom _ _, pairwise_clausesFrom _ _, fun a ha b hb => ?_⟩
  obtain ⟨clause, hclause, rfl⟩ := List.mem_map.mp ha
  obtain ⟨later, hlater, rfl⟩ := List.mem_map.mp hb
  have hstop := (span_of_mem_clauses hclause).2.2
  have hstart := (span_of_mem_clauses hlater).1
  have hmarker : s.attributesStart + Text.size s.attributes < s.patternsStart :=
    Nat.lt_add_of_pos_right (by decide)
  omega

/-- The error of an attribute whose clause is at this span. -/
def attributeError (span : Span) (fault : AttributeFault) : Error :=
  .badAttribute span fault.message

/-- The error of a pattern whose clause is at this span. -/
def patternError (span : Span) (fault : PatternFault) : Error := .badPattern span fault.message

theorem exists_headerError (outcome : Except Error Header) :
    ∃ headerError? : Option Error, errors [outcome] = headerError?.toList ∧
      ∀ e, headerError? = some e ↔ outcome = .error e := by
  cases outcome with
  | ok header => exact ⟨none, rfl, by simp⟩
  | error e => exact ⟨some e, rfl, by simp⟩

/-- In a block with all three markers every clause is accounted for. A definition has one
attribute or pattern for each piece that is not blank, in their order. If there is none, the
errors are that of the header, if it has one, then one for each attribute and then one for each
pattern that cannot be read, and the bytes at which the error is are the trimmed piece. -/
theorem every_clause_accounted_for {block : String} {s : Sections}
    (hs : Sections.ofBlock block.toList = .ok s) :
    ∃ (headerError? : Option Error) (attributeSpans patternSpans : List Span)
      (attributeErrors patternErrors : List Error),
      ((∃ definition, parse block = .ok definition) ↔
        (∃ header, readHeader s.header = .ok header) ∧
        (∀ piece ∈ writtenPieces s.attributes, ∃ a, parseAttribute (clauseText piece) = .ok a) ∧
        ∀ piece ∈ writtenPieces s.patterns, ∃ p, parsePattern (clauseText piece) = .ok p) ∧
      (∀ definition, parse block = .ok definition ↔
        readHeader s.header = .ok definition.toHeader ∧
        ReadAs parseAttribute (writtenPieces s.attributes) definition.attributes ∧
        ReadAs parsePattern (writtenPieces s.patterns) definition.patterns) ∧
      (∀ found, parse block = .error found →
        found = headerError?.toList ++ attributeErrors ++ patternErrors) ∧
      (∀ e, headerError? = some e ↔ readHeader s.header = .error e) ∧
      Faults parseAttribute attributeError (writtenPieces s.attributes) attributeSpans
        attributeErrors ∧
      Faults parsePattern patternError (writtenPieces s.patterns) patternSpans patternErrors ∧
      Placed block.toList s.attributesSpan (writtenPieces s.attributes) attributeSpans ∧
      Placed block.toList s.patternsSpan (writtenPieces s.patterns) patternSpans ∧
      (attributeSpans ++ patternSpans).Pairwise (fun a b => a.stop < b.start) := by
  have hsplit := Sections.isSplitOf_of_ofBlock hs
  obtain ⟨_, hattributesAt⟩ := Sections.eq_around_attributes hsplit
  obtain ⟨_, hpatternsAt⟩ := Sections.eq_around_patterns hsplit
  have hattributesPlaced := placed_clauses hattributesAt
  have hpatternsPlaced := placed_clauses hpatternsAt
  rw [← Sections.attributesStart_eq] at hattributesPlaced
  rw [← Sections.patternsStart_eq] at hpatternsPlaced
  have hattributes := forall₂_clauses s.attributesStart s.attributes
  have hpatterns := forall₂_clauses s.patternsStart s.patterns
  have hattributeFaults := faults_errors parseAttribute attributeError hattributes
  have hpatternFaults := faults_errors parsePattern patternError hpatterns
  obtain ⟨headerError?, hheaderErrors, hheader⟩ := exists_headerError (readHeader s.header)
  refine ⟨headerError?, _, _, _, _, ?_, fun definition => ?_, fun found hfound => ?_, hheader,
    hattributeFaults, hpatternFaults, hattributesPlaced, hpatternsPlaced, pairwise_spans s⟩
  · rw [parse_eq_ofSections hs, exists_ofSections_eq_ok_iff, ← hattributeFaults.eq_nil_iff,
      ← hpatternFaults.eq_nil_iff]
    rfl
  · rw [parse_eq_ofSections hs, ofSections_eq_ok_iff, readAs_iff attributeError hattributes,
      readAs_iff patternError hpatterns]
    rfl
  · rw [← hheaderErrors]
    exact ofSections_eq_error (parse_eq_ofSections hs ▸ hfound)

/-- A block with something wrong in each of its parts, behind letters of two bytes. -/
def faultyBlock : String := "entity é : ü=1;; a b=2 ; begin #é#; ?x end"

def faultySections : Sections :=
  ⟨"entity é ".toList, " ü=1;; a b=2 ; ".toList, " #é#; ?x ".toList, []⟩

def faultyErrors : List Error :=
  [.badHeader ⟨10, 9⟩ "Unexpected end of header" [],
    .badAttribute ⟨19, 24⟩ "attribute name 'a b' contains whitespace",
    .badPattern ⟨39, 41⟩ "conditional pattern has no '='"]

theorem every_clause_accounted_for_faultyBlock :
    Sections.ofBlock faultyBlock.toList = .ok faultySections ∧
      parse faultyBlock = .error faultyErrors ∧
      (¬ ∃ definition, parse faultyBlock = .ok definition) ∧
      ∃ (headerError? : Option Error) (attributeSpans : List Span)
        (attributeErrors patternErrors : List Error),
        faultyErrors = headerError?.toList ++ attributeErrors ++ patternErrors ∧
        Faults parseAttribute attributeError [" ü=1".toList, " a b=2 ".toList] attributeSpans
          attributeErrors ∧
        Placed faultyBlock.toList ⟨11, 27⟩ [" ü=1".toList, " a b=2 ".toList] attributeSpans := by
  have hs : Sections.ofBlock faultyBlock.toList = .ok faultySections := by decide +kernel
  have hparse : parse faultyBlock = .error faultyErrors := by decide +kernel
  have hspan : faultySections.attributesSpan = ⟨11, 27⟩ := by decide
  have hpieces : writtenPieces faultySections.attributes =
      [" ü=1".toList, " a b=2 ".toList] := by
    decide +kernel
  have hblank : parseAttribute (clauseText " a b=2 ".toList) = .error (.blankInName "a b") := by
    decide +kernel
  obtain ⟨headerError?, attributeSpans, _, attributeErrors, patternErrors, hexists, -, hfound, -,
    hfaults, -, hplaced, -⟩ := every_clause_accounted_for hs
  rw [hpieces] at hexists hfaults hplaced
  rw [hspan] at hplaced
  refine ⟨hs, hparse, ?_, headerError?, attributeSpans, attributeErrors, patternErrors,
    hfound _ hparse, hfaults, hplaced⟩
  rw [hexists]
  rintro ⟨-, hattributes, -⟩
  obtain ⟨a, ha⟩ := hattributes " a b=2 ".toList (List.mem_cons_of_mem _ List.mem_cons_self)
  rw [hblank] at ha
  cases ha

end Snippet

end Stencil
