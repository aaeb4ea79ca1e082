import Stencil.Proofs.Header.Failure
import Stencil.Proofs.Snippet.Clause
import Stencil.Proofs.Snippet.Section
import Stencil.Snippet.Parser

/-!
# Where the errors of a block are

Every error of a block lies within the block. Its span runs forward, except for the
error of a header that breaks off (`span_of_parse_eq_error`).
-/

namespace Stencil

namespace Snippet

variable {block : String} {found : List Error} {e : Error} {s : Sections}

section Outcomes

variable {ε ε' α : Type}

theorem mapError_eq_error {outcome : Except ε α} {f : ε → ε'} {e : ε'} :
    outcome.mapError f = .error e ↔ ∃ fault, outcome = .error fault ∧ f fault = e := by
  cases outcome <;> simp [Except.mapError]

theorem mapError_eq_ok {outcome : Except ε α} {f : ε → ε'} {a : α} :
    outcome.mapError f = .ok a ↔ outcome = .ok a := by
  cases outcome <;> simp [Except.mapError]

theorem mem_errors {outcomes : List (Except ε α)} {e : ε} :
    e ∈ errors outcomes ↔ .error e ∈ outcomes := by
  rw [errors, List.mem_filterMap]
  constructor
  · rintro ⟨outcome, hmem, heq⟩
    cases outcome with
    | ok a => cases heq
    | error e' =>
        cases heq
        exact hmem
  · intro hmem
    exact ⟨_, hmem, rfl⟩

theorem mem_results {outcomes : List (Except ε α)} {a : α} :
    a ∈ results outcomes ↔ .ok a ∈ outcomes := by
  rw [results, List.mem_filterMap]
  constructor
  · rintro ⟨outcome, hmem, heq⟩
    cases outcome with
    | ok a' =>
        cases heq
        exact hmem
    | error e => cases heq
  · intro hmem
    exact ⟨_, hmem, rfl⟩

end Outcomes

/-- The errors of a block that has its sections are those of its parts, in order. -/
theorem ofSections_eq_error (h : ofSections s = .error found) :
    found = errors [readHeader s.header] ++
      errors ((clauses s.attributesStart s.attributes).map readAttribute) ++
      errors ((clauses s.patternsStart s.patterns).map readPattern) := by
  unfold ofSections at h
  simp only at h
  split at h
  · cases h
  · exact (Except.error.inj h).symm

/-- Whether the error is about the header of its block. -/
def Error.IsBadHeader (e : Error) : Prop :=
  ∃ span message expected, e = .badHeader span message expected

/-- An error of the sections is that of the header, or it is at a clause. -/
theorem mem_ofSections (h : ofSections s = .error found) (he : e ∈ found) :
    readHeader s.header = .error e ∨
      ¬ e.IsBadHeader ∧ ∃ clause, e.span = clause.span ∧
        (clause ∈ clauses s.attributesStart s.attributes ∨
          clause ∈ clauses s.patternsStart s.patterns) := by
  rw [ofSections_eq_error h, List.mem_append, List.mem_append, mem_errors, mem_errors,
    mem_errors] at he
  rcases he with (he | he) | he
  · exact .inl (List.mem_singleton.mp he).symm
  · obtain ⟨clause, hmem, hread⟩ := List.mem_map.mp he
    obtain ⟨fault, -, rfl⟩ := mapError_eq_error.mp hread
    exact .inr ⟨by simp [Error.IsBadHeader], clause, rfl, .inl hmem⟩
  · obtain ⟨clause, hmem, hread⟩ := List.mem_map.mp he
    obtain ⟨fault, -, rfl⟩ := mapError_eq_error.mp hread
    exact .inr ⟨by simp [Error.IsBadHeader], clause, rfl, .inr hmem⟩

/-- The header of the block breaks off. -/
def BreaksOff (block : String) : Prop :=
  ∃ s, Sections.ofBlock block.toList = .ok s ∧ Header.BreaksOff s.header

theorem parse_eq_error (h : parse block = .error found) :
    (∃ marker : Marker, Sections.ofBlock block.toList = .error marker ∧
        found = [.missingMarker ⟨Text.size block.toList, Text.size block.toList⟩ marker.text]) ∨
      ∃ s, Sections.ofBlock block.toList = .ok s ∧ ofSections s = .error found := by
  unfold parse at h
  split at h
  · next s hs => exact .inr ⟨s, hs, h⟩
  · next marker hmarker => exact .inl ⟨marker, hmarker, (Except.error.inj h).symm⟩

theorem breaksOff_iff (hs : Sections.ofBlock block.toList = .ok s) :
    BreaksOff block ↔ Header.BreaksOff s.header := by
  constructor
  · rintro ⟨s', hs', hbreaks⟩
    rw [hs] at hs'
    cases hs'
    exact hbreaks
  · intro hbreaks
    exact ⟨s, hs, hbreaks⟩

instance (block : String) : Decidable (BreaksOff block) :=
  match hs : Sections.ofBlock block.toList with
  | .ok s => decidable_of_iff (Header.BreaksOff s.header) (breaksOff_iff hs).symm
  | .error marker => isFalse <| by
      rintro ⟨s, hs', -⟩
      rw [hs] at hs'
      cases hs'

/-- Every error lies within its block. The error of a header that breaks off is the only
one whose span runs backwards. -/
theorem span_of_parse_eq_error (h : parse block = .error found) (he : e ∈ found) :
    e.span.start ≤ Text.size block.toList ∧ e.span.stop ≤ Text.size block.toList ∧
      (e.span.stop < e.span.start ↔ BreaksOff block ∧ e.IsBadHeader) := by
  rcases parse_eq_error h with ⟨marker, hmarker, rfl⟩ | ⟨s, hs, hfound⟩
  · obtain rfl := List.mem_singleton.mp he
    refine ⟨Nat.le_refl _, Nat.le_refl _, iff_of_false (Nat.lt_irrefl _) ?_⟩
    simp [Error.IsBadHeader]
  · rcases mem_ofSections hfound he with hheader | ⟨hkind, clause, hspan, hmem⟩
    · obtain ⟨failure, hfailure, rfl⟩ := mapError_eq_error.mp hheader
      obtain ⟨hstart, hstop, hiff⟩ := Header.span_of_parse_eq_error hfailure
      have hsize := Sections.size_header_le hs
      refine ⟨Nat.le_trans hstart hsize, Nat.le_trans hstop hsize, ?_⟩
      rw [breaksOff_iff hs, ← hiff]
      exact ⟨fun hlt => ⟨hlt, _, _, _, rfl⟩, fun hbreaks => hbreaks.1⟩
    · have hwithin : clause.span.start ≤ clause.span.stop ∧
          clause.span.stop ≤ Text.size block.toList := by
        rcases hmem with hmem | hmem
        · obtain ⟨-, hlt, hstop⟩ := span_of_mem_clauses hmem
          exact ⟨Nat.le_of_lt hlt, Nat.le_trans hstop (Sections.attributes_le hs)⟩
        · obtain ⟨-, hlt, hstop⟩ := span_of_mem_clauses hmem
          exact ⟨Nat.le_of_lt hlt, Nat.le_trans hstop (Sections.patterns_le hs)⟩
      rw [hspan]
      refine ⟨Nat.le_trans hwithin.1 hwithin.2, hwithin.2,
        iff_of_false (Nat.not_lt_of_le hwithin.1) ?_⟩
      exact fun hbreaks => hkind hbreaks.2

theorem parse_eq_ofSections (hs : Sections.ofBlock block.toList = .ok s) :
    parse block = ofSections s := by
  rw [parse, hs]

/-- A block whose header breaks off is rejected for its header, among other things. -/
theorem BreaksOff.exists_badHeader (hbreaks : BreaksOff block) :
    ∃ found, parse block = .error found ∧ ∃ e ∈ found, e.IsBadHeader := by
  obtain ⟨s, hs, hheader⟩ := hbreaks
  obtain ⟨e, he⟩ : ∃ e, readHeader s.header = .error e := by
    cases hparse : Header.parse s.header with
    | ok header => exact absurd (Header.parse_eq_ok.mp hparse) (hheader.unfinished header)
    | error failure => exact ⟨_, mapError_eq_error.mpr ⟨failure, hparse, rfl⟩⟩
  rw [parse_eq_ofSections hs]
  cases hfound : ofSections s with
  | ok snippet => simp [ofSections, he] at hfound
  | error found =>
      refine ⟨found, rfl, e, ?_, ?_⟩
      · rw [ofSections_eq_error hfound, he]
        exact List.mem_cons_self
      · obtain ⟨failure, -, rfl⟩ := mapError_eq_error.mp he
        exact ⟨_, _, _, rfl⟩

end Snippet

end Stencil
