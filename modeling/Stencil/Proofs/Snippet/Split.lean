import Mathlib.Order.Bounds.Basic
import Stencil.Proofs.Library.Ending
import Stencil.Proofs.Snippet.Section
import Stencil.Proofs.Text.Word

/-!
# A block is split without loss

`s.IsSplitOf block` says what the sections of a block are, in terms of the block alone: with
the markers they make up the block, and the markers are the first colon, the first whole
`begin` behind it and the last whole `end` behind that. A block is split so exactly when it
has all three (`Has`), and otherwise it is said to lack the first that is missing
(`FirstMissing`).
-/

namespace Stencil

namespace Snippet

open Text (CharAt WordAt)

/-- The block has the marker: a colon, a whole `begin` behind the first colon, a whole `end`
behind the first such `begin`. -/
def Has (block : List Char) : Marker → Prop
  | .colon => ':' ∈ block
  | .beginWord =>
      ∃ colon, IsLeast {n | CharAt ':' block n} colon ∧
        ∃ n, WordAt "begin".toList block n ∧ colon < n
  | .endWord =>
      ∃ colon start, IsLeast {n | CharAt ':' block n} colon ∧
        IsLeast {n | WordAt "begin".toList block n ∧ colon < n} start ∧
        ∃ n, WordAt "end".toList block n ∧ start + Text.size "begin".toList ≤ n

/-- The marker is the first of the three that the block does not have. -/
def FirstMissing (block : List Char) : Marker → Prop
  | .colon => ¬ Has block .colon
  | .beginWord => Has block .colon ∧ ¬ Has block .beginWord
  | .endWord => Has block .beginWord ∧ ¬ Has block .endWord

namespace Sections

variable {block header body attributes rest : List Char} {s : Sections} {marker : Marker}

/-- The byte of the block at which `begin` starts. -/
def beginStart (s : Sections) : Nat := s.attributesStart + Text.size s.attributes

/-- The byte of the block at which `end` starts. -/
def endStart (s : Sections) : Nat := s.patternsStart + Text.size s.patterns

/-- The byte of the block at which the tail starts. -/
def tailStart (s : Sections) : Nat := s.endStart + Text.size "end".toList

/-- The sections with their markers make up the block, and there is no colon in the header, no
whole `begin` that starts in the attributes, and no whole `end` that starts in the tail. -/
structure IsSplitOf (s : Sections) (block : List Char) : Prop where
  split : block = s.header ++ ':' :: (s.attributes ++ "begin".toList ++
    (s.patterns ++ "end".toList ++ s.tail))
  no_colon : ':' ∉ s.header
  begin_whole : WordAt "begin".toList block s.beginStart
  no_begin : ∀ n, WordAt "begin".toList block n →
    ¬ (s.attributesStart ≤ n ∧ n < s.attributesStart + Text.size s.attributes)
  end_whole : WordAt "end".toList block s.endStart
  no_end : ∀ n, WordAt "end".toList block n → ¬ s.tailStart ≤ n

/-! ### Sections by three cuts -/

theorem ofBlock_eq_ok_iff_cuts :
    ofBlock block = .ok s ↔ ∃ body rest, Text.cutAt? ':' block = some (s.header, body) ∧
      Text.cutFirst? "begin".toList (some ':') body = some (s.attributes, rest) ∧
      Text.cutLast? "end".toList (some 'n') rest = some (s.patterns, s.tail) := by
  constructor
  · intro h
    unfold ofBlock at h
    split at h
    · cases h
    · next header body hcolon =>
        split at h
        · cases h
        · next attributes rest hbegin =>
            split at h
            · cases h
            · next patterns tail hend =>
                cases h
                exact ⟨body, rest, hcolon, hbegin, hend⟩
  · rintro ⟨body, rest, hcolon, hbegin, hend⟩
    rw [ofBlock, hcolon]
    simp only [hbegin, hend]

/-- The byte of the first colon. -/
theorem isLeast_colon (hcolon : Text.cutAt? ':' block = some (header, body)) :
    IsLeast {n | CharAt ':' block n} (Text.size header) := by
  obtain ⟨rfl, hheader⟩ := Text.cutAt?_eq_some_iff.mp hcolon
  refine ⟨⟨header, body, rfl, rfl⟩, ?_⟩
  rintro n ⟨front, back, hsplit, rfl⟩
  rcases List.append_eq_append_iff.mp hsplit with ⟨more, rfl, -⟩ | ⟨more, rfl, hmore⟩
  · exact Text.size_mono (List.prefix_append _ _)
  · cases more with
    | nil => simp
    | cons c more =>
        obtain ⟨rfl, -⟩ := List.cons_eq_cons.mp hmore
        exact absurd (List.mem_append_right _ List.mem_cons_self) hheader

theorem eq_lead (hcolon : Text.cutAt? ':' block = some (header, body)) :
    block = header ++ [':'] ++ body := by
  rw [Text.eq_append_of_cutAt? hcolon, List.append_assoc, List.singleton_append]

theorem eq_lead_begin (hcolon : Text.cutAt? ':' block = some (header, body))
    (hbegin : Text.cutFirst? "begin".toList (some ':') body = some (attributes, rest)) :
    block = header ++ [':'] ++ attributes ++ "begin".toList ++ rest := by
  rw [eq_lead hcolon, Text.eq_append_of_cutFirst? hbegin]
  simp only [List.append_assoc]

theorem getLast?_lead (header : List Char) : (header ++ [':']).getLast? = some ':' :=
  List.getLast?_concat

theorem getLast?_lead_begin (header attributes : List Char) :
    (header ++ [':'] ++ attributes ++ "begin".toList).getLast? = some 'n' := by
  rw [List.getLast?_append]
  rfl

theorem wordAt_and_lt_iff {word : List Char} {n : Nat} :
    WordAt word block n ∧ Text.size header < n ↔
      WordAt word block n ∧ Text.size (header ++ [':']) ≤ n := by
  rw [Text.size_append]
  rfl

/-- The byte of the first `begin`. -/
theorem isLeast_begin (hcolon : Text.cutAt? ':' block = some (header, body))
    (hbegin : Text.cutFirst? "begin".toList (some ':') body = some (attributes, rest)) :
    IsLeast {n | WordAt "begin".toList block n ∧ Text.size header < n}
      (Text.size (header ++ [':'] ++ attributes)) := by
  have hleast := Text.isLeast_of_cutFirst? (getLast?_lead header) hbegin
  rw [← eq_lead hcolon, ← Text.size_append] at hleast
  simpa only [wordAt_and_lt_iff] using hleast

/-- The byte of the last `end`. -/
theorem isGreatest_end {patterns tail : List Char}
    (hcolon : Text.cutAt? ':' block = some (header, body))
    (hbegin : Text.cutFirst? "begin".toList (some ':') body = some (attributes, rest))
    (hend : Text.cutLast? "end".toList (some 'n') rest = some (patterns, tail)) :
    IsGreatest {n | WordAt "end".toList block n ∧
        Text.size (header ++ [':'] ++ attributes ++ "begin".toList) ≤ n}
      (Text.size (header ++ [':'] ++ attributes ++ "begin".toList ++ patterns)) := by
  have hgreatest := Text.isGreatest_of_cutLast? (by decide)
    (getLast?_lead_begin header attributes) hend
  rwa [← eq_lead_begin hcolon hbegin, ← Text.size_append] at hgreatest

/-! ### The markers that a block has -/

theorem has_beginWord_iff (hcolon : Text.cutAt? ':' block = some (header, body)) :
    Has block .beginWord ↔ Text.HasWord "begin".toList (some ':') body := by
  rw [Text.hasWord_iff_exists_wordAt (getLast?_lead header), ← eq_lead hcolon]
  simp only [← wordAt_and_lt_iff]
  constructor
  · rintro ⟨colon, hleast, n, hn⟩
    rw [hleast.unique (isLeast_colon hcolon)] at hn
    exact ⟨n, hn⟩
  · rintro ⟨n, hn⟩
    exact ⟨_, isLeast_colon hcolon, n, hn⟩

theorem has_endWord_iff (hcolon : Text.cutAt? ':' block = some (header, body))
    (hbegin : Text.cutFirst? "begin".toList (some ':') body = some (attributes, rest)) :
    Has block .endWord ↔ Text.HasWord "end".toList (some 'n') rest := by
  rw [Text.hasWord_iff_exists_wordAt (getLast?_lead_begin header attributes),
    ← eq_lead_begin hcolon hbegin, Text.size_append _ "begin".toList]
  constructor
  · rintro ⟨colon, start, hfirst, hstart, n, hn⟩
    obtain rfl := hfirst.unique (isLeast_colon hcolon)
    rw [hstart.unique (isLeast_begin hcolon hbegin)] at hn
    exact ⟨n, hn⟩
  · rintro ⟨n, hn⟩
    exact ⟨_, _, isLeast_colon hcolon, isLeast_begin hcolon hbegin, n, hn⟩

theorem has_colon_of_beginWord (h : Has block .beginWord) : Has block .colon := by
  obtain ⟨_, ⟨⟨front, back, rfl, -⟩, -⟩, -⟩ := h
  exact List.mem_append_right _ List.mem_cons_self

/-- The error is the first marker that is missing. -/
theorem ofBlock_eq_error_iff : ofBlock block = .error marker ↔ FirstMissing block marker := by
  have hbeginWord : "begin".toList ≠ [] := by decide
  have hendWord : "end".toList ≠ [] := by decide
  unfold ofBlock
  split
  · next hcolon =>
      have hnone : ¬ Has block .colon := Text.cutAt?_eq_none_iff.mp hcolon
      have hbegin : ¬ Has block .beginWord := mt has_colon_of_beginWord hnone
      cases marker <;> simp [FirstMissing, hnone, hbegin]
  · next header body hcolon =>
      have hsome : Has block .colon := by
        rw [Text.eq_append_of_cutAt? hcolon]
        exact List.mem_append_right _ List.mem_cons_self
      split
      · next hbegin =>
          have hnone : ¬ Has block .beginWord := by
            rwa [has_beginWord_iff hcolon, ← Text.cutFirst?_eq_none_iff hbeginWord]
          cases marker <;> simp [FirstMissing, hsome, hnone]
      · next attributes rest hbegin =>
          have hbeginSome : Has block .beginWord := by
            rw [has_beginWord_iff hcolon, ← not_not (a := Text.HasWord _ _ _),
              ← Text.cutFirst?_eq_none_iff hbeginWord, hbegin]
            simp
          have hend : Text.cutLast? "end".toList (some 'n') rest = none ↔ ¬ Has block .endWord := by
            rw [Text.cutLast?_eq_none_iff hendWord, has_endWord_iff hcolon hbegin]
          split
          · next hcut => cases marker <;> simp [FirstMissing, hsome, hbeginSome, hend.mp hcut]
          · next hcut =>
              have hendSome : Has block .endWord := by
                rw [hcut] at hend
                simpa using hend
              cases marker <;> simp [FirstMissing, hsome, hbeginSome, hendSome]

theorem exists_ofBlock_eq_ok_iff :
    (∃ s, ofBlock block = .ok s) ↔ ∀ marker, Has block marker := by
  constructor
  · rintro ⟨s, hs⟩ marker
    have hnot (marker : Marker) : ¬ FirstMissing block marker := by
      rw [← ofBlock_eq_error_iff, hs]
      simp
    have hcolon : Has block .colon := not_not.mp (hnot .colon)
    have hbegin : Has block .beginWord := by_contra fun h => hnot .beginWord ⟨hcolon, h⟩
    have hend : Has block .endWord := by_contra fun h => hnot .endWord ⟨hbegin, h⟩
    cases marker with
    | colon => exact hcolon
    | beginWord => exact hbegin
    | endWord => exact hend
  · intro hall
    cases hs : ofBlock block with
    | ok s => exact ⟨s, rfl⟩
    | error marker =>
        have hmissing := ofBlock_eq_error_iff.mp hs
        cases marker with
        | colon => exact absurd (hall .colon) hmissing
        | beginWord => exact absurd (hall .beginWord) hmissing.2
        | endWord => exact absurd (hall .endWord) hmissing.2

/-! ### The sections are what lies between the markers -/

theorem attributesStart_eq (s : Sections) :
    s.attributesStart = Text.size (s.header ++ [':']) := by
  rw [attributesStart, Text.size_append]

theorem beginStart_eq (s : Sections) :
    s.beginStart = Text.size (s.header ++ [':'] ++ s.attributes) := by
  rw [beginStart, attributesStart_eq, ← Text.size_append]

theorem patternsStart_eq (s : Sections) :
    s.patternsStart = Text.size (s.header ++ [':'] ++ s.attributes ++ "begin".toList) := by
  rw [patternsStart, attributesStart_eq, ← Text.size_append, ← Text.size_append]

theorem endStart_eq (s : Sections) :
    s.endStart = Text.size (s.header ++ [':'] ++ s.attributes ++ "begin".toList ++ s.patterns) := by
  rw [endStart, patternsStart_eq, ← Text.size_append]

theorem isSplitOf_of_ofBlock (h : ofBlock block = .ok s) : s.IsSplitOf block := by
  obtain ⟨body, rest, hcolon, hbegin, hend⟩ := ofBlock_eq_ok_iff_cuts.mp h
  have hleast := isLeast_begin hcolon hbegin
  have hgreatest := isGreatest_end hcolon hbegin hend
  rw [← beginStart_eq] at hleast
  rw [← patternsStart_eq, ← endStart_eq] at hgreatest
  refine ⟨eq_append_of_ofBlock h, (Text.cutAt?_eq_some_iff.mp hcolon).2, hleast.1.1, ?_,
    hgreatest.1.1, ?_⟩
  · rintro n hn ⟨hstart, hlt⟩
    exact absurd (hleast.2 ⟨hn, hstart⟩) (Nat.not_le_of_lt hlt)
  · intro n hn htail
    have hlt : s.endStart < n := Nat.lt_of_lt_of_le (Nat.lt_add_of_pos_right (by decide)) htail
    have hstart : s.patternsStart ≤ n :=
      Nat.le_trans (Nat.le_add_right _ _) (Nat.le_of_lt hlt)
    exact absurd (hgreatest.2 ⟨hn, hstart⟩) (Nat.not_le_of_lt hlt)

namespace IsSplitOf

variable {other : Sections}

theorem cutAt?_eq (h : s.IsSplitOf block) : Text.cutAt? ':' block =
    some (s.header, s.attributes ++ "begin".toList ++ (s.patterns ++ "end".toList ++ s.tail)) :=
  Text.cutAt?_eq_some_iff.mpr ⟨h.split, h.no_colon⟩

theorem has (h : s.IsSplitOf block) (marker : Marker) : Has block marker := by
  have hcolon := isLeast_colon h.cutAt?_eq
  have hstart : Text.size s.header < s.attributesStart := Nat.lt_succ_self _
  have hbegin : IsLeast {n | WordAt "begin".toList block n ∧ Text.size s.header < n}
      s.beginStart := by
    refine ⟨⟨h.begin_whole, Nat.lt_of_lt_of_le hstart (Nat.le_add_right _ _)⟩, ?_⟩
    rintro n ⟨hn, hlt⟩
    exact Nat.le_of_not_lt fun hbefore => h.no_begin n hn ⟨hlt, hbefore⟩
  cases marker with
  | colon => rw [h.split]; exact List.mem_append_right _ List.mem_cons_self
  | beginWord => exact ⟨_, hcolon, _, hbegin.1⟩
  | endWord => exact ⟨_, _, hcolon, hbegin, _, h.end_whole, Nat.le_add_right _ _⟩

/-- The `begin` of a split is no further on than that of another with the same header. -/
theorem beginStart_le (h : s.IsSplitOf block) (hother : other.IsSplitOf block)
    (hheader : s.header = other.header) : s.beginStart ≤ other.beginStart := by
  refine Nat.le_of_not_lt fun hlt => h.no_begin _ hother.begin_whole ⟨?_, hlt⟩
  rw [attributesStart, hheader]
  exact Nat.le_add_right _ _

/-- The `end` of a split is no further on than that of another. -/
theorem endStart_le (h : s.IsSplitOf block) (hother : other.IsSplitOf block) :
    s.endStart ≤ other.endStart := by
  refine Nat.le_of_not_lt fun hlt => hother.no_end _ h.end_whole ?_
  exact hother.end_whole.add_size_le (by decide) h.end_whole hlt

/-- There is one split of a block at most. -/
theorem unique (h : s.IsSplitOf block) (hother : other.IsSplitOf block) : s = other := by
  obtain ⟨hheader, -⟩ := Prod.mk.inj (Option.some.inj (h.cutAt?_eq.symm.trans hother.cutAt?_eq))
  have hbegin := Nat.le_antisymm (h.beginStart_le hother hheader)
    (hother.beginStart_le h hheader.symm)
  have hend := Nat.le_antisymm (h.endStart_le hother) (hother.endStart_le h)
  obtain ⟨header, attributes, patterns, tail⟩ := s
  obtain ⟨header', attributes', patterns', tail'⟩ := other
  obtain rfl : header = header' := hheader
  have hsplit := h.split.symm.trans hother.split
  obtain ⟨-, hbody⟩ := List.cons_eq_cons.mp (List.append_cancel_left hsplit)
  simp only [List.append_assoc] at hbody
  obtain rfl : attributes = attributes' :=
    Text.eq_of_size_eq hbody (Nat.add_left_cancel hbegin)
  have hrest := List.append_cancel_left (List.append_cancel_left hbody)
  obtain rfl : patterns = patterns' := Text.eq_of_size_eq hrest (Nat.add_left_cancel hend)
  obtain rfl := List.append_cancel_left (List.append_cancel_left hrest)
  rfl

end IsSplitOf

theorem ofBlock_eq_ok_iff : ofBlock block = .ok s ↔ s.IsSplitOf block := by
  refine ⟨isSplitOf_of_ofBlock, fun h => ?_⟩
  obtain ⟨other, hother⟩ := exists_ofBlock_eq_ok_iff.mpr h.has
  rw [hother, (isSplitOf_of_ofBlock hother).unique h]

/-! ### Sections as spans -/

/-- The bytes of the block that are its header. -/
def headerSpan (s : Sections) : Span := ⟨0, Text.size s.header⟩

/-- The bytes of the block that are its attributes. -/
def attributesSpan (s : Sections) : Span := ⟨s.attributesStart, s.beginStart⟩

/-- The bytes of the block that are its patterns. -/
def patternsSpan (s : Sections) : Span := ⟨s.patternsStart, s.endStart⟩

theorem eq_around_header (h : s.IsSplitOf block) : ∃ after, block = [] ++ s.header ++ after :=
  ⟨_, h.split⟩

theorem eq_around_attributes (h : s.IsSplitOf block) :
    ∃ after, block = s.header ++ [':'] ++ s.attributes ++ after :=
  ⟨"begin".toList ++ (s.patterns ++ "end".toList ++ s.tail), by rw [h.split]; simp⟩

theorem eq_around_patterns (h : s.IsSplitOf block) :
    ∃ after, block = s.header ++ [':'] ++ s.attributes ++ "begin".toList ++ s.patterns ++ after :=
  ⟨"end".toList ++ s.tail, by rw [h.split]; simp⟩

theorem slice_header (h : s.IsSplitOf block) :
    Text.slice block s.headerSpan = Text.bytes s.header := by
  obtain ⟨after, rfl⟩ := eq_around_header h
  simpa [headerSpan, Span.ofText] using Text.slice_append [] s.header after

theorem slice_attributes (h : s.IsSplitOf block) :
    Text.slice block s.attributesSpan = Text.bytes s.attributes := by
  obtain ⟨after, rfl⟩ := eq_around_attributes h
  have hslice := Text.slice_append (s.header ++ [':']) s.attributes after
  rwa [← attributesStart_eq] at hslice

theorem slice_patterns (h : s.IsSplitOf block) :
    Text.slice block s.patternsSpan = Text.bytes s.patterns := by
  obtain ⟨after, rfl⟩ := eq_around_patterns h
  have hslice := Text.slice_append (s.header ++ [':'] ++ s.attributes ++ "begin".toList)
    s.patterns after
  rwa [← patternsStart_eq] at hslice

end Sections

variable {block : String} {marker : Marker}

theorem parse_eq_missingMarker_iff :
    parse block =
        .error [.missingMarker ⟨Text.size block.toList, Text.size block.toList⟩ marker.text] ↔
      FirstMissing block.toList marker := by
  rw [← Sections.ofBlock_eq_error_iff]
  constructor
  · intro h
    by_contra hmarker
    exact missingMarker_notMem_parse hmarker h _ (List.mem_singleton_self _)
  · intro h
    rw [parse, h]

/-- A block is split into its sections exactly if it has all three markers, and the sections
are what lies between them: without loss, up to the first colon, to the first whole `begin`
behind it and to the last whole `end` behind that. In any other block the first marker that is
missing is reported. -/
theorem sections_split_without_loss (block : String) :
    ((∃ s, Sections.ofBlock block.toList = .ok s) ↔ ∀ marker, Has block.toList marker) ∧
      (∀ s, Sections.ofBlock block.toList = .ok s ↔
        s.IsSplitOf block.toList ∧
          Text.slice block.toList s.headerSpan = Text.bytes s.header ∧
          Text.slice block.toList s.attributesSpan = Text.bytes s.attributes ∧
          Text.slice block.toList s.patternsSpan = Text.bytes s.patterns) ∧
      ∀ marker,
        (Sections.ofBlock block.toList = .error marker ↔ FirstMissing block.toList marker) ∧
        (parse block =
            .error [.missingMarker ⟨Text.size block.toList, Text.size block.toList⟩ marker.text] ↔
          FirstMissing block.toList marker) := by
  refine ⟨Sections.exists_ofBlock_eq_ok_iff, fun s => ?_, fun marker => ?_⟩
  · rw [Sections.ofBlock_eq_ok_iff]
    exact ⟨fun h => ⟨h, Sections.slice_header h, Sections.slice_attributes h,
      Sections.slice_patterns h⟩, fun h => h.1⟩
  · exact ⟨Sections.ofBlock_eq_error_iff, parse_eq_missingMarker_iff⟩

/-- An underscore or a digit goes on with a word. A letter that is no ASCII one does not. -/
example : Sections.ofBlock "x:begin_ é-begin end_ endé end9".toList =
    .ok ⟨"x".toList, "begin_ é-".toList, " end_ ".toList, "é end9".toList⟩ := by
  decide +kernel

end Snippet

end Stencil
