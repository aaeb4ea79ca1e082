import Stencil.Library.Load
import Stencil.Proofs.Library.Block
import Stencil.Proofs.Snippet.Error
import Stencil.Proofs.Text.Blank

/-!
# Where a block ends

Two searches look for the end of a snippet. The lines of a library are searched for the
first that closes a block, without regard to what the block means; the text of the block is
searched for the last `end` behind its other markers. They find the same `end`
(`closed_block_read_to_its_end`).
-/

namespace Stencil

/-- A character that is not in the back part of a text is in the front part. -/
theorem exists_of_append_eq_append_cons {x y u v : List Char} {c : Char}
    (h : x ++ y = u ++ c :: v) (hc : c ∉ y) : ∃ z, x = u ++ c :: z ∧ v = z ++ y := by
  rcases Text.append_eq_append_cons_cases h with hfront | ⟨more, -, rfl⟩
  · exact hfront
  · exact absurd (List.mem_append_right _ List.mem_cons_self) hc

namespace Snippet

variable {lead tail header body attributes rest : List Char}

/-- If the block ends in a whole `end` and blanks, and has its other markers, then the patterns
go up to this `end`. -/
theorem Sections.ofBlock_of_end (hlead : lead.getLast?.any Text.isWordChar = false)
    (htail : ∀ c ∈ tail, Text.isBlank c = true)
    (hcolon : Text.cutAt? ':' (lead ++ ("end".toList ++ tail)) = some (header, body))
    (hbegin : Text.cutFirst? "begin".toList (some ':') body = some (attributes, rest)) :
    ∃ patterns, lead = header ++ ':' :: (attributes ++ "begin".toList ++ patterns) ∧
      ofBlock (lead ++ ("end".toList ++ tail)) = .ok ⟨header, attributes, patterns, tail⟩ := by
  have hsplit := Text.eq_append_of_cutAt? hcolon
  rw [Text.eq_append_of_cutFirst? hbegin] at hsplit
  have hmarker : 'b' ∉ "end".toList ++ tail := by
    rw [List.mem_append, not_or]
    exact ⟨by decide, fun hb => absurd (htail _ hb) (by decide)⟩
  -- The `begin` is in front of the `end`, since none of the letters of `end` starts it.
  obtain ⟨front, rfl, hrest⟩ : ∃ z, lead = (header ++ ':' :: attributes) ++ 'b' :: z ∧
      "egin".toList ++ rest = z ++ ("end".toList ++ tail) :=
    exists_of_append_eq_append_cons (by simpa using hsplit) hmarker
  obtain ⟨patterns, rfl, rfl⟩ : ∃ patterns, front = "egin".toList ++ patterns ∧
      rest = patterns ++ ("end".toList ++ tail) := by
    match front with
    | [] | [_] | [_, _] | [_, _, _] => simp at hrest
    | _ :: _ :: _ :: _ :: patterns =>
        obtain ⟨rfl, rfl, rfl, rfl, rfl⟩ : 'e' = _ ∧ 'g' = _ ∧ 'i' = _ ∧ 'n' = _ ∧ rest = _ := by
          simpa using hrest
        exact ⟨patterns, rfl, rfl⟩
  have hword : "begin".toList = 'b' :: "egin".toList := rfl
  have hafter : tail.head?.any Text.isWordChar = false := by
    cases tail with
    | nil => rfl
    | cons c tail => simpa using Text.isWordChar_eq_false_of_isBlank (htail c List.mem_cons_self)
  have hbefore : (patterns.getLast?.or (some 'n')).any Text.isWordChar = false := by
    simpa [List.getLast?_append, List.getLast?_cons] using hlead
  have hlast : Text.cutLast? "end".toList (some 'n') (patterns ++ ("end".toList ++ tail)) =
      some (patterns, tail) := by
    refine Text.cutLast?_append ?_ (Text.startsWithWord_iff.mpr ⟨tail, rfl, hbefore, hafter⟩)
    rw [List.mem_append, not_or]
    exact ⟨by decide, fun he => absurd (htail _ he) (by decide)⟩
  refine ⟨patterns, by rw [hword]; simp, ?_⟩
  rw [ofBlock, hcolon]
  simp only [hbegin, hlast]

end Snippet

namespace Library

theorem exists_of_closesBlock {line : List Char} (h : closesBlock line = true) :
    ∃ front tail, line = front ++ "end".toList ++ tail ∧
      front.getLast?.any Text.isWordChar = false ∧ ∀ c ∈ tail, Text.isBlank c = true := by
  unfold closesBlock at h
  split at h
  · next front hcut =>
      have hstarts := Text.startsWithWord_of_cutLast? hcut
      obtain ⟨-, -, hbefore, -⟩ := Text.startsWithWord_iff.mp hstarts
      refine ⟨front, line.rtakeWhile Text.isBlank, ?_, by simpa using hbefore, ?_⟩
      · have htrim := Text.eq_append_of_cutLast? hcut
        rw [List.append_nil] at htrim
        rw [← htrim, Text.trimEnd_eq_rdropWhile, List.rdropWhile_append_rtakeWhile]
      · intro c hc
        exact List.mem_rtakeWhile_imp hc
  · cases h

variable {block : Block} {init lines : List (List Char)} {last : List Char} {number : Nat}

theorem Block.toList_text (h : block.lines = init ++ [last]) :
    block.text.toList = init.flatMap (· ++ ['\n']) ++ last := by
  rw [text, String.toList_ofList, h]
  clear h
  induction init with
  | nil => simp
  | cons line init ih =>
      rw [List.cons_append, List.intercalate_cons_of_ne_nil (by simp), ih]
      simp

end Library

namespace Snippet

/-- An error of a block that has its sections is not that a marker is missing. -/
theorem missingMarker_notMem_ofSections {s : Sections} {found : List Error}
    (h : ofSections s = .error found) (span : Span) (marker : String) :
    .missingMarker span marker ∉ found := by
  intro hmem
  rw [ofSections_eq_error h] at hmem
  simp only [List.mem_append, mem_errors, List.mem_singleton, List.mem_map] at hmem
  rcases hmem with (hmem | ⟨clause, -, hmem⟩) | ⟨clause, -, hmem⟩
  · obtain ⟨failure, -, hkind⟩ := mapError_eq_error.mp hmem.symm
    cases hkind
  · obtain ⟨fault, -, hkind⟩ := mapError_eq_error.mp hmem
    cases hkind
  · obtain ⟨fault, -, hkind⟩ := mapError_eq_error.mp hmem
    cases hkind

theorem missingMarker_notMem_parse {block : String} {marker : Marker}
    (h : Sections.ofBlock block.toList ≠ .error marker) {found : List Error}
    (hparse : parse block = .error found) (span : Span) :
    .missingMarker span marker.text ∉ found := by
  rcases parse_eq_error hparse with ⟨marker', hmarker', rfl⟩ | ⟨s, -, hsections⟩
  · intro hmem
    have htext := (Error.missingMarker.inj (List.mem_singleton.mp hmem)).2
    have hsame : marker = marker' := by
      revert htext
      cases marker <;> cases marker' <;> decide
    exact h (hsame ▸ hmarker')
  · exact missingMarker_notMem_ofSections hsections span _

end Snippet

namespace Library

/-- The last line of a closed block is the only one that closes it. The block is never said to
lack its `end`; if it has its other markers, the patterns go up to the `end` of the last line,
and behind this there are only blanks. -/
theorem closed_block_read_to_its_end (hblock : block ∈ blocks number lines)
    (hclosed : block.Closed) :
    ∃ init last front tail, block.lines = init ++ [last] ∧ closesBlock last = true ∧
      (∀ line ∈ init, closesBlock line = false) ∧ last = front ++ "end".toList ++ tail ∧
      Text.allBlank tail = true ∧
      (∀ found, Snippet.parse block.text = .error found → ∀ span,
        .missingMarker span "end" ∉ found) ∧
      ∀ header body attributes rest,
        Text.cutAt? ':' block.text.toList = some (header, body) →
        Text.cutFirst? "begin".toList (some ':') body = some (attributes, rest) →
        ∃ patterns,
          Snippet.Sections.ofBlock block.text.toList = .ok ⟨header, attributes, patterns, tail⟩ ∧
          header ++ ':' :: (attributes ++ "begin".toList ++ patterns) =
            init.flatMap (· ++ ['\n']) ++ front := by
  obtain ⟨init, last, hlines, hlast⟩ := hclosed
  have hinit := (splits_blocks number lines).closesBlock_eq_false hblock hlines
  obtain ⟨front, tail, rfl, hbefore, htail⟩ := exists_of_closesBlock hlast
  have htext : block.text.toList =
      init.flatMap (· ++ ['\n']) ++ front ++ ("end".toList ++ tail) := by
    rw [Block.toList_text hlines]
    simp only [List.append_assoc]
  have hlead : (init.flatMap (· ++ ['\n']) ++ front).getLast?.any Text.isWordChar = false := by
    cases front with
    | nil =>
        rcases List.eq_nil_or_concat init with rfl | ⟨lines, line, rfl⟩
        · rfl
        · simpa using (by decide : Text.isWordChar '\n' = false)
    | cons c front => rwa [List.getLast?_append_of_ne_nil _ (List.cons_ne_nil c front)]
  have hsections : ∀ header body attributes rest,
      Text.cutAt? ':' block.text.toList = some (header, body) →
      Text.cutFirst? "begin".toList (some ':') body = some (attributes, rest) →
      ∃ patterns,
        Snippet.Sections.ofBlock block.text.toList = .ok ⟨header, attributes, patterns, tail⟩ ∧
        header ++ ':' :: (attributes ++ "begin".toList ++ patterns) =
          init.flatMap (· ++ ['\n']) ++ front := by
    intro header body attributes rest hcolon hbegin
    rw [htext] at hcolon ⊢
    obtain ⟨patterns, hpatterns, hblock⟩ :=
      Snippet.Sections.ofBlock_of_end hlead htail hcolon hbegin
    exact ⟨patterns, hblock, hpatterns.symm⟩
  have hends : Snippet.Sections.ofBlock block.text.toList ≠ .error .endWord := by
    intro herror
    obtain ⟨header, body, attributes, rest, hcolon, hbegin⟩ :=
      Snippet.Sections.exists_cuts_of_endWord herror
    obtain ⟨patterns, hblock, -⟩ := hsections header body attributes rest hcolon hbegin
    rw [herror] at hblock
    cases hblock
  refine ⟨init, _, front, tail, hlines, hlast, hinit, rfl, by simpa [Text.allBlank] using htail,
    ?_, hsections⟩
  intro found hfound span
  exact Snippet.missingMarker_notMem_parse hends hfound span

/-- A closed block with an `end` inside its patterns and blanks behind the last one. -/
def relay : Block :=
  ⟨4, ["entity Relay node 0 : begin".toList, "puts the-end; append".toList, "x; end \t".toList]⟩

/-- Its sections. -/
def relaySections : Snippet.Sections where
  header := "entity Relay node 0 ".toList
  attributes := " ".toList
  patterns := "\nputs the-end; append\nx; ".toList
  tail := " \t".toList

/-- The inner `end` ends neither the block nor its patterns. -/
theorem closed_block_read_to_its_end_relay :
    relay ∈ blocks 4 (relay.lines ++ ["entity".toList]) ∧ relay.Closed ∧
      (∀ found, Snippet.parse relay.text = .error found → ∀ span,
        .missingMarker span "end" ∉ found) ∧
      Snippet.Sections.ofBlock relay.text.toList = .ok relaySections ∧
      ∃ init last front, relay.lines = init ++ [last] ∧
        last = front ++ "end".toList ++ relaySections.tail := by
  have hmem : relay ∈ blocks 4 (relay.lines ++ ["entity".toList]) := by decide +kernel
  have hclosed : relay.Closed := ⟨relay.lines.take 2, "x; end \t".toList, rfl, by decide⟩
  have hsections : Snippet.Sections.ofBlock relay.text.toList = .ok relaySections := by
    decide +kernel
  obtain ⟨init, last, front, tail, hlines, -, -, hlast, -, hmarker, hread⟩ :=
    closed_block_read_to_its_end hmem hclosed
  obtain ⟨patterns, hblock, -⟩ := hread relaySections.header
    (" begin\nputs the-end; append\nx; end \t".toList) " ".toList
    ("\nputs the-end; append\nx; end \t".toList) (by decide +kernel) (by decide +kernel)
  have htail : relaySections.tail = tail :=
    congrArg Snippet.Sections.tail (Except.ok.inj (hsections.symm.trans hblock))
  exact ⟨hmem, hclosed, hmarker, hsections, init, last, front, hlines, by rw [htail, hlast]⟩

end Library

end Stencil
