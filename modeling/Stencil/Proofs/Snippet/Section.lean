import Stencil.Proofs.Text.Cut
import Stencil.Snippet.Section

/-!
# Laws of sections

The sections and the markers between them make up the block, so each section lies within it.
-/

namespace Stencil

namespace Snippet

namespace Sections

variable {block : List Char} {s : Sections}

theorem eq_append_of_ofBlock (h : ofBlock block = .ok s) :
    block = s.header ++ ':' :: (s.attributes ++ "begin".toList ++
      (s.patterns ++ "end".toList ++ s.tail)) := by
  unfold ofBlock at h
  split at h
  · cases h
  · next header body hcolon =>
      split at h
      · cases h
      · next attributes rest hbegin =>
          split at h
          · cases h
          · next patterns tail hend =>
              cases h
              rw [Text.eq_append_of_cutAt? hcolon, Text.eq_append_of_cutFirst? hbegin,
                Text.eq_append_of_cutLast? hend]

/-- The last marker is missed only in a block that has the others. -/
theorem exists_cuts_of_endWord (h : ofBlock block = .error .endWord) :
    ∃ header body attributes rest, Text.cutAt? ':' block = some (header, body) ∧
      Text.cutFirst? "begin".toList (some ':') body = some (attributes, rest) := by
  unfold ofBlock at h
  split at h
  · cases h
  · next header body hcolon =>
      split at h
      · cases h
      · next attributes rest hbegin => exact ⟨header, body, attributes, rest, hcolon, hbegin⟩

/-- The markers are found where they are written: no colon stands in the header and no
whole `begin` in the attributes. The patterns may hold any of the markers. -/
theorem ofBlock_written {header attributes : List Char} (hheader : ':' ∉ header)
    (hbegin : ¬ Text.HasWord "begin".toList none attributes) (patterns : List Char) :
    ofBlock (header ++ ':' :: (' ' :: attributes ++ ' ' :: ("begin".toList ++
      (' ' :: patterns ++ ' ' :: "end".toList)))) =
      .ok ⟨header, ' ' :: attributes ++ [' '], ' ' :: patterns ++ [' '], []⟩ := by
  have hword : "begin".toList ≠ [] := by decide
  have hblank : Text.isWordChar ' ' = false := by decide
  have hattributes : Text.cutFirst? "begin".toList (some ':') (' ' :: attributes) = none := by
    have hnone := (Text.cutFirst?_eq_none_iff hword).mpr
      (mt (Text.hasWord_some_iff hblank).mp hbegin)
    have hlead : Text.cutFirst? "begin".toList (some ':') [] = none := rfl
    rw [← List.nil_append (' ' :: attributes),
      Text.cutFirst?_append_of_eq_none hword (by decide) hblank hlead, hnone, Option.map_none]
  have hmarker : Text.cutFirst? "begin".toList (some ' ')
      ("begin".toList ++ (' ' :: patterns ++ ' ' :: "end".toList)) =
        some ([], ' ' :: patterns ++ ' ' :: "end".toList) :=
    Text.cutFirst?_of_startsWithWord hword
      (Text.startsWithWord_iff.mpr ⟨_, rfl, rfl, rfl⟩)
  have hend : Text.cutLast? "end".toList (some ' ') "end".toList = some ([], []) := by decide
  rw [ofBlock, Text.cutAt?_append_cons hheader]
  simp only
  rw [Text.cutFirst?_append_of_eq_none hword (by decide) hblank hattributes, hmarker]
  simp only [Option.map_some]
  rw [Text.cutLast?_append_of_eq_some hend]

theorem size_header_le (h : ofBlock block = .ok s) : Text.size s.header ≤ Text.size block := by
  rw [eq_append_of_ofBlock h, Text.size_append]
  exact Nat.le_add_right _ _

theorem attributes_le (h : ofBlock block = .ok s) :
    s.attributesStart + Text.size s.attributes ≤ Text.size block := by
  rw [eq_append_of_ofBlock h, attributesStart]
  simp only [Text.size_append, Text.size_cons, Text.size_nil]
  omega

theorem patterns_le (h : ofBlock block = .ok s) :
    s.patternsStart + Text.size s.patterns ≤ Text.size block := by
  rw [eq_append_of_ofBlock h, patternsStart, attributesStart]
  simp only [Text.size_append, Text.size_cons, Text.size_nil]
  omega

end Sections

end Snippet

end Stencil
