import Stencil.Text.Span

/-!
# Cutting a text

A text is cut at a character (`cutAt?`) or at a *whole word*: an occurrence of the word
that is not continued on either side by an ASCII letter, a digit or an underscore.
`cutFirst?` and `cutLast?` return what stands before and after the first and the last
such occurrence. The character in front of the searched text is an argument, because a
search may begin in the middle of a text.
-/

namespace Stencil

namespace Text

def cutAt? (sep : Char) : List Char → Option (List Char × List Char)
  | [] => none
  | c :: cs =>
      if c = sep then some ([], cs)
      else (cutAt? sep cs).map fun (before, after) => (c :: before, after)

theorem eq_append_of_cutAt? {sep : Char} {s before after : List Char}
    (h : cutAt? sep s = some (before, after)) : s = before ++ sep :: after := by
  induction s generalizing before with
  | nil => simp [cutAt?] at h
  | cons c cs ih =>
      unfold cutAt? at h
      split at h
      · next hc => cases h; simp [hc]
      · obtain ⟨⟨b, a⟩, hcut, heq⟩ := Option.map_eq_some_iff.1 h
        cases heq
        simp [ih hcut]

theorem length_lt_of_cutAt? {sep : Char} {s before after : List Char}
    (h : cutAt? sep s = some (before, after)) : after.length < s.length := by
  rw [eq_append_of_cutAt? h]
  simp
  omega

def isWordChar (c : Char) : Bool := c.isAlphanum || c == '_'

/-- Whether `word` stands at the head of `s` as a whole word, `before` being the
character in front of `s`, if there is one. -/
def startsWithWord (word : List Char) (before : Option Char) (s : List Char) : Bool :=
  word.isPrefixOf s && !before.any isWordChar && !(s.drop word.length).head?.any isWordChar

/-- The text before and after the first whole `word`. -/
def cutFirst? (word : List Char) (before : Option Char) :
    List Char → Option (List Char × List Char)
  | [] => none
  | c :: cs =>
      if startsWithWord word before (c :: cs) then some ([], (c :: cs).drop word.length)
      else (cutFirst? word (some c) cs).map fun (front, back) => (c :: front, back)

/-- The text before and after the last whole `word`. -/
def cutLast? (word : List Char) (before : Option Char) :
    List Char → Option (List Char × List Char)
  | [] => none
  | c :: cs =>
      match cutLast? word (some c) cs with
      | some (front, back) => some (c :: front, back)
      | none =>
          if startsWithWord word before (c :: cs) then some ([], (c :: cs).drop word.length)
          else none

end Text

end Stencil
